import Vdf.Lib.Shown
import Mathlib.Data.List.Forall2

/-!
# Reading a FAT volume

What a driver does with a volume once it has the places of its parts: it follows the chains of the
FAT, takes the clusters of a chain one after the other, and reads directories in directories. How
the bytes of a directory are parsed is a parameter.

A file whose clusters follow each other is one slice of the volume (`Run.bytes`). When the volume
has a hierarchy, directory by directory and file by file, the driver finds that hierarchy and
nothing else (`tree_denotes`).
-/

open Buffer

/-- The formats, by the width of an entry. -/
inductive FatKind
  | fat12
  | fat16
  | fat32
  deriving DecidableEq, Repr

namespace FatKind

/-- Entry `c` of the FAT at `p`. -/
def entry (k : FatKind) (m : Buffer) (p c : Nat) : Nat :=
  match k with
  | fat12 =>
    if c % 2 = 0 then m.get16 (p + c * 3 / 2) % 4096 else m.get16 (p + c * 3 / 2) / 16
  | fat16 => m.get16 (p + c * 2)
  | fat32 => m.get32 (p + c * 4) % 2 ^ 28

/-- The least mark of the end of a chain. -/
def eoc : FatKind → Nat
  | fat12 => 0xff8
  | fat16 => 0xfff8
  | fat32 => 0xffffff8

/-- The bits that an entry takes. -/
def width : FatKind → Nat
  | fat12 => 12
  | fat16 => 16
  | fat32 => 32

/-- The bits of an entry that count. -/
def bits : FatKind → Nat
  | fat12 => 12
  | fat16 => 16
  | fat32 => 28

/-- Byte `j` of the table `t`. -/
def byte (k : FatKind) (t : Nat → Nat) (j : Nat) : UInt8 :=
  match k with
  | fat12 => packedByte t j
  | fat16 => entryByte 2 t j
  | fat32 => entryByte 4 t j

theorem eoc_lt (k : FatKind) : k.eoc < 2 ^ k.bits := by cases k <;> decide

/-- The entries of a table that is shown. -/
theorem entry_shown (k : FatKind) {m : Buffer} {a n c : Nat} {t : Nat → Nat}
    (h : m.Shows a n fun j => some (k.byte t j)) (hc : (c + 1) * k.width ≤ n * 8) :
    k.entry m a c = t c % 2 ^ k.bits := by
  cases k with
  | fat12 =>
    have hc : (c + 1) * 12 ≤ n * 8 := hc
    unfold entry
    dsimp only
    split
    · obtain ⟨k, rfl⟩ : ∃ k, c = 2 * k := ⟨c / 2, by omega⟩
      rw [(by omega : 2 * k * 3 / 2 = 3 * k), h.packed_even (by omega)]
      rfl
    · obtain ⟨k, rfl⟩ : ∃ k, c = 2 * k + 1 := ⟨c / 2, by omega⟩
      rw [(by omega : (2 * k + 1) * 3 / 2 = 3 * k + 1), h.packed_odd (by omega)]
      rfl
  | fat16 =>
    have hc : (c + 1) * 16 ≤ n * 8 := hc
    exact h.get16_entry (by omega)
  | fat32 =>
    have hc : (c + 1) * 32 ≤ n * 8 := hc
    show m.get32 (a + c * 4) % 2 ^ 28 = t c % 2 ^ 28
    rw [h.get32_entry (by omega)]
    omega

end FatKind

/-- The places of a volume: the FAT and the first cluster, the bytes of a cluster, and the clusters,
which are numbered from 2 on. -/
structure FatVolume where
  kind : FatKind
  table : Nat
  data : Nat
  bpc : Nat
  clusters : Nat

/-- Where a directory is: `n` bytes at `p`, or the chain from `c` on. -/
inductive DirPlace
  | region (p n : Nat)
  | chain (c : Nat)

/-- What a directory says about an entry. -/
structure Listed (α : Type*) where
  info : α
  isDir : Bool
  cluster : Nat
  size : Nat

/-- A file with its bytes, or a directory with its entries. -/
inductive FatTree (α : Type*)
  | file (info : α) (bytes : List UInt8)
  | dir (info : α) (entries : List (FatTree α))

namespace FatVolume

variable {α σ : Type*}

/-! ## The driver -/

section Driver

variable (v : FatVolume) (m : Buffer)

/-- The first byte of cluster `c`. -/
def address (c : Nat) : Nat := v.data + (c - 2) * v.bpc

/-- The chain from `c` on, if it has at most `fuel` clusters. -/
def chain : (fuel c : Nat) → Option (List Nat)
  | 0, _ => none
  | fuel + 1, c =>
    if c < 2 ∨ v.clusters + 2 ≤ c then none
    else
      let next := v.kind.entry m v.table c
      if v.kind.eoc ≤ next then some [c] else (chain fuel next).map (c :: ·)

/-- The bytes of the clusters `cs`. -/
def content (cs : List Nat) : List UInt8 := cs.flatMap fun c => m.slice (v.address c) v.bpc

/-- The bytes of the chain from `c` on. No chain has more than all clusters. -/
def chainBytes (c : Nat) : Option (List UInt8) := (v.chain m v.clusters c).map (v.content m)

/-- A file of `size` bytes. -/
def readFile (c size : Nat) : Option (List UInt8) :=
  if size = 0 then some []
  else (v.chainBytes m c).bind fun l => if size ≤ l.length then some (l.take size) else none

/-- The bytes of a directory. -/
def readDir : DirPlace → Option (List UInt8)
  | .region p n => some (m.slice p n)
  | .chain c => v.chainBytes m c

/-- The tree below a directory, if it has less than `depth` levels. -/
def tree (parse : List UInt8 → List (Listed α)) : (depth : Nat) → DirPlace →
    Option (List (FatTree α))
  | 0, _ => none
  | depth + 1, place => (v.readDir m place).bind fun bytes => (parse bytes).mapM fun e =>
      if e.isDir then (tree parse depth (.chain e.cluster)).map (FatTree.dir e.info)
      else (v.readFile m e.cluster e.size).map (FatTree.file e.info)

end Driver

/-! ## Clusters that follow each other -/

/-- The FAT chains the `n` clusters from `a` on. -/
structure Run (v : FatVolume) (m : Buffer) (a n : Nat) : Prop where
  pos : 0 < n
  low : 2 ≤ a
  high : a + n ≤ v.clusters + 2
  next : ∀ c, a ≤ c → c + 1 < a + n → v.kind.entry m v.table c = c + 1
  last : v.kind.eoc ≤ v.kind.entry m v.table (a + n - 1)

section Runs

variable {v : FatVolume} {m : Buffer} {a n : Nat}

/-- The rest of a run. -/
theorem Run.tail (h : v.Run m a (n + 2)) : v.Run m (a + 1) (n + 1) where
  pos := Nat.succ_pos n
  low := Nat.le_succ_of_le h.low
  high := by have := h.high; omega
  next c h1 h2 := h.next c (by omega) (by omega)
  last := by
    rw [(by omega : a + 1 + (n + 1) - 1 = a + (n + 2) - 1)]
    exact h.last

/-- The driver follows a run to its end. No cluster has a number that is a mark. -/
theorem Run.chain (h : v.Run m a n) (hmark : v.clusters + 2 ≤ v.kind.eoc) {fuel : Nat}
    (hfuel : n ≤ fuel) : v.chain m fuel a = some (List.range' a n) := by
  induction n generalizing a fuel with
  | zero => exact absurd h.pos (Nat.lt_irrefl 0)
  | succ n ih =>
    obtain ⟨fuel, rfl⟩ : ∃ k, fuel = k + 1 := ⟨fuel - 1, by omega⟩
    have hlow := h.low
    have hhigh := h.high
    rw [FatVolume.chain, if_neg (by omega)]
    cases n with
    | zero =>
      have hlast := h.last
      rw [Nat.zero_add, Nat.add_sub_cancel] at hlast
      exact if_pos hlast
    | succ n =>
      have hnext := h.next a (Nat.le_refl a) (by omega)
      simp only [hnext]
      rw [if_neg (by omega), ih h.tail (by omega), Option.map_some]
      rfl

/-- The clusters of a run are one slice. -/
theorem content_range (v : FatVolume) (m : Buffer) {a : Nat} (ha : 2 ≤ a) (n : Nat) :
    v.content m (List.range' a n) = m.slice (v.address a) (n * v.bpc) := by
  induction n generalizing a with
  | zero => rw [Nat.zero_mul]; rfl
  | succ n ih =>
    have haddr : v.address (a + 1) = v.address a + v.bpc := by
      rw [address, address, (by omega : a + 1 - 2 = a - 2 + 1), Nat.succ_mul, Nat.add_assoc]
    rw [List.range'_succ, content, List.flatMap_cons, Nat.succ_mul, Nat.add_comm (n * v.bpc),
      ← slice_append, ← haddr, ← ih (Nat.le_succ_of_le ha)]
    rfl

/-- The bytes of a run. -/
theorem Run.bytes (h : v.Run m a n) (hmark : v.clusters + 2 ≤ v.kind.eoc) :
    v.chainBytes m a = some (m.slice (v.address a) (n * v.bpc)) := by
  have hhigh := h.high
  have hlow := h.low
  rw [chainBytes, h.chain hmark (by omega), Option.map_some, content_range v m hlow]

/-- A file in a run. -/
theorem Run.file (h : v.Run m a n) (hmark : v.clusters + 2 ≤ v.kind.eoc) {size : Nat}
    (hsize : size ≤ n * v.bpc) : v.readFile m a size = some (m.slice (v.address a) size) := by
  unfold readFile
  split
  · rename_i h0
    rw [h0]
    rfl
  · rw [h.bytes hmark, Option.bind_some, length_slice, if_pos hsize, slice_take _ _ _ _ hsize]

end Runs

/-! ## Hierarchies -/

/-- A hierarchy of files: the entries of a directory, and the bytes of a file. -/
structure Hierarchy (σ α : Type*) where
  entries : σ → List σ
  info : σ → α
  isDir : σ → Bool
  bytes : σ → List UInt8

/-- The tree of a file or directory. -/
inductive Hierarchy.Denotes (h : Hierarchy σ α) : σ → FatTree α → Prop
  | file {f : σ} (hf : h.isDir f = false) : h.Denotes f (.file (h.info f) (h.bytes f))
  | dir {f : σ} {ts : List (FatTree α)} (hf : h.isDir f = true)
      (hts : List.Forall₂ h.Denotes (h.entries f) ts) : h.Denotes f (.dir (h.info f) ts)

/-- The volume has the directory `d` of a hierarchy at `place`. -/
structure HasDir (v : FatVolume) (m : Buffer) (parse : List UInt8 → List (Listed α))
    (h : Hierarchy σ α) (listed : σ → Listed α) (d : σ) (place : DirPlace) : Prop where
  parsed : (v.readDir m place).map parse = some ((h.entries d).map listed)
  files : ∀ f ∈ h.entries d, h.isDir f = false →
    v.readFile m (listed f).cluster (listed f).size = some (h.bytes f)

/-- One result for each element. -/
theorem mapM_forall₂ {β γ δ : Type*} {f : γ → Option δ} {g : β → γ} {R : β → δ → Prop} {l : List β}
    (h : ∀ x ∈ l, ∃ y, f (g x) = some y ∧ R x y) :
    ∃ ys, (l.map g).mapM f = some ys ∧ List.Forall₂ R l ys := by
  induction l with
  | nil => exact ⟨[], rfl, .nil⟩
  | cons x l ih =>
    obtain ⟨y, hy, hR⟩ := h x (List.mem_cons_self ..)
    obtain ⟨ys, hys, hRs⟩ := ih fun z hz => h z (List.mem_cons_of_mem x hz)
    refine ⟨y :: ys, ?_, .cons hR hRs⟩
    rw [List.map_cons, List.mapM_cons, hy]
    simp only [Option.bind_eq_bind, Option.bind_some, hys]
    rfl

/-- A driver finds the hierarchy that a volume has. -/
theorem tree_denotes {v : FatVolume} {m : Buffer} {parse : List UInt8 → List (Listed α)}
    {h : Hierarchy σ α} {listed : σ → Listed α} {rank : σ → Nat} {P : σ → Prop}
    (hlisted : ∀ f, (listed f).info = h.info f ∧ (listed f).isDir = h.isDir f)
    (hrank : ∀ d, P d → ∀ f ∈ h.entries d, rank f < rank d)
    (hclosed : ∀ d, P d → ∀ f ∈ h.entries d, h.isDir f = true →
      P f ∧ v.HasDir m parse h listed f (.chain (listed f).cluster))
    (depth : Nat) {d : σ} {place : DirPlace} (hd : P d)
    (hplace : v.HasDir m parse h listed d place) (hdepth : rank d < depth) :
    ∃ ts, v.tree m parse depth place = some ts ∧ List.Forall₂ h.Denotes (h.entries d) ts := by
  induction depth generalizing d place with
  | zero => exact absurd hdepth (Nat.not_lt_zero _)
  | succ depth ih =>
    obtain ⟨bytes, hbytes, hparse⟩ := Option.map_eq_some_iff.mp hplace.parsed
    rw [tree, hbytes, Option.bind_some, hparse]
    refine mapM_forall₂ fun f hf => ?_
    obtain ⟨hinfo, hisDir⟩ := hlisted f
    rw [hinfo, hisDir]
    cases hdir : h.isDir f with
    | false =>
      refine ⟨_, ?_, .file hdir⟩
      rw [if_neg (by simp), hplace.files f hf hdir, Option.map_some]
    | true =>
      obtain ⟨hP, hplace'⟩ := hclosed d hd f hf hdir
      have hlt := hrank d hd f hf
      obtain ⟨ts, hts, hden⟩ := ih hP hplace' (by omega)
      refine ⟨_, ?_, .dir hdir hden⟩
      rw [if_pos rfl, hts, Option.map_some]

end FatVolume
