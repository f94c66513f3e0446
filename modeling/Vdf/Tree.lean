import Mathlib.Logic.Relation
import Vdf.Recalc
import Vdf.Create

/-!
# Numbering the slots of a tree

`VdfDrive.IsTree`: the parent pointers, the entry lists and `all_files` describe one tree. On a
tree `dir_recalc` stops, and its result has a closed form, `numbered`: the slots of an entry are
those reserved at the head of its directory and those of the entries before it.

`dir_recalc` fills in the files below a directory in depth-first order and counts in the parent.
The invariant is on heaps: files below the directory are still as they were before the call, and
afterwards they are `numbered`; nothing else changes but the parent's counter (`Visited`).
-/

namespace Vdf

open Word

/-! ## Trees -/

namespace VdfDrive

/-- `x` is an entry of the directory `p`. -/
def Child (d : VdfDrive) (x p : FileId) : Prop := (d.file x).parent = some p

/-- `x` is `p` or lies below it. -/
def Below (d : VdfDrive) : FileId → FileId → Prop := Relation.ReflTransGen d.Child

/-- The files of the drive are a tree, and `all_files` has each of them once: the root only on
FAT32. -/
structure IsTree (d : VdfDrive) : Prop where
  root_parent : (d.file d.rootDir).parent = none
  root_isDir : (d.file d.rootDir).isDir = true
  mem_entries : ∀ x p, x ∈ (d.file p).entries ↔ d.Child x p
  nodup_entries : ∀ p, (d.file p).entries.Nodup
  isDir : ∀ x p, d.Child x p → (d.file p).isDir = true
  acyclic : ∃ rank : FileId → Nat, ∀ x p, d.Child x p → rank x < rank p
  nodup_allFiles : d.allFiles.Nodup
  mem_allFiles : ∀ x, x ∈ d.allFiles ↔ d.Below x d.rootDir ∧ (x = d.rootDir → d.filesys = .fat32)

variable {d : VdfDrive}

theorem Below.refl (x : FileId) : d.Below x x := Relation.ReflTransGen.refl

theorem Below.step {x p y : FileId} (h : d.Child x p) (hp : d.Below p y) : d.Below x y :=
  Relation.ReflTransGen.head h hp

theorem Below.below_child {x y : FileId} (h : d.Below x y) (hne : x ≠ y) :
    ∃ f, d.Below x f ∧ d.Child f y := by
  rcases Relation.ReflTransGen.cases_tail h with e | ⟨f, hf, hc⟩
  · exact absurd e.symm hne
  · exact ⟨f, hf, hc⟩

section Rank

variable {rank : FileId → Nat} (hr : ∀ x p, d.Child x p → rank x < rank p)
include hr

theorem Below.rank_le {x y : FileId} (h : d.Below x y) : rank x ≤ rank y := by
  induction h with
  | refl => exact Nat.le_refl _
  | tail _ hc ih => exact Nat.le_trans ih (Nat.le_of_lt (hr _ _ hc))

theorem not_below_of_child {f p : FileId} (h : d.Child f p) : ¬ d.Below p f := fun hb => by
  have h1 := hr _ _ h
  have h2 := Below.rank_le hr hb
  omega

/-- The files below two entries of one directory are disjoint. -/
theorem not_below_of_siblings {f g p x : FileId} (hf : d.Child f p) (hg : d.Child g p)
    (hne : f ≠ g) (hx : d.Below x f) : ¬ d.Below x g := by
  intro hxg
  have key : ∀ {a b : FileId}, d.Child a p → d.Child b p → a ≠ b → ¬ d.Below a b := by
    intro a b ha hb hab hba
    rcases Relation.ReflTransGen.cases_head hba with e | ⟨c, hac, hcb⟩
    · exact hab e
    · have e : c = p := Option.some.inj (hac.symm.trans ha)
      exact not_below_of_child hr hb (e ▸ hcb)
  have hu : Relator.RightUnique d.Child := fun a b c hb hc => Option.some.inj (hb.symm.trans hc)
  rcases Relation.ReflTransGen.total_of_right_unique hu hx hxg with h | h
  · exact key hf hg hne h
  · exact key hg hf hne.symm h

end Rank

end VdfDrive

/-! ## The numbering in closed form -/

/-- The slots of the entries `l`. -/
def entrySlots (d : VdfDrive) (l : List FileId) : Nat :=
  (l.map fun f => fentsNeeded d f + 1).sum

@[simp] theorem entrySlots_nil (d : VdfDrive) : entrySlots d [] = 0 := rfl

@[simp] theorem entrySlots_cons (d : VdfDrive) (f : FileId) (l : List FileId) :
    entrySlots d (f :: l) = fentsNeeded d f + 1 + entrySlots d l := by simp [entrySlots]

/-- All slots of a directory. -/
def dirSlots (d : VdfDrive) (dir : FileId) : Nat :=
  reservedSlots d dir + entrySlots d (d.file dir).entries

/-- The first slot of an entry. -/
def slotStart (d : VdfDrive) (dir f : FileId) : Nat :=
  reservedSlots d dir + entrySlots d ((d.file dir).entries.takeWhile (· ≠ f))

/-- A directory with the size that its slots take; another file as it is. -/
def sized (d : VdfDrive) (x : FileId) : VdfFile :=
  let fil := d.file x
  if fil.isDir then
    { fil with dirFentCnt := dirSlots d x, size := dirSize (dirSlots d x)
               clusters := dirClusters d.bpc (dirSize (dirSlots d x)) }
  else fil

/-- The file whose slots start at `k`. -/
def numberedAt (d : VdfDrive) (k : Nat) (x : FileId) : VdfFile :=
  { sized d x with fentStart := k, fentCnt := fentsNeeded d x }

/-- The file after `dir_recalc`. -/
def numbered (d : VdfDrive) (x : FileId) : VdfFile :=
  match (d.file x).parent with
  | none => sized d x
  | some p => numberedAt d (slotStart d p x) x

theorem numbered_child {d : VdfDrive} {x p : FileId} (h : d.Child x p) :
    numbered d x = numberedAt d (slotStart d p x) x := by
  rw [numbered, h]

/-- The numbering keeps everything but the slots, and the size of a directory. -/
theorem numbered_static (d : VdfDrive) (x : FileId) :
    (numbered d x).isDir = (d.file x).isDir ∧ (numbered d x).attr = (d.file x).attr ∧
      (numbered d x).parent = (d.file x).parent ∧ (numbered d x).entries = (d.file x).entries ∧
      (numbered d x).fatclusters = (d.file x).fatclusters ∧
      (numbered d x).start = (d.file x).start ∧ (numbered d x).end_ = (d.file x).end_ ∧
      (numbered d x).startsect = (d.file x).startsect := by
  unfold numbered numberedAt sized
  split
  all_goals
    by_cases hd : (d.file x).isDir = true
    · rw [if_pos hd]
      exact ⟨rfl, rfl, rfl, rfl, rfl, rfl, rfl, rfl⟩
    · rw [if_neg hd]
      exact ⟨rfl, rfl, rfl, rfl, rfl, rfl, rfl, rfl⟩

/-! ## One entry -/

/-- `h'` is the heap `h` after the entry `f` of `p` was numbered. -/
structure Visited (d : VdfDrive) (h h' : FileId → VdfFile) (f p : FileId) : Prop where
  self : h' f = numberedAt d (h p).dirFentCnt f
  below : ∀ x, d.Below x f → x ≠ f → h' x = numbered d x
  parent : h' p = { h p with dirFentCnt := (h p).dirFentCnt + (fentsNeeded d f + 1) }
  frame : ∀ x, ¬ d.Below x f → x ≠ p → h' x = h x

/-- The heap after `file_recalc_dir`. -/
theorem fileRecalcDir_heap {d : VdfDrive} {h : FileId → VdfFile} {f p : FileId}
    (hc : (h f).parent = some p) (hne : f ≠ p)
    (hfents : fentsNeeded { d with file := h } f = fentsNeeded d f) :
    ∃ h', fileRecalcDir { d with file := h } f = { d with file := h' } ∧
      h' f = { h f with fentStart := (h p).dirFentCnt, fentCnt := fentsNeeded d f } ∧
      h' p = { h p with dirFentCnt := (h p).dirFentCnt + (fentsNeeded d f + 1) } ∧
      ∀ x, x ≠ f → x ≠ p → h' x = h x := by
  refine ⟨_, by simp only [fileRecalcDir, hc]; rfl, ?_, ?_, ?_⟩
  · simp [VdfDrive.modifyFile, hne, hfents]
  · simp [VdfDrive.modifyFile, hne.symm, hfents]
  · intro x h1 h2
    simp [VdfDrive.modifyFile, h1, h2]

theorem fentsNeeded_congr {d : VdfDrive} {h : FileId → VdfFile} {f : FileId}
    (h1 : (h f).longname = (d.file f).longname) (h2 : (h f).name = (d.file f).name) :
    fentsNeeded { d with file := h } f = fentsNeeded d f := by
  simp only [fentsNeeded, h1, h2]

/-- An entry that is not a directory. -/
theorem visited_file {d : VdfDrive} (ht : d.IsTree) {h : FileId → VdfFile} {f p : FileId}
    (hc : d.Child f p) (hf : (d.file f).isDir = false) (hh : h f = d.file f) (hne : f ≠ p) :
    ∃ h', fileRecalcDir { d with file := h } f = { d with file := h' } ∧ Visited d h h' f p := by
  obtain ⟨h', e, h1, h2, h3⟩ := fileRecalcDir_heap (d := d) (h := h) (by rw [hh]; exact hc) hne
    (fentsNeeded_congr (by rw [hh]) (by rw [hh]))
  refine ⟨h', e, ?_, ?_, h2, ?_⟩
  · rw [h1, hh]; simp [numberedAt, sized, hf]
  · intro x hx hxf
    obtain ⟨g, -, hg⟩ := hx.below_child hxf
    rw [ht.isDir g f hg] at hf
    cases hf
  · intro x hx hxp
    exact h3 x (fun e => hx (e ▸ Relation.ReflTransGen.refl)) hxp

/-! ## The entries of one directory -/

/-- The heap after a part `l` of the entries of `p`. -/
structure VisitedAll (d : VdfDrive) (h h' : FileId → VdfFile) (l : List FileId) (p : FileId) :
    Prop where
  self : ∀ f ∈ l, h' f = numberedAt d ((h p).dirFentCnt + entrySlots d (l.takeWhile (· ≠ f))) f
  below : ∀ f ∈ l, ∀ x, d.Below x f → x ≠ f → h' x = numbered d x
  parent : h' p = { h p with dirFentCnt := (h p).dirFentCnt + entrySlots d l }
  frame : ∀ x, (∀ f ∈ l, ¬ d.Below x f) → x ≠ p → h' x = h x

/-- The loop over the entries, for any treatment of one entry that numbers it. -/
theorem visitedAll_foldlM {d : VdfDrive} {rank : FileId → Nat}
    (hr : ∀ x p, d.Child x p → rank x < rank p) (visit : VdfDrive → FileId → Option VdfDrive)
    {p : FileId} (l : List FileId) (hl : l.Nodup) (hc : ∀ f ∈ l, d.Child f p)
    (hv : ∀ f ∈ l, ∀ h : FileId → VdfFile, (∀ x, d.Below x f → h x = d.file x) →
      ∃ h', visit { d with file := h } f = some { d with file := h' } ∧ Visited d h h' f p)
    (h : FileId → VdfFile) (hh : ∀ f ∈ l, ∀ x, d.Below x f → h x = d.file x) :
    ∃ h', l.foldlM visit { d with file := h } = some { d with file := h' } ∧
      VisitedAll d h h' l p := by
  induction l generalizing h with
  | nil => exact ⟨h, rfl, ⟨nofun, nofun, by simp, fun _ _ _ => rfl⟩⟩
  | cons f l ih =>
    obtain ⟨hfl, hl⟩ := List.nodup_cons.mp hl
    have hcf := hc f (List.mem_cons_self ..)
    have hcl : ∀ g ∈ l, d.Child g p := fun g hg => hc g (List.mem_cons_of_mem _ hg)
    have hdisj : ∀ g ∈ l, ∀ x, d.Below x g → ¬ d.Below x f := fun g hg x hx =>
      VdfDrive.not_below_of_siblings hr (hcl g hg) hcf (fun e => hfl (e ▸ hg)) hx
    have hpar : ∀ g ∈ f :: l, ¬ d.Below p g := fun g hg =>
      VdfDrive.not_below_of_child hr (hc g hg)
    obtain ⟨h₁, e₁, v₁⟩ := hv f (List.mem_cons_self ..) h (hh f (List.mem_cons_self ..))
    -- What lies below the entries that follow is as it was.
    have hrest : ∀ g ∈ l, ∀ x, d.Below x g → h₁ x = d.file x := by
      intro g hg x hx
      rw [v₁.frame x (hdisj g hg x hx), hh g (List.mem_cons_of_mem _ hg) x hx]
      rintro rfl
      exact hpar g (List.mem_cons_of_mem _ hg) hx
    obtain ⟨h₂, e₂, v₂⟩ := ih hl hcl (fun g hg => hv g (List.mem_cons_of_mem _ hg)) h₁ hrest
    have hkeep : ∀ x, d.Below x f → h₂ x = h₁ x := fun x hx =>
      v₂.frame x (fun g hg hxg => hdisj g hg x hxg hx) fun e => hpar f (List.mem_cons_self ..) (e ▸ hx)
    refine ⟨h₂, by rw [List.foldlM_cons, e₁]; exact e₂, ?_, ?_, ?_, ?_⟩
    · intro g hg
      rcases List.mem_cons.mp hg with rfl | hgl
      · rw [hkeep g (VdfDrive.Below.refl g), v₁.self]; simp
      · have hne : f ≠ g := fun e => hfl (e ▸ hgl)
        rw [v₂.self g hgl, v₁.parent]
        simp [hne, Nat.add_assoc]
    · intro g hg x hx hxg
      rcases List.mem_cons.mp hg with rfl | hgl
      · rw [hkeep x hx, v₁.below x hx hxg]
      · exact v₂.below g hgl x hx hxg
    · rw [v₂.parent, v₁.parent]
      simp [Nat.add_assoc]
    · intro x hx hxp
      rw [v₂.frame x (fun g hg => hx g (List.mem_cons_of_mem _ hg)) hxp,
        v₁.frame x (hx f (List.mem_cons_self ..)) hxp]

/-! ## The whole tree -/

/-- `dir_recalc` before it numbers the directory itself. -/
structure Filled (d : VdfDrive) (h h' : FileId → VdfFile) (dir : FileId) : Prop where
  self : h' dir = sized d dir
  below : ∀ x, d.Below x dir → x ≠ dir → h' x = numbered d x
  frame : ∀ x, ¬ d.Below x dir → h' x = h x

theorem reservedSlots_congr {d : VdfDrive} {h : FileId → VdfFile} {dir : FileId}
    (hh : h dir = d.file dir) : reservedSlots { d with file := h } dir = reservedSlots d dir := by
  simp only [reservedSlots, hh]

/-- The body of `dir_recalc` up to its last `if`. -/
theorem filled_of_visitedAll {d : VdfDrive} (ht : d.IsTree) {h h' : FileId → VdfFile} {dir : FileId}
    (hdir : (d.file dir).isDir = true) (hh : h dir = d.file dir)
    (hv : VisitedAll d
      (fun x => if x = dir then { h x with dirFentCnt := reservedSlots d dir } else h x) h'
      (d.file dir).entries dir) :
    Filled d h (fun x => if x = dir then
      { h' x with size := dirSize (h' dir).dirFentCnt
                  clusters := dirClusters d.bpc (dirSize (h' dir).dirFentCnt) } else h' x) dir := by
  have hself : h' dir = { d.file dir with dirFentCnt := dirSlots d dir } := by
    rw [hv.parent]; simp [hh, dirSlots]
  refine ⟨?_, ?_, ?_⟩
  · simp [hself, sized, hdir]
  · intro x hx hne
    rw [if_neg hne]
    obtain ⟨f, hxf, hc⟩ := hx.below_child hne
    have hmem := (ht.mem_entries f dir).mpr hc
    by_cases e : x = f
    · subst e
      rw [hv.self x hmem, numbered_child hc]
      simp [slotStart]
    · exact hv.below f hmem x hxf e
  · intro x hx
    have hne : x ≠ dir := fun e => hx (e ▸ Relation.ReflTransGen.refl)
    rw [if_neg hne, hv.frame x _ hne, if_neg hne]
    intro f hf hxf
    exact hx (hxf.tail ((ht.mem_entries f dir).mp hf))

/-- With fuel above the rank, `dir_recalc` fills in what lies below `dir` and numbers `dir`. -/
theorem dirRecalc_spec {d : VdfDrive} (ht : d.IsTree) {rank : FileId → Nat}
    (hr : ∀ x p, d.Child x p → rank x < rank p) (fuel : Nat) (dir : FileId)
    (hfuel : rank dir < fuel) (hdir : (d.file dir).isDir = true) (h : FileId → VdfFile)
    (hh : ∀ x, d.Below x dir → h x = d.file x) :
    ∃ h₁, Filled d h h₁ dir ∧
      dirRecalc fuel { d with file := h } dir =
        some (if (d.file dir).parent ≠ none ∨ d.filesys = .fat32 then
          fileRecalcDir { d with file := h₁ } dir else { d with file := h₁ }) := by
  induction fuel generalizing dir h with
  | zero => omega
  | succ fuel ih =>
    have hself : h dir = d.file dir := hh dir (VdfDrive.Below.refl dir)
    have hcl : ∀ f ∈ (d.file dir).entries, d.Child f dir := fun f => (ht.mem_entries f dir).mp
    -- One entry: a file at once, a directory by the induction hypothesis.
    have hvisit : ∀ f ∈ (d.file dir).entries, ∀ h : FileId → VdfFile,
        (∀ x, d.Below x f → h x = d.file x) →
        ∃ h', (if (({ d with file := h } : VdfDrive).file f).isDir then
            dirRecalc fuel { d with file := h } f
          else some (fileRecalcDir { d with file := h } f)) = some { d with file := h' } ∧
          Visited d h h' f dir := by
      intro f hf h hh
      have hc := hcl f hf
      have hfh : h f = d.file f := hh f (VdfDrive.Below.refl f)
      have hne : f ≠ dir := by rintro rfl; exact absurd (hr _ _ hc) (by omega)
      simp only [hfh]
      cases hfd : (d.file f).isDir with
      | false =>
        obtain ⟨h', e, hv⟩ := visited_file ht hc hfd hfh hne
        exact ⟨h', by simp [e], hv⟩
      | true =>
        obtain ⟨h₁, hfill, e⟩ := ih f (by have := hr _ _ hc; omega) hfd h hh
        have hsz : ∀ {g : VdfFile}, h₁ f = g → g = sized d f → (g.parent = some dir ∧
            g.longname = (d.file f).longname ∧ g.name = (d.file f).name) := by
          rintro g - rfl
          unfold sized
          rw [if_pos hfd]
          exact ⟨hc, rfl, rfl⟩
        obtain ⟨k1, k2, k3⟩ := hsz rfl hfill.self
        obtain ⟨h', e', q1, q2, q3⟩ := fileRecalcDir_heap (d := d) k1 hne (fentsNeeded_congr k2 k3)
        have hpar : h₁ dir = h dir := hfill.frame dir (VdfDrive.not_below_of_child hr hc)
        refine ⟨h', ?_, ?_, ?_, ?_, ?_⟩
        · rw [if_pos rfl, e, if_pos (.inl (by rw [hc]; simp)), e']
        · rw [q1, hfill.self, hpar]; rfl
        · intro x hx hxf
          rw [q3 x hxf, hfill.below x hx hxf]
          rintro rfl
          exact VdfDrive.not_below_of_child hr hc hx
        · rw [q2, hpar]
        · intro x hx hxd
          rw [q3 x (fun e => hx (e ▸ Relation.ReflTransGen.refl)) hxd, hfill.frame x hx]
    obtain ⟨h', e, hv⟩ := visitedAll_foldlM hr
      (fun d f => if (d.file f).isDir then dirRecalc fuel d f else some (fileRecalcDir d f))
      (d.file dir).entries (ht.nodup_entries dir) hcl hvisit
      (fun x => if x = dir then { h x with dirFentCnt := reservedSlots d dir } else h x) (by
        intro f hf x hx
        have hne : x ≠ dir := by
          rintro rfl; exact VdfDrive.not_below_of_child hr (hcl f hf) hx
        rw [if_neg hne]
        exact hh x (hx.tail (hcl f hf)))
    refine ⟨_, filled_of_visitedAll ht hdir hself hv, ?_⟩
    have hpar : (h' dir).parent = (d.file dir).parent := by rw [hv.parent]; simp [hself]
    rw [dirRecalc]
    simp only [VdfDrive.modifyFile, reservedSlots_congr hself, ↓reduceIte, hself,
      Option.bind_eq_bind]
    simp only at e
    rw [e]
    simp only [Option.bind_some, hpar]
    split <;> rfl

theorem foldlM_mono {v w : VdfDrive → FileId → Option VdfDrive}
    (hvw : ∀ d f r, v d f = some r → w d f = some r) (l : List FileId) (d r : VdfDrive)
    (h : l.foldlM v d = some r) : l.foldlM w d = some r := by
  induction l generalizing d with
  | nil => exact h
  | cons f l ih =>
    rw [List.foldlM_cons, Option.bind_eq_bind, Option.bind_eq_some_iff] at h ⊢
    obtain ⟨d₁, h1, h2⟩ := h
    exact ⟨d₁, hvw _ _ _ h1, ih _ h2⟩

/-- More fuel gives the same result. -/
theorem dirRecalc_succ {fuel : Nat} {d r : VdfDrive} {dir : FileId}
    (h : dirRecalc fuel d dir = some r) : dirRecalc (fuel + 1) d dir = some r := by
  induction fuel generalizing d dir r with
  | zero => cases h
  | succ fuel ih =>
    rw [dirRecalc] at h ⊢
    simp only [Option.bind_eq_bind, Option.bind_eq_some_iff] at h ⊢
    obtain ⟨d₁, h1, h2⟩ := h
    refine ⟨d₁, foldlM_mono (fun d f r hv => ?_) _ _ _ h1, h2⟩
    split
    · rename_i hd; rw [if_pos hd] at hv; exact ih hv
    · rename_i hd; rw [if_neg hd] at hv; exact hv

/-- More fuel changes nothing. -/
theorem dirRecalc_add {m : Nat} {d r : VdfDrive} {dir : FileId} (h : dirRecalc m d dir = some r)
    (n : Nat) : dirRecalc (m + n) d dir = some r := by
  induction n with
  | zero => exact h
  | succ n ih => exact dirRecalc_succ ih

theorem dirRecalc_unique {m n : Nat} {d r s : VdfDrive} {dir : FileId}
    (hm : dirRecalc m d dir = some r) (hn : dirRecalc n d dir = some s) : r = s := by
  have h1 := dirRecalc_add hm n
  have h2 := dirRecalc_add hn m
  rw [Nat.add_comm] at h2
  exact Option.some.inj (h1.symm.trans h2)

/-- `dir_recalc` of the root of a tree: every file of the tree is `numbered`. -/
theorem dirRecalc_root {d : VdfDrive} (ht : d.IsTree) :
    ∃ fuel h, dirRecalc fuel d d.rootDir = some { d with file := h } ∧
      (∀ x, d.Below x d.rootDir → h x = numbered d x) ∧
      ∀ x, ¬ d.Below x d.rootDir → h x = d.file x := by
  obtain ⟨rank, hr⟩ := ht.acyclic
  obtain ⟨h, hf, e⟩ := dirRecalc_spec ht hr (rank d.rootDir + 1) d.rootDir (Nat.lt_succ_self _)
    ht.root_isDir d.file fun _ _ => rfl
  refine ⟨rank d.rootDir + 1, h, ?_, ?_, hf.frame⟩
  · have hroot : (h d.rootDir).parent = none := by
      rw [hf.self]; unfold sized; simp only [ht.root_isDir, ↓reduceIte]; exact ht.root_parent
    have hid : fileRecalcDir { d with file := h } d.rootDir = { d with file := h } := by
      simp only [fileRecalcDir, hroot]
    rw [e, hid, ite_self]
  · intro x hx
    by_cases hne : x = d.rootDir
    · subst hne
      rw [hf.self, numbered, ht.root_parent]
    · exact hf.below x hx hne

/-! ## Drives with files in the root only -/

/-- The files `1, 2, …` are the entries of the root, file 0. -/
def flatDrive (g : Geometry) (label : Option (List UInt8)) (files : List VdfFile) : VdfDrive :=
  let ids := List.range' 1 files.length
  { toGeometry := g, label
    file := fun x =>
      if x = 0 then { createRootDir with entries := ids, dirCnt := files.length }
      else match files[x - 1]? with
        | some fil => { fil with parent := some 0, entries := [] }
        | none => {}
    allFiles := if g.filesys = .fat32 then 0 :: ids else ids
    fileCnt := if g.filesys = .fat32 then files.length + 1 else files.length
    dataEnd := g.dataStart }

theorem flatDrive_child {g : Geometry} {label : Option (List UInt8)} {files : List VdfFile}
    {x p : Nat} :
    (flatDrive g label files).Child x p ↔ p = 0 ∧ x ∈ List.range' 1 files.length := by
  rw [List.mem_range'_1]
  simp only [VdfDrive.Child, flatDrive]
  by_cases hx : x = 0
  · subst hx
    simp [createRootDir]
  · rw [if_neg hx]
    by_cases hlt : x - 1 < files.length
    · rw [List.getElem?_eq_getElem hlt]
      simp only [Option.some.injEq]
      constructor
      · rintro rfl; exact ⟨rfl, by omega⟩
      · rintro ⟨rfl, -⟩; rfl
    · rw [List.getElem?_eq_none (by omega)]
      simp only [reduceCtorEq, false_iff]
      omega

theorem flatDrive_isTree (g : Geometry) (label : Option (List UInt8)) (files : List VdfFile) :
    (flatDrive g label files).IsTree := by
  have hroot : (flatDrive g label files).rootDir = 0 := rfl
  have hentries : ∀ p, ((flatDrive g label files).file p).entries =
      if p = 0 then List.range' 1 files.length else [] := by
    intro p
    simp only [flatDrive]
    by_cases hp : p = 0
    · simp [hp]
    · rw [if_neg hp, if_neg hp]
      split <;> rfl
  have hdir : ((flatDrive g label files).file 0).isDir = true := by
    have : createRootDir.isDir = true := by decide
    exact this
  have hbelow : ∀ x : Nat, (flatDrive g label files).Below x 0 ↔
      x = 0 ∨ x ∈ List.range' 1 files.length := by
    intro x
    constructor
    · intro h
      rcases Relation.ReflTransGen.cases_head h with e | ⟨p, hc, -⟩
      · exact .inl e
      · exact .inr (flatDrive_child.mp hc).2
    · rintro (rfl | h)
      · exact Relation.ReflTransGen.refl
      · exact Relation.ReflTransGen.single (flatDrive_child.mpr ⟨rfl, h⟩)
  refine
    { root_parent := rfl, root_isDir := hdir, mem_entries := ?_, nodup_entries := ?_
      isDir := ?_, acyclic := ⟨fun x => if x = 0 then 1 else 0, ?_⟩, nodup_allFiles := ?_
      mem_allFiles := ?_ }
  · intro x p
    rw [hentries, flatDrive_child]
    split <;> simp_all
  · intro p
    rw [hentries]
    split
    · exact List.nodup_range'
    · exact .nil
  · intro x p h
    rw [(flatDrive_child.mp h).1]
    exact hdir
  · intro (x : Nat) p h
    obtain ⟨rfl, hx⟩ := flatDrive_child.mp h
    have : x ≠ 0 := by have := (List.mem_range'_1.mp hx).1; omega
    simp [this]
  · simp only [flatDrive]
    split
    · exact List.nodup_cons.mpr ⟨by simp, List.nodup_range'⟩
    · exact List.nodup_range'
  · intro x
    rw [hroot, hbelow]
    simp only [flatDrive]
    have h0 : ¬ 0 ∈ List.range' 1 files.length := by simp
    split
    · rename_i h; simp [h]
    · rename_i h
      constructor
      · intro hx; exact ⟨.inr hx, fun e => absurd (e ▸ hx) h0⟩
      · rintro ⟨rfl | hx, hx'⟩
        · exact absurd (hx' rfl) h
        · exact hx

end Vdf
