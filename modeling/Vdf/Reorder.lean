import Vdf.Api
import Vdf.Lib.Ring
import Vdf.Partition

/-!
# The order of the entries

`vdf_file_up` and `vdf_file_down` with the pointers of the `list_head`s. Both exchange what is
stored in the two nodes and leave the links of the neighbours, and the links of the two to each
other, as they are. So one of the two nodes then links to itself: the way through the directory
passes it by, in one direction the file and in the other the entry next to it, and no order of the
entries is a ring any more. -/

namespace Vdf

/-! ## The calls -/

/-- The `list_head`s that make up the directories. -/
inductive ListHead where
  /-- `dir.entries` of a directory. -/
  | entries (dir : FileId)
  /-- `dirlist` of a file. -/
  | dirlist (file : FileId)
  deriving DecidableEq

/-- A drive with the pointers of its `list_head`s. The calls below look at these for the entries of
a directory, not at the lists of the drive. -/
structure LinkedDrive where
  drive : VdfDrive
  links : Links ListHead

namespace LinkedDrive

/-- The six assignments that `vdf_file_up` and `vdf_file_down` share. -/
def exchange (s : Links ListHead) (file p : ListHead) : Links ListHead :=
  let tp := s.prev p
  let tn := s.next p
  let s := s.setPrev p (s.prev file)
  let s := s.setNext p (s.next file)
  let s := s.setPrev file tp
  s.setNext file tn

/-- `vdf_file_up`. -/
def vdfFileUp (ld : LinkedDrive) (file : FileId) : Except Errno Unit × LinkedDrive :=
  match (ld.drive.file file).deleted, (ld.drive.file file).parent with
  | true, _ | _, none => (.error .einval, ld)
  | false, some parent =>
    if ld.drive.lockTest then (.error .eperm, ld)
    else
      let p := ld.links.prev (.dirlist file)
      if p = .entries parent then (.error .erange, ld)
      else (.ok (), ⟨setDriveDirty ld.drive, exchange ld.links (.dirlist file) p⟩)

/-- `vdf_file_down`. -/
def vdfFileDown (ld : LinkedDrive) (file : FileId) : Except Errno Unit × LinkedDrive :=
  match (ld.drive.file file).deleted, (ld.drive.file file).parent with
  | true, _ | _, none => (.error .einval, ld)
  | false, some parent =>
    if ld.drive.lockTest then (.error .eperm, ld)
    else
      let p := ld.links.next (.dirlist file)
      if p = .entries parent then (.error .erange, ld)
      else (.ok (), ⟨setDriveDirty ld.drive, exchange ld.links (.dirlist file) p⟩)

theorem exchange_exchanged (s : Links ListHead) (file p : ListHead) :
    Links.Ring.Exchanged s (exchange s file p) p file where
  next_left := by
    by_cases h : p = file
    · simp [exchange, h]
    · simp [exchange, h]
  next_right := by simp [exchange]
  prev_left := by
    by_cases h : p = file
    · simp [exchange, h]
    · simp [exchange, h]
  prev_right := by simp [exchange]
  frame x h1 h2 := by simp [exchange, h1, h2]

@[simp] theorem exchange_self (s : Links ListHead) (file : ListHead) : exchange s file file = s := by
  simp [exchange, Links.setNext, Links.setPrev]

/-! ## Entries of a ring -/

/-- The nodes of the entries `l` of the directory `p` are a ring. -/
abbrev RingOf (ld : LinkedDrive) (p : FileId) (l : List FileId) : Prop :=
  ld.links.Ring (.entries p) (l.map .dirlist)

/-- On an unlocked drive `file` is one of the entries `l` of the directory `p`. -/
structure EntryOf (ld : LinkedDrive) (p : FileId) (l : List FileId) (file : FileId) : Prop where
  unlocked : ld.drive.lockTest = false
  live : (ld.drive.file file).deleted = false
  parent : (ld.drive.file file).parent = some p
  ring : ld.RingOf p l
  mem : file ∈ l

/-- The entries with the file and the one before it exchanged. -/
def swapUp (file : FileId) : List FileId → List FileId
  | a :: b :: l => if b = file then b :: a :: l else a :: swapUp file (b :: l)
  | l => l

/-- The entries with the file and the one behind it exchanged. -/
def swapDown (file : FileId) : List FileId → List FileId
  | a :: b :: l => if a = file then b :: a :: l else a :: swapDown file (b :: l)
  | l => l

example : swapUp 3 [1, 2, 3, 4] = [1, 3, 2, 4] := by decide
example : swapDown 2 [1, 2, 3, 4] = [1, 3, 2, 4] := by decide

variable {ld : LinkedDrive} {p q file : FileId} {l m pre post : List FileId}

theorem swapUp_of_notMem (h : file ∉ l.tail) : swapUp file l = l := by
  fun_induction swapUp file l with
  | case1 a l => exact absurd List.mem_cons_self h
  | case2 a b l hb ih => rw [ih fun hm => h (List.mem_cons_of_mem _ hm)]
  | case3 => rfl

theorem swapDown_of_notMem (h : file ∉ l.dropLast) : swapDown file l = l := by
  fun_induction swapDown file l with
  | case1 b l => exact absurd List.mem_cons_self h
  | case2 a b l ha ih =>
    rw [ih fun hm => h ?_]
    exact List.mem_cons_of_mem a hm
  | case3 => rfl

namespace EntryOf

variable (he : ld.EntryOf p l file)
include he

theorem nodup : l.Nodup := .of_map _ (List.nodup_cons.1 he.ring.nodup).2

theorem first_or : l.head? = some file ∨ ∃ pre q post, l = pre ++ q :: file :: post := by
  obtain ⟨pre, post, rfl⟩ := List.append_of_mem he.mem
  rcases List.eq_nil_or_concat pre with rfl | ⟨pre, q, rfl⟩
  · exact .inl rfl
  · exact .inr ⟨pre, q, post, by simp⟩

theorem last_or : l.getLast? = some file ∨ ∃ pre q post, l = pre ++ file :: q :: post := by
  obtain ⟨pre, post, rfl⟩ := List.append_of_mem he.mem
  cases post with
  | nil => exact .inl (by simp)
  | cons q post => exact .inr ⟨pre, q, post, rfl⟩

end EntryOf

/-! ## What a call does -/

theorem vdfFileUp_first (he : ld.EntryOf p l file) (h : l.head? = some file) :
    vdfFileUp ld file = (.error .erange, ld) := by
  obtain ⟨l, rfl⟩ := List.head?_eq_some_iff.1 h
  have hring : Links.Ring ld.links (.entries p) ([] ++ .dirlist file :: l.map .dirlist) := he.ring
  have hp : ld.links.prev (.dirlist file) = .entries p := hring.prev_eq
  simp [vdfFileUp, he.live, he.parent, he.unlocked, hp]

theorem vdfFileUp_behind (he : ld.EntryOf p (pre ++ q :: file :: post) file) :
    vdfFileUp ld file =
      (.ok (), ⟨setDriveDirty ld.drive, exchange ld.links (.dirlist file) (.dirlist q)⟩) := by
  have hr := he.ring
  rw [RingOf, List.append_cons, List.map_append, List.map_cons] at hr
  have hp : ld.links.prev (.dirlist file) = .dirlist q := by
    rw [hr.prev_eq]
    simp
  simp [vdfFileUp, he.live, he.parent, he.unlocked, hp]

theorem vdfFileDown_last (he : ld.EntryOf p l file) (h : l.getLast? = some file) :
    vdfFileDown ld file = (.error .erange, ld) := by
  obtain ⟨l, rfl⟩ := List.getLast?_eq_some_iff.1 h
  have hr := he.ring
  rw [RingOf, List.map_append, List.map_cons] at hr
  have hp : ld.links.next (.dirlist file) = .entries p := hr.next_eq
  simp [vdfFileDown, he.live, he.parent, he.unlocked, hp]

theorem vdfFileDown_before (he : ld.EntryOf p (pre ++ file :: q :: post) file) :
    vdfFileDown ld file =
      (.ok (), ⟨setDriveDirty ld.drive, exchange ld.links (.dirlist file) (.dirlist q)⟩) := by
  have hr := he.ring
  rw [RingOf, List.map_append, List.map_cons] at hr
  have hp : ld.links.next (.dirlist file) = .dirlist q := hr.next_eq
  simp [vdfFileDown, he.live, he.parent, he.unlocked, hp]

/-! ## The lists of the drive -/

/-- The lists of the drive say where a traversal leads: behind `vdf_file_up`, past the file. -/
theorem vdfFileUp_forward (he : ld.EntryOf p (ld.drive.file p).entries file) :
    let r := Vdf.vdfFileUp ld.drive file
    (vdfFileUp ld file).1 = r.1 ∧
      Links.Path (vdfFileUp ld file).2.links.next (.entries p)
        ((r.2.file p).entries.map .dirlist) (.entries p) := by
  rcases he.first_or with hf | ⟨pre, q, post, hl⟩
  · rw [vdfFileUp_first he hf]
    simp only [Vdf.vdfFileUp, he.live, he.parent, he.unlocked, hf, ↓reduceIte, Bool.false_eq_true,
      true_and]
    exact he.ring.forward
  · have hd := he.nodup
    rw [hl] at he hd
    have hr := he.ring
    rw [RingOf, List.map_append, List.map_cons, List.map_cons] at hr
    have hne : (pre ++ q :: file :: post).head? ≠ some file := by
      cases pre <;> grind
    have hx : (pre ++ q :: file :: post).erase file = pre ++ q :: post := by
      rw [List.append_cons, List.erase_append_right] <;> grind
    rw [vdfFileUp_behind he]
    simp only [Vdf.vdfFileUp, he.live, he.parent, he.unlocked, hl, hne, ↓reduceIte,
      Bool.false_eq_true, setDriveDirty_file, VdfDrive.modifyFile_file, hx, true_and]
    simpa using (hr.exchanged (exchange_exchanged _ _ _)).1

/-- Behind `vdf_file_down`, past the entry behind the file. -/
theorem vdfFileDown_forward (he : ld.EntryOf p (ld.drive.file p).entries file) :
    let r := Vdf.vdfFileDown ld.drive file
    (vdfFileDown ld file).1 = r.1 ∧
      Links.Path (vdfFileDown ld file).2.links.next (.entries p)
        ((r.2.file p).entries.map .dirlist) (.entries p) := by
  have hd := he.nodup
  rcases he.last_or with hf | ⟨pre, q, post, hl⟩
  · rw [vdfFileDown_last he hf]
    obtain ⟨l, hl⟩ := List.getLast?_eq_some_iff.1 hf
    rw [hl] at hd
    have hx : ((l ++ [file]).dropWhile (· != file)).tail = [] := by
      rw [List.dropWhile_append_of_pos (by grind), List.dropWhile_cons_of_neg (by simp),
        List.tail_cons]
    simp only [Vdf.vdfFileDown, he.live, he.parent, he.unlocked, hl, hx, ↓reduceIte,
      Bool.false_eq_true, true_and]
    exact hl ▸ he.ring.forward
  · rw [hl] at he hd
    have hr := he.ring
    rw [RingOf, List.map_append, List.map_cons, List.map_cons] at hr
    have hn : ((pre ++ file :: q :: post).dropWhile (· != file)).tail = q :: post := by
      rw [List.dropWhile_append_of_pos (by grind), List.dropWhile_cons_of_neg (by simp),
        List.tail_cons]
    have hx : (pre ++ file :: q :: post).erase q = pre ++ file :: post := by
      rw [List.append_cons, List.erase_append_right] <;> grind
    rw [vdfFileDown_before he]
    simp only [Vdf.vdfFileDown, he.live, he.parent, he.unlocked, hl, hn, ↓reduceIte,
      Bool.false_eq_true, setDriveDirty_file, VdfDrive.modifyFile_file, hx, true_and]
    simpa using (hr.exchanged (exchange_exchanged _ _ _).symm).1

/-! ## What is left of the ring -/

/-- After a call that exchanged two entries no order of the entries is a ring. -/
theorem up_not_ring (he : ld.EntryOf p (pre ++ q :: file :: post) file) :
    ¬ (vdfFileUp ld file).2.RingOf p m := by
  have hr := he.ring
  rw [RingOf, List.map_append, List.map_cons, List.map_cons] at hr
  rw [vdfFileUp_behind he]
  exact hr.not_exchanged (exchange_exchanged _ _ _)

theorem down_not_ring (he : ld.EntryOf p (pre ++ file :: q :: post) file) :
    ¬ (vdfFileDown ld file).2.RingOf p m := by
  have hr := he.ring
  rw [RingOf, List.map_append, List.map_cons, List.map_cons] at hr
  rw [vdfFileDown_before he]
  exact hr.not_exchanged (exchange_exchanged _ _ _).symm

/-- The file is then linked to itself, so that the call back finds it as its own neighbour. -/
theorem down_up (he : ld.EntryOf p (pre ++ q :: file :: post) file) :
    (vdfFileDown (vdfFileUp ld file).2 file).2.links = (vdfFileUp ld file).2.links := by
  have hr := he.ring
  rw [RingOf, List.map_append, List.map_cons] at hr
  have hq : ld.links.next (.dirlist q) = .dirlist file := hr.next_eq
  have hn := (exchange_exchanged ld.links (.dirlist file) (.dirlist q)).next_right
  have hl : (setDriveDirty ld.drive).lockTest = false := by
    simpa [VdfDrive.lockTest, VdfDrive.isLocked] using he.unlocked
  rw [vdfFileUp_behind he]
  simp [vdfFileDown, he.live, he.parent, hl, hn, hq]

/-- `vdf_file_up` exchanges the file with the entry before it and leaves a ring; the first entry is
refused. -/
def UpMoves (ld : LinkedDrive) (p : FileId) (l : List FileId) (file : FileId) : Prop :=
  (vdfFileUp ld file).1 = (if l.head? = some file then .error .erange else .ok ()) ∧
    (vdfFileUp ld file).2.RingOf p (swapUp file l)

/-- `vdf_file_down` exchanges the file with the entry behind it and leaves a ring; the last entry is
refused. -/
def DownMoves (ld : LinkedDrive) (p : FileId) (l : List FileId) (file : FileId) : Prop :=
  (vdfFileDown ld file).1 = (if l.getLast? = some file then .error .erange else .ok ()) ∧
    (vdfFileDown ld file).2.RingOf p (swapDown file l)

/-- `vdf_file_down` takes a `vdf_file_up` that succeeded back. -/
def DownRestores (ld : LinkedDrive) (p : FileId) (l : List FileId) (file : FileId) : Prop :=
  (vdfFileUp ld file).1 = .ok () → (vdfFileDown (vdfFileUp ld file).2 file).2.RingOf p l

/-- The order is only kept by the calls that are refused. -/
theorem reorder_iff (he : ld.EntryOf p l file) :
    (ld.UpMoves p l file ↔ l.head? = some file) ∧
      (ld.DownMoves p l file ↔ l.getLast? = some file) ∧
      (ld.DownRestores p l file ↔ l.head? = some file) := by
  refine ⟨⟨fun hu => ?_, fun hf => ?_⟩, ⟨fun hu => ?_, fun hf => ?_⟩, ⟨fun hu => ?_, fun hf => ?_⟩⟩
  · refine he.first_or.resolve_right ?_
    rintro ⟨pre, q, post, rfl⟩
    exact up_not_ring he hu.2
  · obtain ⟨l', rfl⟩ := List.head?_eq_some_iff.1 hf
    rw [UpMoves, vdfFileUp_first he hf, if_pos hf,
      swapUp_of_notMem (List.nodup_cons.1 he.nodup).1]
    exact ⟨rfl, he.ring⟩
  · refine he.last_or.resolve_right ?_
    rintro ⟨pre, q, post, rfl⟩
    exact down_not_ring he hu.2
  · obtain ⟨l', rfl⟩ := List.getLast?_eq_some_iff.1 hf
    have hd := List.disjoint_of_nodup_append he.nodup
    rw [DownMoves, vdfFileDown_last he hf, if_pos hf, swapDown_of_notMem]
    · exact ⟨rfl, he.ring⟩
    · rw [List.dropLast_concat]
      exact fun hm => hd hm (List.mem_singleton_self file)
  · refine he.first_or.resolve_right ?_
    rintro ⟨pre, q, post, rfl⟩
    have hr := hu (by rw [vdfFileUp_behind he])
    rw [RingOf, down_up he] at hr
    exact up_not_ring he hr
  · intro h
    rw [vdfFileUp_first he hf] at h
    cases h

/-- The files `1, 2, …` of the root, linked to a ring. -/
def linkedRoot (files : List VdfFile) : LinkedDrive :=
  let node (i : Nat) : ListHead := if i % (files.length + 1) = 0 then .entries 0 else
    .dirlist (i % (files.length + 1))
  let place : ListHead → Nat
    | .entries _ => 0
    | .dirlist x => x
  { drive := flatDrive geometry16 none files
    links := { next := fun x => node (place x + 1), prev := fun x => node (place x + files.length) } }

/-- Of two files each is moved right at its own end of the directory only. -/
theorem reorder_ends :
    ((linkedRoot [{}, {}]).UpMoves 0 [1, 2] 1 ∧ ¬ (linkedRoot [{}, {}]).DownMoves 0 [1, 2] 1 ∧
      (linkedRoot [{}, {}]).DownRestores 0 [1, 2] 1) ∧
    ¬ (linkedRoot [{}, {}]).UpMoves 0 [1, 2] 2 ∧ (linkedRoot [{}, {}]).DownMoves 0 [1, 2] 2 ∧
      ¬ (linkedRoot [{}, {}]).DownRestores 0 [1, 2] 2 := by
  have hfirst : (linkedRoot [{}, {}]).EntryOf 0 [1, 2] 1 :=
    ⟨by decide, by decide, by decide, ⟨by decide, by decide, by decide⟩, by decide⟩
  have hlast : (linkedRoot [{}, {}]).EntryOf 0 [1, 2] 2 :=
    ⟨by decide, by decide, by decide, ⟨by decide, by decide, by decide⟩, by decide⟩
  obtain ⟨hu₁, hd₁, hr₁⟩ := reorder_iff hfirst
  obtain ⟨hu₂, hd₂, hr₂⟩ := reorder_iff hlast
  exact ⟨⟨hu₁.2 rfl, fun h => absurd (hd₁.1 h) (by decide), hr₁.2 rfl⟩,
    fun h => absurd (hu₂.1 h) (by decide), hd₂.2 rfl, fun h => absurd (hr₂.1 h) (by decide)⟩

/-- Of two files the second one is lost. -/
theorem reorder_two :
    (linkedRoot [{}, {}]).EntryOf 0 [1, 2] 2 ∧ ¬ (linkedRoot [{}, {}]).UpMoves 0 [1, 2] 2 ∧
      ¬ (linkedRoot [{}, {}]).DownMoves 0 [1, 2] 1 ∧
      ¬ (linkedRoot [{}, {}]).DownRestores 0 [1, 2] 2 := by
  have he : (linkedRoot [{}, {}]).EntryOf 0 [1, 2] 2 :=
    ⟨by decide, by decide, by decide, ⟨by decide, by decide, by decide⟩, by decide⟩
  refine ⟨he, fun h => ?_, fun h => ?_, fun h => ?_⟩
  · exact absurd h.2.forward (by decide)
  · exact absurd h.2.forward (by decide)
  · exact absurd (h (by decide)).forward (by decide)

end LinkedDrive

end Vdf
