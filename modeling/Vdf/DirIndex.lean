import Vdf.Rooted

/-!
# Entries of a directory by their index

`vdf_dir_entry` and `vdf_get_file_index` are inverse to each other exactly where the count of the
directory is the length of its list and the directory has a parent, or no entries
(`indexInverse_iff`): the root is refused, and a deletion leaves the count as it is.
-/

namespace Vdf

open Word

/-! ## The calls -/

/-- `vdf_dir_count`. -/
def vdfDirCount (d : VdfDrive) (dir : FileId) : Except Errno Int :=
  if (d.file dir).deleted ∨ !(d.file dir).isDir then .error .einval
  else .ok (d.file dir).dirCnt

/-- The loop of `vdf_dir_entry`. The index is an `int`, and goes down at each entry. -/
def dirEntryLoop : List FileId → Int → Option FileId
  | [], _ => none
  | fil :: rest, index =>
    if index = 0 then some fil else dirEntryLoop rest (toI32 (ofInt (index - 1)))

/-- `vdf_dir_entry`. -/
def vdfDirEntry (d : VdfDrive) (dir : FileId) (index : Int) : Except Errno FileId :=
  if (d.file dir).deleted ∨ !(d.file dir).isDir ∨ (d.file dir).parent = none then .error .einval
  else if (d.file dir).dirCnt ≤ index then .error .erange
  else match dirEntryLoop (d.file dir).entries index with
    | some fil => .ok fil
    | none => .error .erange

/-- `vdf_get_file_index`: the entries in front of the file, or all of them. -/
def vdfGetFileIndex (d : VdfDrive) (file : FileId) : Except Errno Int :=
  match (d.file file).deleted, (d.file file).parent with
  | true, _ | _, none => .error .einval
  | false, some dir => .ok (toI32 ((d.file dir).entries.idxOf file))

/-! ## Specification -/

/-- The two calls are inverse to each other on the entries of a directory, and there is none for any
other `int`. -/
structure IndexInverse (d : VdfDrive) (dir : FileId) : Prop where
  entry : ∀ f ∈ (d.file dir).entries, ∃ i,
    vdfGetFileIndex d f = .ok i ∧ vdfDirEntry d dir i = .ok f
  index : ∀ n, vdfDirCount d dir = .ok n → ∀ i, 0 ≤ i → i < n → ∃ f,
    vdfDirEntry d dir i = .ok f ∧ vdfGetFileIndex d f = .ok i
  other : ∀ n, vdfDirCount d dir = .ok n → ∀ i, -2 ^ 31 ≤ i → i < 2 ^ 31 → i < 0 ∨ n ≤ i →
    ∃ e, vdfDirEntry d dir i = .error e

/-! ## The loop -/

theorem dirEntryLoop_natCast (l : List FileId) {i : Nat} (hi : i < 2 ^ 31) :
    dirEntryLoop l i = l[i]? := by
  induction l generalizing i with
  | nil => rfl
  | cons f l ih =>
    cases i with
    | zero => rfl
    | succ i =>
      have hnext : ((i + 1 : Nat) : Int) - 1 = i := by omega
      rw [dirEntryLoop, if_neg (by omega), hnext, ofInt_natCast (by omega), toI32_of_lt (by omega),
        ih (by omega), List.getElem?_cons_succ]

/-- A negative index comes to 0 only after `2^31` entries, by way of `INT_MAX`. -/
theorem dirEntryLoop_negative (l : List FileId) {i : Int} (hmin : -2 ^ 31 ≤ i) (hi : i < 0)
    (hl : l.length < 2 ^ 31) : dirEntryLoop l i = none := by
  induction l generalizing i with
  | nil => rfl
  | cons f l ih =>
    rw [List.length_cons] at hl
    rw [dirEntryLoop, if_neg (by omega)]
    by_cases hwrap : i = -2 ^ 31
    · have hmax : toI32 (ofInt (i - 1)) = ((2 ^ 31 - 1 : Nat) : Int) := by
        rw [hwrap]
        decide
      rw [hmax, dirEntryLoop_natCast l (by omega), List.getElem?_eq_none (by omega)]
    · have hnext : toI32 (ofInt (i - 1)) = i - 1 := by
        unfold toI32 ofInt
        split <;> omega
      rw [hnext]
      exact ih (by omega) (by omega) (by omega)

/-! ## A directory -/

/-- The entries of a directory in use point back to it, and its count is an `int`. -/
structure ListedDir (d : VdfDrive) (dir : FileId) : Prop where
  live : (d.file dir).deleted = false
  isDir : (d.file dir).isDir = true
  entries : ∀ f ∈ (d.file dir).entries, (d.file f).parent = some dir ∧ (d.file f).deleted = false
  nodup : (d.file dir).entries.Nodup
  int : (d.file dir).dirCnt < 2 ^ 31

section Listed

variable {d : VdfDrive} {dir : FileId} (h : ListedDir d dir)

include h

theorem ListedDir.count : vdfDirCount d dir = .ok (d.file dir).dirCnt := by
  rw [vdfDirCount, if_neg (by simp [h.live, h.isDir])]

omit h in
/-- The root is refused. -/
theorem ListedDir.entry_root (hp : (d.file dir).parent = none) (i : Int) :
    vdfDirEntry d dir i = .error .einval := by
  rw [vdfDirEntry, if_pos (.inr (.inr hp))]

theorem ListedDir.entry_nat (hp : (d.file dir).parent ≠ none) {i : Nat}
    (hi : i < (d.file dir).dirCnt) : vdfDirEntry d dir i =
      match (d.file dir).entries[i]? with
      | some f => .ok f
      | none => .error .erange := by
  have := h.int
  rw [vdfDirEntry, if_neg (by simp [h.live, h.isDir, hp]), if_neg (by omega),
    dirEntryLoop_natCast _ (by omega)]

theorem ListedDir.entry_other (hlen : (d.file dir).entries.length ≤ (d.file dir).dirCnt) {i : Int}
    (hmin : -2 ^ 31 ≤ i) (hi : i < 0 ∨ ((d.file dir).dirCnt : Int) ≤ i) :
    ∃ e, vdfDirEntry d dir i = .error e := by
  have hint := h.int
  unfold vdfDirEntry
  split
  · exact ⟨_, rfl⟩
  · split
    · exact ⟨_, rfl⟩
    · rw [dirEntryLoop_negative _ hmin (by omega) (by omega)]
      exact ⟨_, rfl⟩

theorem ListedDir.index {f : FileId} (hf : f ∈ (d.file dir).entries)
    (hidx : (d.file dir).entries.idxOf f < 2 ^ 31) :
    vdfGetFileIndex d f = .ok ((d.file dir).entries.idxOf f : Nat) := by
  obtain ⟨hp, hd⟩ := h.entries f hf
  simp only [vdfGetFileIndex, hp, hd]
  rw [toI32_of_lt hidx]

/-- The entry of an index has that index. -/
theorem ListedDir.index_getElem {i : Nat} (hi : i < (d.file dir).entries.length)
    (hint : i < 2 ^ 31) : vdfGetFileIndex d ((d.file dir).entries[i]) = .ok (i : Int) := by
  have hidx := List.Nodup.idxOf_getElem h.nodup i hi
  rw [h.index (List.getElem_mem hi) (by rwa [hidx]), hidx]

/-- The condition is enough. -/
theorem ListedDir.inverse (hcnt : (d.file dir).dirCnt = (d.file dir).entries.length)
    (hroot : (d.file dir).parent ≠ none ∨ (d.file dir).entries = []) : IndexInverse d dir := by
  have hint := h.int
  have hcount := h.count
  refine ⟨fun f hf => ?_, fun n hn i h0 hi => ?_, fun n hn i hmin hmax hi => ?_⟩
  · have hp := hroot.resolve_right fun e => by simp [e] at hf
    have hlt := List.idxOf_lt_length_of_mem hf
    refine ⟨_, h.index hf (by omega), ?_⟩
    rw [h.entry_nat hp (by omega), List.getElem?_eq_getElem hlt, List.getElem_idxOf hlt]
  · obtain rfl := Except.ok.inj (hcount.symm.trans hn)
    obtain ⟨i, rfl⟩ := Int.eq_ofNat_of_zero_le h0
    have hlt : i < (d.file dir).entries.length := by omega
    have hp := hroot.resolve_right fun e => by simp [e] at hlt
    refine ⟨(d.file dir).entries[i], ?_, h.index_getElem hlt (by omega)⟩
    rw [h.entry_nat hp (by omega), List.getElem?_eq_getElem hlt]
  · obtain rfl := Except.ok.inj (hcount.symm.trans hn)
    exact h.entry_other (by omega) hmin hi

/-- It is needed: a count that is too large counts an index that has no entry, and one that is too
small an entry less. -/
theorem IndexInverse.only (hi : IndexInverse d dir) :
    (d.file dir).dirCnt = (d.file dir).entries.length ∧
      ((d.file dir).parent ≠ none ∨ (d.file dir).entries = []) := by
  have hint := h.int
  by_cases hp : (d.file dir).parent = none
  · have hent : (d.file dir).entries = [] := by
      refine List.eq_nil_iff_forall_not_mem.mpr fun f hf => ?_
      obtain ⟨i, -, hrun⟩ := hi.entry f hf
      cases hrun.symm.trans (ListedDir.entry_root hp i)
    refine ⟨?_, .inr hent⟩
    by_contra hne
    rw [hent, List.length_nil] at hne
    obtain ⟨f, hrun, -⟩ := hi.index _ h.count 0 (Int.le_refl 0) (by omega)
    cases hrun.symm.trans (ListedDir.entry_root hp 0)
  · refine ⟨?_, .inl hp⟩
    rcases Nat.lt_trichotomy (d.file dir).dirCnt (d.file dir).entries.length with hlt | heq | hgt
    · obtain ⟨i, hidx, hrun⟩ := hi.entry _ (List.getElem_mem hlt)
      obtain rfl := Except.ok.inj ((h.index_getElem hlt hint).symm.trans hidx)
      rw [vdfDirEntry, if_neg (by simp [h.live, h.isDir, hp]), if_pos (Int.le_refl _)] at hrun
      cases hrun
    · exact heq
    · obtain ⟨f, hrun, -⟩ := hi.index _ h.count ((d.file dir).entries.length : Nat) (by omega) (by omega)
      rw [h.entry_nat hp hgt, List.getElem?_eq_none (Nat.le_refl _)] at hrun
      cases hrun

end Listed

/-! ## Directories of a run -/

section Runs

variable {qsort : List FileRange → List FileRange} {w : World} {dir : FileId}

theorem VdfFile.live_of_isDir {fil : VdfFile} (h : fil.isDir = true) : fil.deleted = false := by
  unfold VdfFile.isDir at h
  simpa using (Bool.and_eq_true_iff.mp h).1

theorem Linked.listedDir (h : Linked w) (hd : (w.drive.file dir).isDir = true)
    (hint : (w.drive.file dir).dirCnt < 2 ^ 31) : ListedDir w.drive dir where
  live := VdfFile.live_of_isDir hd
  isDir := hd
  entries f hf := ⟨h.child_of_mem f dir hf, h.child_live f dir (h.child_of_mem f dir hf)⟩
  nodup := h.nodup_entries dir
  int := hint

/-- The root is the directory without a parent. -/
theorem Linked.parent_ne_none (h : Linked w) (hdir : dir ∈ w.dirs)
    (hd : (w.drive.file dir).isDir = true) :
    (w.drive.file dir).parent ≠ none ↔ dir ≠ w.drive.rootDir := by
  constructor
  · rintro hp rfl
    exact hp h.root_parent
  · exact h.orphan dir (h.dirs_mem dir hdir) (VdfFile.live_of_isDir hd)

/-- In every state that calls lead to, the index of an entry and the entry of an index are inverse in a
directory iff its count is the number of its entries and it is not the root, or has none. In every run
that deletes no file, in which no creation fails behind its checks and no directory is moved below
itself, every other directory than the root is so. -/
theorem indexInverse_iff :
    (∀ w dir, Reachable qsort w → dir ∈ w.dirs → (w.drive.file dir).isDir = true →
      (w.drive.file dir).dirCnt < 2 ^ 31 →
      (IndexInverse w.drive dir ↔ (w.drive.file dir).dirCnt = (w.drive.file dir).entries.length ∧
        (dir ≠ w.drive.rootDir ∨ (w.drive.file dir).entries = []))) ∧
    ∀ size flags ext junk w₀ w dir, World.create size flags ext junk = some w₀ →
      Run qsort KeepsCounters w₀ w → dir ∈ w.dirs → (w.drive.file dir).isDir = true →
      (w.drive.file dir).dirCnt < 2 ^ 31 →
      (IndexInverse w.drive dir ↔
        dir ≠ w.drive.rootDir ∨ (w.drive.file dir).entries = []) := by
  have hstate : ∀ w dir, Linked w → dir ∈ w.dirs → (w.drive.file dir).isDir = true →
      (w.drive.file dir).dirCnt < 2 ^ 31 →
      (IndexInverse w.drive dir ↔ (w.drive.file dir).dirCnt = (w.drive.file dir).entries.length ∧
        (dir ≠ w.drive.rootDir ∨ (w.drive.file dir).entries = [])) := by
    intro w dir hl hdir hd hint
    have hlist := hl.listedDir hd hint
    rw [← hl.parent_ne_none hdir hd]
    exact ⟨fun h => h.only hlist, fun h => hlist.inverse h.1 h.2⟩
  refine ⟨fun w dir h => hstate w dir h.linked, ?_⟩
  intro size flags ext junk w₀ w dir hcreate run hdir hd hint
  have h := run.induct (P := fun w => Rooted w ∧ Counted w)
    ⟨rooted_create hcreate, counted_create hcreate⟩ fun hok h hs =>
      ⟨h.1.step hok.1 hs, h.2.step h.1 hok hs⟩
  have hcnt := h.2.dirCnt dir (h.1.linked.dirs_mem dir hdir)
  rw [hstate w dir h.1.linked hdir hd hint, and_iff_right hcnt]

/-- A second file in the directory. -/
def sampleSecond : Call := .addFileVirt 1 [0x43] 0 (some 3) true 0

/-- A file was moved to the directory, and one was added there. -/
theorem indexInverse_sample :
    ∃ w, sampleRun [sampleDir, sampleFile, .moveFile 2 1, sampleSecond] = some w ∧
      (w.drive.file 1).entries = [2, 3] ∧ IndexInverse w.drive 1 := by
  obtain ⟨w₀, w₂, hcreate, run, h₂⟩ := sample_run (k := KeepsCounters)
    (fun _ => ⟨trivial, not_createFailsLate rfl (by decide), nofun⟩)
    fun _ => ⟨trivial, not_createFailsLate rfl (by decide), nofun⟩
  obtain ⟨w₃, h₃, -⟩ := sampleRun_exists (l := [sampleDir, sampleFile, .moveFile 2 1])
    (P := fun _ => True) (by decide)
  obtain ⟨w, h, hroot, hdir, hd, hint, hent⟩ := sampleRun_exists
    (l := [sampleDir, sampleFile, .moveFile 2 1, sampleSecond])
    (P := fun w => w.drive.rootDir = 0 ∧ 1 ∈ w.dirs ∧ (w.drive.file 1).isDir = true ∧
      (w.drive.file 1).dirCnt < 2 ^ 31 ∧ (w.drive.file 1).entries = [2, 3]) (by decide)
  have hsecond : KeepsCounters w₃ sampleSecond :=
    ⟨trivial, not_createFailsLate rfl (by decide), by simp [sampleSecond]⟩
  have run := (run.stepTo ⟨sample_keepsTree h₂, not_createFailsLate rfl (by decide), nofun⟩
    (sampleRun_concat h₂ h₃)).stepTo hsecond (sampleRun_concat h₃ h)
  exact ⟨w, h, hent, ((@indexInverse_iff id).2 _ _ _ _ w₀ w 1 hcreate run hdir hd hint).mpr
    (.inl (by rw [hroot]; decide))⟩

/-- The entries of the root have an index, but the root is refused. -/
theorem not_indexInverse_root : ¬ ∀ size flags ext junk w₀ w dir,
    World.create size flags ext junk = some w₀ → Run id KeepsTree w₀ w → dir ∈ w.dirs →
    (w.drive.file dir).isDir = true → (w.drive.file dir).dirCnt < 2 ^ 31 →
    IndexInverse w.drive dir := by
  intro hall
  obtain ⟨w₀, w, hcreate, run, h⟩ := sample_run (k := KeepsTree) (fun _ => trivial) fun _ => trivial
  obtain ⟨w', h', hdir, hd, hint, hent, hp⟩ := sampleRun_exists (l := [sampleDir, sampleFile])
    (P := fun w => 0 ∈ w.dirs ∧ (w.drive.file 0).isDir = true ∧ (w.drive.file 0).dirCnt < 2 ^ 31 ∧
      1 ∈ (w.drive.file 0).entries ∧ (w.drive.file 0).parent = none) (by decide)
  obtain rfl := Option.some.inj (h.symm.trans h')
  obtain ⟨i, -, hrun⟩ := (hall _ _ _ _ w₀ w 0 hcreate run hdir hd hint).entry 1 hent
  cases hrun.symm.trans (ListedDir.entry_root hp i)

end Runs

end Vdf
