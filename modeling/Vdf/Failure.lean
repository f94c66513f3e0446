import Vdf.Rooted

/-!
# Calls that fail

A call that fails should leave the tree as it was. The checks come first in every call, but four of
them write before their last one: `create_file` has raised the counters, `vdf_move_file` has moved
the file and `vdf_set_drive_label` has freed the label when they fail, and `vdf_set_file_name` does
not look at what `calc_shortname` returns.
-/

namespace Vdf

open Word

/-- The names, the links and the counters of `d'` are those of `d`, `new` apart: a structure that
was no file before the call and is none behind it. -/
structure SameTree (d d' : VdfDrive) (new : Option FileId) : Prop where
  file : ∀ x, new ≠ some x → (d'.file x).name = (d.file x).name ∧
    (d'.file x).shortname = (d.file x).shortname ∧ (d'.file x).longname = (d.file x).longname ∧
    (d'.file x).parent = (d.file x).parent ∧ (d'.file x).entries = (d.file x).entries ∧
    (d'.file x).dirCnt = (d.file x).dirCnt ∧ (d'.file x).deleted = (d.file x).deleted
  new : ∀ x ∈ new, x ∉ d'.allFiles ∧ ∀ p, x ∉ (d'.file p).entries
  rootDir : d'.rootDir = d.rootDir
  allFiles : d'.allFiles = d.allFiles
  fileCnt : d'.fileCnt = d.fileCnt
  label : d'.label = d.label

namespace Call

/-- The calls that are meant to fail without a trace. -/
def transactional : Call → Bool
  | addDir .. | addFileReal .. | addFileVirt .. | moveFile .. | setFileName .. | setDriveLabel .. =>
    true
  | _ => false

end Call

/-- The checks of `vdf_set_file_name` let `f` be renamed, and `strdup` succeeds. -/
def RenameAccepted (d : VdfDrive) (f p : FileId) (name : List UInt8) (dup : Bool) : Prop :=
  (d.file f).deleted = false ∧ (d.file f).parent = some p ∧ d.lockTest = false ∧
    filenameValid name = true ∧ findFileSkip d p name vffLongonly (some f) = none ∧ dup = true

/-- The call passes its checks, and what it needs after its first write is not there: memory for the
name or the label, or a free number for the short name. -/
def FailsLate (d : VdfDrive) (c : Call) : Prop :=
  match c with
  | .moveFile f np => MoveAccepted d f np ∧ NumbersTaken d np f (d.file f).name
  | .setFileName f name dup => ∃ p, RenameAccepted d f p name dup ∧ NumbersTaken d p f name
  | .setDriveLabel label dup =>
    d.isValid = true ∧ d.isLocked = false ∧ label ≠ none ∧ dup = false ∧ d.label ≠ none
  | c => CreateFailsLate d c

/-- The call leaves no trace when it fails, and when a rename succeeds the file has the short name
that was found. -/
def FailsCleanly (d d' : VdfDrive) (c : Call) (r : Except Errno Unit) : Prop :=
  (∀ e, r = .error e → SameTree d d' c.alloc) ∧
    ∀ f name dup, c = .setFileName f name dup → r = .ok () →
      ∃ p, (d.file f).parent = some p ∧ shortnameOf (takenIn d p f) name =
        some ((d'.file f).shortname, (d'.file f).longname)

section Late

variable {d d' : VdfDrive} {p f : FileId} {name : List UInt8} {c : Call}

theorem SameTree.refl {new : Option FileId} (h : ∀ f ∈ new, d.Fresh f) : SameTree d d new where
  file _ _ := ⟨rfl, rfl, rfl, rfl, rfl, rfl, rfl⟩
  new f hf := ⟨(h f hf).not_mem, (h f hf).not_entry⟩
  rootDir := rfl
  allFiles := rfl
  fileCnt := rfl
  label := rfl

/-- `create_file` with a failure behind its checks. -/
theorem createFile_late (hf : d.Fresh f) (hne : f ≠ p) {dup : Bool}
    (hcheck : createCheck d p name = none) (late : dup = false ∨ NumbersTaken d p f name) :
    ∃ e fil, createFile d p name (some f) dup = (.error e, dropFile d p f fil) := by
  have hcases := createFile_cases hne hf name dup
  rw [hcheck] at hcases
  cases dup with
  | false => exact ⟨_, _, hcases⟩
  | true =>
    rw [shortnameOf_eq_none.2 (late.resolve_left nofun)] at hcases
    exact ⟨_, _, hcases⟩

/-- What the three calls do then. -/
theorem apply_createFailsLate {qsort : List FileRange → List FileRange} {fuel : Nat}
    (hf : ∀ f ∈ c.alloc, d.Fresh f ∧ f ∉ c.files) (h : CreateFailsLate d c) :
    ∃ e p f fil, c.apply qsort fuel d = some (.error e, dropFile d p f fil) := by
  obtain ⟨p, name, f, hc, ha, hcheck, late⟩ := h
  obtain ⟨hfresh, hmem⟩ := hf f ha
  have hp : p ∈ c.files := by
    cases c <;> simp only [Call.creates, reduceCtorEq] at hc
    case addDir | addFileVirt => cases hc; exact List.mem_singleton.2 rfl
    case addFileReal =>
      split_ifs at hc
      cases hc
      exact List.mem_singleton.2 rfl
  obtain ⟨e, fil, he⟩ := createFile_late hfresh (fun h => hmem (h ▸ hp)) hcheck late
  exact ⟨e, p, f, fil, apply_createFile_error hc (ha ▸ he)⟩

/-- A call that fails late leaves a trace, or reports a short name that is not there. -/
theorem not_failsCleanly {qsort : List FileRange → List FileRange} {fuel : Nat}
    {r : Except Errno Unit} (hf : ∀ f ∈ c.alloc, d.Fresh f ∧ f ∉ c.files) (h : FailsLate d c)
    (ha : c.apply qsort fuel d = some (r, d')) : ¬ FailsCleanly d d' c r := by
  rintro ⟨herr, hok⟩
  have hcreate (h : CreateFailsLate d c) : False := by
    obtain ⟨e, p, f, fil, he⟩ := @apply_createFailsLate _ _ qsort fuel hf h
    rw [he] at ha
    cases ha
    have := (herr e rfl).fileCnt
    simp [dropFile] at this
  cases c with
  | moveFile f np =>
    obtain ⟨⟨hcheck, hne, hfind⟩, hnum⟩ := h
    obtain ⟨p, hp⟩ := Option.ne_none_iff_exists'.1 (moveCheck_eq_none.1 hcheck).2.1
    have hpn : p ≠ np := fun e => hne (hp.trans (congrArg some e))
    rw [Call.apply, vdfMoveFile_accepted hcheck hp hpn hfind, shortnameOf_eq_none.2 hnum] at ha
    cases ha
    have hparent := ((herr _ rfl).file f (by simp [Call.alloc])).2.2.2.1
    simp only [relinkFile_eq d hpn, relist_file, ↓reduceIte, hp, Option.some.injEq] at hparent
    exact hpn hparent.symm
  | setFileName f name dup =>
    obtain ⟨p, ⟨hd, hp, hl, hv, hfind, rfl⟩, hnum⟩ := h
    rw [Call.apply, vdfSetFileName_accepted hd hp hl hv hfind] at ha
    cases ha
    obtain ⟨q, hq, hs⟩ := hok f name true rfl rfl
    obtain rfl := Option.some.inj (hp.symm.trans hq)
    rw [shortnameOf_eq_none.2 hnum] at hs
    cases hs
  | setDriveLabel label dup =>
    obtain ⟨hv, hl, hlabel, rfl, hold⟩ := h
    simp only [Call.apply, vdfSetDriveLabel, hv, hl, hlabel, Bool.not_true, Bool.not_false, ne_eq,
      not_false_eq_true, true_and, Bool.false_eq_true, ↓reduceIte] at ha
    cases ha
    exact hold (herr _ rfl).label.symm
  | _ => exact hcreate h

/-- Any other call fails cleanly. -/
theorem failsCleanly_of_does {qsort : List FileRange → List FileRange} {r : Except Errno Unit}
    (hc : c.transactional = true) (hf : ∀ f ∈ c.alloc, d.Fresh f) (hnot : ¬ FailsLate d c)
    (h : Does qsort d c r d') : FailsCleanly d d' c r := by
  cases h with
  | refused => exact ⟨fun _ _ => .refl hf, nofun⟩
  | createFailed hcr ha hcheck hent late =>
    refine absurd ?_ hnot
    have hlate : CreateFailsLate d c :=
      ⟨_, _, _, hcr, ha, hcheck, late.imp_right shortnameOf_eq_none.1⟩
    cases c <;> first | exact hlate | cases hcr
  | created hcr =>
    refine ⟨nofun, ?_⟩
    rintro f name dup rfl
    cases hcr
  | stays | moved => exact ⟨nofun, nofun⟩
  | moveFailed hcheck hp hne hfind hs =>
    exact absurd ⟨⟨hcheck, by simpa [hp] using hne, hfind⟩, shortnameOf_eq_none.1 hs⟩ hnot
  | renamed hd hp hl hv hdup hfind hs =>
    refine ⟨nofun, fun f name dup e _ => ?_⟩
    cases e
    exact ⟨_, hp, by simpa using hs⟩
  | renameFailed hd hp hl hv hdup hfind hs =>
    exact absurd ⟨_, ⟨hd, hp, hl, hv, hfind, hdup⟩, shortnameOf_eq_none.1 hs⟩ hnot
  | labelled => exact ⟨nofun, nofun⟩
  | @labelLost label hv hl =>
    have hold : d.label = none := by
      by_contra hold
      exact hnot ⟨hv, hl, nofun, rfl, hold⟩
    exact ⟨fun _ _ => ⟨fun _ _ => ⟨rfl, rfl, rfl, rfl, rfl, rfl, rfl⟩, nofun, rfl, rfl, rfl, hold.symm⟩,
      nofun⟩
  | layoutFailed hcall => rcases hcall with rfl | rfl <;> cases hc
  | deleted | up | down | shortRenamed | sized | fatSized | dated | attrSet | serialSet | clean
    | laidOut | locked | laidOutLocked | unlocked | recreated => cases hc

end Late

section Runs

variable {qsort : List FileRange → List FileRange} {w w' : World} {c : Call} {r : Except Errno Unit}

/-- In every state that calls lead to, a call leaves no trace when it fails, and assigns a short name
when a rename succeeds, if and only if nothing is missing behind its checks. -/
theorem failsCleanly_iff (hreach : Reachable qsort w) (hc : c.transactional = true)
    (hs : w.Step qsort c r w') : FailsCleanly w.drive w'.drive c r ↔ ¬ FailsLate w.drive c := by
  have hl := hreach.linked
  have hf : ∀ f ∈ c.alloc, w.drive.Fresh f ∧ f ∉ c.files := fun f hf =>
    ⟨hl.fresh (hs.alloc f hf), fun hmem => hs.alloc f hf (hs.files f hmem)⟩
  constructor
  · intro h hlate
    obtain ⟨fuel, d', -, ha, rfl⟩ := hs.apply
    rw [World.after_drive] at h
    exact not_failsCleanly hf hlate ha h
  · exact fun hnot => failsCleanly_of_does hc (fun f h => (hf f h).1) hnot (hl.does hs).1

/-- `strdup` has no memory for the name of the file, which is counted all the same. -/
theorem addFileVirt_enomem_counts :
    ∃ w w', sampleRun [sampleDir] = some w ∧
      w.Step id (.addFileVirt 0 [0x42] 0 (some 2) false 0) (.error .enomem) w' ∧
      w'.drive.fileCnt = w.drive.fileCnt + 1 ∧
      ¬ FailsCleanly w.drive w'.drive (.addFileVirt 0 [0x42] 0 (some 2) false 0)
        (.error .enomem) := by
  obtain ⟨w, r, w', h, hs, rfl, hcnt⟩ := sampleStep_exists (l := [sampleDir])
    (c := .addFileVirt 0 [0x42] 0 (some 2) false 0) (P := fun w r w' => r = .error .enomem ∧
      w'.drive.fileCnt = w.drive.fileCnt + 1) (by decide)
  refine ⟨w, w', h, hs, hcnt, fun hclean => ?_⟩
  have := (hclean.1 _ rfl).fileCnt
  omega

/-- Without memory for the structure nothing is done yet. -/
theorem addFileVirt_enomem_clean :
    ∃ w w', sampleRun [sampleDir] = some w ∧
      w.Step id (.addFileVirt 0 [0x42] 0 none true 0) (.error .enomem) w' ∧
      FailsCleanly w.drive w'.drive (.addFileVirt 0 [0x42] 0 none true 0) (.error .enomem) := by
  obtain ⟨w, r, w', h, hs, rfl⟩ := sampleStep_exists (l := [sampleDir])
    (c := .addFileVirt 0 [0x42] 0 none true 0) (P := fun _ r _ => r = .error .enomem) (by decide)
  exact ⟨w, w', h, hs, (failsCleanly_iff (sampleRun_reachable h) rfl hs).2
    (not_createFailsLate rfl (by decide))⟩

end Runs

end Vdf
