import Vdf.Failure

/-!
# Short names

`calc_shortname` looks for its short name in the directory only when the base fills eight characters.
The entries of a directory have different short names as long as the names that it takes unseen
are free (`KeepsDistinct`). A clear `VFF_LONGNAME` says that both names are the same as long as the
calls that change one of them do not meet it (`KeepsLongname`).
-/

namespace Vdf

open Word

/-! ## Names without case -/

theorem tolower_toupper (c : UInt8) : tolower (toupper c) = tolower c := by
  unfold tolower toupper
  split_ifs <;> grind

theorem sameName_iff {a b : List UInt8} : sameName a b = true ↔ a.map tolower = b.map tolower := by
  simp [sameName]

theorem sameName_comm (a b : List UInt8) : sameName a b = sameName b a := by
  rw [Bool.eq_iff_iff, sameName_iff, sameName_iff, eq_comm]

theorem sameName_refl (a : List UInt8) : sameName a a = true := sameName_iff.2 rfl

theorem sameName_toupper (a b : List UInt8) : sameName (a.map toupper) b = sameName a b := by
  rw [Bool.eq_iff_iff, sameName_iff, sameName_iff, List.map_map]
  simp only [Function.comp_def, tolower_toupper]

/-! ## Distinct names -/

/-- No two entries of a directory have the same name. -/
def DistinctBy (key : VdfFile → List UInt8) (d : VdfDrive) : Prop :=
  ∀ p, ∀ x ∈ (d.file p).entries, ∀ y ∈ (d.file p).entries, x ≠ y →
    sameName (key (d.file x)) (key (d.file y)) = false

section DistinctBy

variable {key : VdfFile → List UInt8} {d d' : VdfDrive} {dir f : FileId}

/-- One file gets a name in a directory. -/
theorem DistinctBy.change_iff (h : DistinctBy key d)
    (hmem : ∀ p, f ∈ (d'.file p).entries ↔ p = dir)
    (hent : ∀ p x, x ≠ f → (x ∈ (d'.file p).entries ↔ x ∈ (d.file p).entries))
    (hkey : ∀ x, x ≠ f → key (d'.file x) = key (d.file x)) :
    DistinctBy key d' ↔ ∀ x ∈ (d.file dir).entries, x ≠ f →
      sameName (key (d'.file f)) (key (d.file x)) = false := by
  constructor
  · intro h' x hx hne
    have := h' dir f ((hmem dir).2 rfl) x ((hent dir x hne).2 hx) hne.symm
    rwa [hkey x hne] at this
  · intro hfree p x hx y hy hne
    by_cases hxf : x = f
    · subst hxf
      obtain rfl := (hmem p).1 hx
      rw [hkey y hne.symm]
      exact hfree y ((hent p y hne.symm).1 hy) hne.symm
    · by_cases hyf : y = f
      · subst hyf
        obtain rfl := (hmem p).1 hy
        rw [sameName_comm, hkey x hne]
        exact hfree x ((hent p x hne).1 hx) hne
      · rw [hkey x hxf, hkey y hyf]
        exact h p x ((hent p x hxf).1 hx) y ((hent p y hyf).1 hy) hne

/-- The entries and their names stay, or entries are lost. -/
theorem DistinctBy.frame (h : DistinctBy key d)
    (hent : ∀ p x, x ∈ (d'.file p).entries → x ∈ (d.file p).entries)
    (hkey : ∀ p x, x ∈ (d'.file p).entries → key (d'.file x) = key (d.file x)) :
    DistinctBy key d' := by
  intro p x hx y hy hne
  rw [hkey p x hx, hkey p y hy]
  exact h p x (hent p x hx) y (hent p y hy) hne

end DistinctBy

/-! ## Distinct short names -/

/-- No two entries of a directory have the same short name. -/
def ShortnamesDistinct (d : VdfDrive) : Prop :=
  ∀ p, ∀ x ∈ (d.file p).entries, ∀ y ∈ (d.file p).entries, x ≠ y →
    sameName (d.file x).shortname (d.file y).shortname = false

/-- The short name that `calc_shortname` takes without a search is free: the name itself where it is
one, or one with a base of less than eight characters. -/
def UnsearchedFree (d : VdfDrive) (dir f : FileId) (name : List UInt8) : Prop :=
  dosBase name ++ dosExt name = name ∨ (dosBase name).length < 8 →
    takenIn d dir f (dosBase name ++ dosExt name) = false

/-- The calls that give a file a name or a directory. -/
def Call.names : Call → Bool
  | addDir .. | addFileReal .. | addFileVirt .. | moveFile .. | setFileName .. | setFileShortname .. =>
    true
  | _ => false

/-- A file that is created, renamed or moved finds its short name free, and a move finds one. Entries
are not reordered. -/
def KeepsDistinct (d : VdfDrive) (c : Call) : Prop :=
  match c with
  | .fileUp _ | .fileDown _ => False
  | .moveFile f np => MoveAccepted d f np →
    UnsearchedFree d np f (d.file f).name ∧ ¬ NumbersTaken d np f (d.file f).name
  | .setFileName f name dup => ∀ p, RenameAccepted d f p name dup → UnsearchedFree d p f name
  | c => ∀ p name f, c.creates = some (p, name) → c.alloc = some f →
    createCheck d p name = none → UnsearchedFree d p f name

section Distinct

variable {d d' : VdfDrive} {dir f : FileId} {name s : List UInt8} {l : Bool}

/-- The short name of an unsearched name, and of a searched one. -/
theorem shortnameOf_cases {taken : List UInt8 → Bool} (h : shortnameOf taken name = some (s, l)) :
    (dosBase name ++ dosExt name = name ∨ (dosBase name).length < 8) ∧
        s = dosBase name ++ dosExt name ∧ (l = false → s = name) ∨
      ¬ (dosBase name ++ dosExt name = name ∨ (dosBase name).length < 8) ∧ taken s = false ∧
        l = true := by
  simp only [shortnameOf] at h
  split_ifs at h with h1 h2
  · cases h
    exact .inl ⟨.inl h1, rfl, fun _ => h1⟩
  · obtain ⟨ind, hfind, he⟩ := Option.map_eq_some_iff.1 h
    cases he
    exact .inr ⟨by simpa [h1] using h2, by simpa using List.find?_some hfind, rfl⟩
  · cases h
    exact .inl ⟨.inr (by omega), rfl, by simp⟩

/-- A short name that was found is free if and only if an unsearched one is. -/
theorem takenIn_shortnameOf (h : shortnameOf (takenIn d dir f) name = some (s, l)) :
    takenIn d dir f s = false ↔ UnsearchedFree d dir f name := by
  rcases shortnameOf_cases h with ⟨hun, rfl, -⟩ | ⟨hun, hfree, -⟩
  · exact ⟨fun h _ => h, fun h => h hun⟩
  · exact ⟨fun _ h => absurd h hun, fun _ => hfree⟩

theorem takenIn_eq_false : takenIn d dir f s = false ↔
    ∀ x ∈ (d.file dir).entries, x ≠ f → sameName s (d.file x).shortname = false := by
  simp [takenIn]

/-- One file gets a short name in a directory. -/
theorem ShortnamesDistinct.change_iff (h : ShortnamesDistinct d)
    (hmem : ∀ p, f ∈ (d'.file p).entries ↔ p = dir)
    (hent : ∀ p x, x ≠ f → (x ∈ (d'.file p).entries ↔ x ∈ (d.file p).entries))
    (hshort : ∀ x, x ≠ f → (d'.file x).shortname = (d.file x).shortname) :
    ShortnamesDistinct d' ↔ takenIn d dir f (d'.file f).shortname = false := by
  rw [takenIn_eq_false]
  exact DistinctBy.change_iff h hmem hent hshort

/-- The entries and the short names stay, or entries are lost. -/
theorem ShortnamesDistinct.frame (h : ShortnamesDistinct d)
    (hent : ∀ p x, x ∈ (d'.file p).entries → x ∈ (d.file p).entries)
    (hshort : ∀ p x, x ∈ (d'.file p).entries → (d'.file x).shortname = (d.file x).shortname) :
    ShortnamesDistinct d' :=
  DistinctBy.frame h hent hshort

theorem ShortnamesDistinct.edit (h : ShortnamesDistinct d) {g : VdfFile → VdfFile}
    (hg : ∀ a, (g a).entries = a.entries ∧ (g a).shortname = a.shortname) :
    ShortnamesDistinct (setDriveDirty (d.modifyFile f g)) := by
  refine h.frame (fun p x hx => ?_) fun _ x _ => edit_file VdfFile.shortname fun a => (hg a).2
  rwa [edit_file VdfFile.entries fun a => (hg a).1] at hx

theorem ShortnamesDistinct.relaid (h : ShortnamesDistinct d) (hr : Relaid d d') :
    ShortnamesDistinct d' :=
  h.frame (fun p _ hx => hr.entries p ▸ hx) fun _ x _ => hr.shortname x

/-- The search of `vdf_set_file_shortname` covers the short names. -/
theorem shortname_ne_of_findFileSkip (h : findFileSkip d dir name 0 (some f) = none) {x : FileId}
    (hx : x ∈ (d.file dir).entries) (hne : x ≠ f) :
    sameName name (d.file x).shortname = false := by
  have h := List.find?_eq_none.1 h x hx
  have hflag : hasFlag 0 vffShortonly = false ∧ hasFlag 0 vffLongonly = false := by decide
  simp only [nameMatches, hflag, Bool.not_false, Bool.true_and, Bool.and_eq_true, bne_iff_ne, ne_eq,
    Option.some.injEq, hne, not_false_eq_true, true_and, Bool.or_eq_true, not_or,
    Bool.not_eq_true] at h
  exact h.2

/-- One file with a new place. -/
theorem ShortnamesDistinct.relinked_iff (h : ShortnamesDistinct d) {d₁ : VdfDrive}
    (hr : Relinked d d₁ f (some dir)) (d' : VdfDrive) (hent : ∀ p, (d'.file p).entries = (d₁.file p).entries)
    (hshort : ∀ x, x ≠ f → (d'.file x).shortname = (d.file x).shortname) :
    ShortnamesDistinct d' ↔ takenIn d dir f (d'.file f).shortname = false := by
  refine h.change_iff (fun p => ?_) (fun p x hne => ?_) hshort
  · simp [hent, hr.entries, eq_comm]
  · simp [hent, hr.entries, hne]

end Distinct

section Steps

variable {f : FileId} {qsort : List FileRange → List FileRange} {w w' : World} {c : Call} {r : Except Errno Unit}

/-- One file with a new name. -/
theorem ShortnamesDistinct.renamed_iff (h : ShortnamesDistinct w.drive) (hl : Linked w)
    (hb : w.broken = []) {p : FileId} (hp : (w.drive.file f).parent = some p)
    {g : VdfFile → VdfFile} (hg : ∀ a, (g a).entries = a.entries) :
    ShortnamesDistinct (setDriveDirty (w.drive.modifyFile f g)) ↔
      takenIn w.drive p f (g (w.drive.file f)).shortname = false := by
  have hent : ∀ q, ((setDriveDirty (w.drive.modifyFile f g)).file q).entries =
      (w.drive.file q).entries := fun q => edit_file VdfFile.entries hg
  have hself : (setDriveDirty (w.drive.modifyFile f g)).file f = g (w.drive.file f) := by simp
  rw [← hself]
  refine h.change_iff (fun q => ?_) (fun q x _ => by rw [hent]) fun x hne => ?_
  · rw [hent]
    refine ⟨fun hf => Option.some.inj ((hl.child_of_mem f q hf).symm.trans hp), fun e => ?_⟩
    subst e
    exact hl.mem_of_child f q hp (by simp [hb])
  · rw [setDriveDirty_file, VdfDrive.modifyFile_ne _ _ hne]

theorem keepsDistinct_create {d : VdfDrive} {p : FileId} {name : List UInt8}
    (hc : c.creates = some (p, name)) (ha : c.alloc = some f)
    (hcheck : createCheck d p name = none) :
    c.names = true ∧ (KeepsDistinct d c ↔ UnsearchedFree d p f name) := by
  have himp : UnsearchedFree d p f name → ∀ p' name' f', c.creates = some (p', name') →
      c.alloc = some f' → createCheck d p' name' = none → UnsearchedFree d p' f' name' := by
    intro h p' name' f' hc' ha' _
    cases hc.symm.trans hc'
    cases ha.symm.trans ha'
    exact h
  cases c with
  | addDir | addFileReal | addFileVirt => exact ⟨rfl, fun h => h p name f hc ha hcheck, himp⟩
  | _ => cases hc

/-- A call that gives a name and succeeds keeps the short names distinct under the condition only. -/
theorem ShortnamesDistinct.named_iff (h : ShortnamesDistinct w.drive) (hl : Linked w)
    (hb : w.broken = []) (hn : c.names = true) (hs : w.Step qsort c (.ok ()) w') :
    ShortnamesDistinct w'.drive ↔ KeepsDistinct w.drive c := by
  obtain ⟨hdoes, -, fuel, hu⟩ := hl.does hs
  generalize w'.drive = d' at hdoes
  cases hdoes with
  | created hc ha hcheck hshort =>
    rename_i p name f s l
    rw [(keepsDistinct_create hc ha hcheck).2, ← takenIn_shortnameOf hshort]
    have hf := hs.alloc f ha
    have hp := Linked.undef_create hc hu hcheck
    have hpf : p ≠ f := fun e => hf (e ▸ hl.dirs_mem p hp)
    have hr := hl.addFile_relinked hf hp (c.newFile_parent w.drive.bpc p name s l)
      (c.newFile_entries w.drive.bpc p name s l) (c.newFile_deleted w.drive.bpc p name s l)
    have hiff := h.relinked_iff hr _ (fun _ => rfl) fun x hne => by
      simp only [addFile, relist_file, hne, ↓reduceIte]
      split <;> rfl
    simpa [addFile] using hiff
  | stays hcheck hp => exact iff_of_true h fun hacc => absurd hp hacc.2.1
  | moved hcheck hp hne hfind hshort =>
    rename_i f p np s l
    have hacc : MoveAccepted w.drive f np := ⟨hcheck, by simpa [hp] using hne, hfind⟩
    have hnum : ¬ NumbersTaken w.drive np f (w.drive.file f).name := fun hnum => by
      cases hshort.symm.trans (shortnameOf_eq_none.2 hnum)
    have hr := hl.relinkFile_relinked (moveCheck_eq_none.1 hcheck).1 hp hne
    have hiff := h.relinked_iff hr ((relinkFile w.drive f p np).modifyFile f fun x =>
        { x with shortname := s, longname := l }) (fun q => ?_) fun x hx => ?_
    · rw [hiff, VdfDrive.modifyFile_self, takenIn_shortnameOf hshort]
      exact ⟨fun h _ => ⟨h, hnum⟩, fun h => (h hacc).1⟩
    · rw [VdfDrive.modifyFile_file]
      split <;> rfl
    · rw [VdfDrive.modifyFile_ne _ _ hx, relinkFile_eq _ hne]
      rfl
  | renamed hd hp hlock hv hdup hfind hshort =>
    refine (h.renamed_iff hl hb hp ?_).trans ((takenIn_shortnameOf hshort).trans ?_)
    · exact fun _ => rfl
    refine ⟨fun h q hacc => ?_, fun h => h _ ⟨hd, hp, hlock, hv, hfind, hdup⟩⟩
    cases hp.symm.trans hacc.2.1
    exact h
  | renameFailed hd hp hlock hv hdup hfind hshort =>
    rename_i f p name dup
    refine iff_of_true (h.edit fun _ => ⟨rfl, rfl⟩) fun q hacc hun => ?_
    obtain ⟨hne, hlen, -⟩ := shortnameOf_eq_none.1 hshort
    exact absurd hlen (Nat.not_le.2 (hun.resolve_left hne))
  | shortRenamed hd hp hlock hv hfit hfind =>
    refine iff_of_true ?_ fun _ _ _ hc => by cases hc
    refine (h.renamed_iff hl hb hp ?_).2 (takenIn_eq_false.2 fun x hx hne => ?_)
    · exact fun _ => rfl
    rw [sameName_toupper]
    exact shortname_ne_of_findFileSkip hfind hx hne
  | _ => cases hn

/-- Every step that meets the condition. -/
theorem ShortnamesDistinct.step (h : ShortnamesDistinct w.drive) (hl : Linked w)
    (hb : w.broken = []) (hok : KeepsDistinct w.drive c) (hs : w.Step qsort c r w') :
    ShortnamesDistinct w'.drive := by
  have named (hr : r = .ok ()) (hn : c.names = true) : ShortnamesDistinct w'.drive := by
    subst hr
    exact (h.named_iff hl hb hn hs).2 hok
  obtain ⟨hdoes, -, -⟩ := hl.does hs
  generalize w'.drive = d' at hdoes named
  cases hdoes with
  | refused => exact h
  | createFailed hc ha hcheck hent late =>
    rename_i p name f fil
    have hfresh := hl.fresh (hs.alloc f ha)
    have hsub : ∀ {q x}, x ∈ ((dropFile w.drive p f fil).file q).entries →
        x ∈ (w.drive.file q).entries := by
      intro q x hx
      rw [dropFile_entries] at hx
      split at hx
      · simp [hent] at hx
      · exact hx
    refine h.frame (fun _ _ hx => hsub hx) fun q x hx => ?_
    have hxf : x ≠ f := fun e => hfresh.not_entry q (e ▸ hsub hx)
    simp only [dropFile, relist_file, hxf, ↓reduceIte]
    split <;> rfl
  | created hc ha hcheck => exact named rfl (keepsDistinct_create hc ha hcheck).1
  | stays | moved | renamed | renameFailed | shortRenamed => exact named rfl rfl
  | deleted =>
    refine h.frame (fun q x hx => ?_) fun _ _ _ => rfl
    simp only [removeFile, relist_file] at hx
    split at hx
    · exact List.mem_of_mem_erase hx
    · exact hx
  | moveFailed hcheck hp hne hfind hshort =>
    exact absurd (shortnameOf_eq_none.1 hshort) (hok ⟨hcheck, by simpa [hp] using hne, hfind⟩).2
  | up | down => exact hok.elim
  | sized | fatSized | dated | attrSet => exact h.edit fun _ => ⟨rfl, rfl⟩
  | labelled => exact h.frame (by simp) (by simp)
  | labelLost | serialSet | clean | locked | unlocked => exact h
  | laidOut _ _ _ hrec => exact h.relaid (vdfDriveRecalc_relaid hrec)
  | layoutFailed _ _ _ _ hrec => exact h.relaid (vdfDriveRecalc_relaid hrec)
  | laidOutLocked _ _ _ hrec =>
    have h := h.relaid (vdfDriveRecalc_relaid hrec)
    exact h
  | recreated _ _ hrec =>
    rw [ShortnamesDistinct, (createdriveExt_file hrec).2]
    exact h

theorem keepsDistinct_unbroken {d : VdfDrive} (hok : KeepsDistinct d c) :
    (∀ f, c ≠ .fileUp f) ∧ ∀ f, c ≠ .fileDown f := by
  constructor <;> rintro f rfl <;> exact hok

end Steps

section Runs

variable {qsort : List FileRange → List FileRange} {size flags : Nat} {ext : DriveExt}
  {junk : Uninit} {w₀ w : World}

/-- In every run in which the files that are created, renamed and moved find their short names free,
the entries of each directory have different short names. A next call that gives a name and
succeeds keeps that under this condition only. -/
theorem shortnames_distinct (hcreate : World.create size flags ext junk = some w₀)
    (run : Run qsort (fun w => KeepsDistinct w.drive) w₀ w) :
    ShortnamesDistinct w.drive ∧ ∀ c w', c.names = true → w.Step qsort c (.ok ()) w' →
      (ShortnamesDistinct w'.drive ↔ KeepsDistinct w.drive c) := by
  have hr := rooted_create hcreate
  have h := run.induct (P := fun w => Linked w ∧ w.broken = [] ∧ ShortnamesDistinct w.drive)
    ⟨hr.linked, hr.unbroken, fun p x hx => ?_⟩ fun hok ⟨hl, hb, h⟩ hs =>
      ⟨hl.step hs, ?_, h.step hl hb hok hs⟩
  · exact ⟨h.2.2, fun c w' hn hs => h.2.2.named_iff h.1 h.2.1 hn hs⟩
  · obtain ⟨d, hd, rfl⟩ := Option.map_eq_some_iff.1 hcreate
    rw [(createdriveExt_new hd).2.1] at hx
    cases hx
  · obtain ⟨hup, hdown⟩ := keepsDistinct_unbroken hok
    rw [(hl.does hs).2.1, World.after_broken _ _ _ hup hdown, hb]

/-- Two files, with one blank and with two, that have the short name `AB`. -/
theorem shortnames_collide :
    ∃ w, sampleRun [.addFileVirt 0 [0x61, 0x20, 0x62] 0 (some 1) true 0,
        .addFileVirt 0 [0x61, 0x20, 0x20, 0x62] 0 (some 2) true 0] = some w ∧ Reachable id w ∧
      (w.drive.file 1).shortname = [0x41, 0x42] ∧ (w.drive.file 2).shortname = [0x41, 0x42] ∧
      ¬ ShortnamesDistinct w.drive := by
  obtain ⟨w, h, hent, h1, h2⟩ := sampleRun_exists
    (l := [.addFileVirt 0 [0x61, 0x20, 0x62] 0 (some 1) true 0,
      .addFileVirt 0 [0x61, 0x20, 0x20, 0x62] 0 (some 2) true 0])
    (P := fun w => (w.drive.file 0).entries = [1, 2] ∧
      (w.drive.file 1).shortname = [0x41, 0x42] ∧ (w.drive.file 2).shortname = [0x41, 0x42])
    (by decide)
  refine ⟨w, h, sampleRun_reachable h, h1, h2, fun hdis => ?_⟩
  have := hdis 0 1 (by simp [hent]) 2 (by simp [hent]) (by decide)
  rw [h1, h2, sameName_refl] at this
  cases this

/-- The sample directory and file, `A` and `B`. -/
theorem shortnames_distinct_sample :
    ∃ w, sampleRun [sampleDir, sampleFile] = some w ∧ ShortnamesDistinct w.drive := by
  obtain ⟨w₀, h₀, hfree₀⟩ := sampleRun_exists (l := [])
    (P := fun w => takenIn w.drive 0 1 [0x41] = false) (by decide)
  obtain ⟨w₁, h₁, hfree₁⟩ := sampleRun_exists (l := [sampleDir])
    (P := fun w => takenIn w.drive 0 2 [0x42] = false) (by decide)
  obtain ⟨w, h, -⟩ := sampleRun_exists (l := [sampleDir, sampleFile]) (P := fun _ => True)
    (by decide)
  have hok₀ : KeepsDistinct w₀.drive sampleDir := by
    rintro p name f hc ha - -
    cases hc
    cases ha
    exact hfree₀
  have hok₁ : KeepsDistinct w₁.drive sampleFile := by
    rintro p name f hc ha - -
    cases hc
    cases ha
    exact hfree₁
  exact ⟨w, h, (shortnames_distinct (sampleRun_nil h₀) (((Run.refl w₀).stepTo hok₀
    (sampleRun_concat h₀ h₁)).stepTo hok₁ (sampleRun_concat h₁ h))).1⟩

end Runs

/-! ## The long-name flag -/

/-- The checks of `vdf_set_file_shortname` let `f` get the short name. -/
def ShortRenameAccepted (d : VdfDrive) (f p : FileId) (name : List UInt8) : Prop :=
  (d.file f).deleted = false ∧ (d.file f).parent = some p ∧ d.lockTest = false ∧
    filenameValid name = true ∧ shortnameFits name = true ∧
    findFileSkip d p name 0 (some f) = none

/-- Without `VFF_LONGNAME` both names of a file are the same but for case. -/
def LongnameMarked (fil : VdfFile) : Prop :=
  fil.longname = false → sameName fil.name fil.shortname = true

/-- A file without `VFF_LONGNAME` gets no short name that is not its name, and no name without a short
name that is not its short name. -/
def KeepsLongname (d : VdfDrive) (c : Call) : Prop :=
  match c with
  | .setFileName f name dup => ∀ p, RenameAccepted d f p name dup → NumbersTaken d p f name →
    (d.file f).longname = true ∨ sameName name (d.file f).shortname = true
  | .setFileShortname f name => ∀ p, ShortRenameAccepted d f p name →
    (d.file f).longname = true ∨ sameName (d.file f).name name = true
  | _ => True

/-- Every file below the root, deleted or not. -/
def LongnamesMarked (w : World) : Prop :=
  ∀ x ∈ w.handles, x ≠ w.drive.rootDir → LongnameMarked (w.drive.file x)

section Longnames

variable {qsort : List FileRange → List FileRange} {d : VdfDrive} {w w' : World} {c : Call}
  {r : Except Errno Unit}

theorem sameName_toupper_right (a b : List UInt8) : sameName a (b.map toupper) = sameName a b := by
  rw [sameName_comm, sameName_toupper, sameName_comm]

/-- `calc_shortname` clears the flag for a name that it keeps. -/
theorem longnameMarked_of_shortnameOf {taken : List UInt8 → Bool} {name s : List UInt8} {l : Bool}
    (h : shortnameOf taken name = some (s, l)) (hl : l = false) : sameName name s = true := by
  rcases shortnameOf_cases h with ⟨-, -, hs⟩ | ⟨-, -, e⟩
  · rw [hs hl]
    exact sameName_refl name
  · cases e.symm.trans hl

theorem Rewrite.longnameMarked {x : FileId} {fil : VdfFile} (h : Rewrite d x c r fil)
    (hok : KeepsLongname d c) (hx : LongnameMarked (d.file x)) : LongnameMarked fil := by
  cases h with
  | moved _ _ _ _ _ hs | renamed _ hs => exact longnameMarked_of_shortnameOf hs
  | renameFailed hd hp hl hv hfind hs =>
    intro hlong
    exact (hok _ ⟨hd, hp, hl, hv, hfind, rfl⟩ (shortnameOf_eq_none.1 hs)).resolve_left
      (by simp [show (d.file x).longname = false from hlong])
  | shortRenamed hd hp hl hv hfit hfind =>
    intro hlong
    rw [sameName_toupper_right]
    by_contra hne
    have hne := Bool.eq_false_iff.2 hne
    simp only [hne, Bool.false_eq_true, ↓reduceIte] at hlong
    rcases hok _ ⟨hd, hp, hl, hv, hfit, hfind⟩ with h | h
    · exact nomatch h.symm.trans hlong
    · exact nomatch h.symm.trans hne
  | _ => exact hx

theorem LongnamesMarked.step (h : LongnamesMarked w) (hl : Linked w)
    (hok : KeepsLongname w.drive c) (hs : w.Step qsort c r w') : LongnamesMarked w' := by
  obtain ⟨hdoes, hw', -⟩ := hl.does hs
  intro x hx hroot
  rw [hw', World.after_handles] at hx
  rw [hdoes.rootDir] at hroot
  by_cases hxn : c.alloc = some x
  · obtain ⟨rfl, -⟩ := hx.resolve_left (hs.alloc x hxn)
    obtain ⟨p, name, s, l, -, -, hshort, hd⟩ := hdoes.new hxn
    intro hlong
    simp only [hd, addFile, relist_file, ↓reduceIte, Call.newFile_name, Call.newFile_shortname,
      Call.newFile_longname] at hlong ⊢
    exact longnameMarked_of_shortnameOf hshort hlong
  · exact (hdoes.rewrite hxn).longnameMarked hok
      (h x (hx.resolve_right fun h => hxn h.2) hroot)

/-- A call that succeeds without the condition leaves a file with two names and no flag. -/
theorem LongnamesMarked.needed (hl : Linked w) (hs : w.Step qsort c (.ok ()) w')
    (h : LongnamesMarked w') : KeepsLongname w.drive c := by
  obtain ⟨hdoes, hw', -⟩ := hl.does hs
  have marked {f p : FileId} (hf : f ∈ c.files) (hp : (w.drive.file f).parent = some p) :
      LongnameMarked (w'.drive.file f) := by
    refine h f ?_ fun e => ?_
    · rw [hw', World.after_handles]
      exact .inl (hs.files f hf)
    · rw [hdoes.rootDir] at e
      subst e
      exact nomatch hl.root_parent.symm.trans hp
  generalize w'.drive = d' at hdoes marked
  cases hdoes with
  | renamed hd hp hlock hv hdup hfind hshort =>
    intro q hacc hnum
    cases hp.symm.trans hacc.2.1
    exact nomatch hshort.symm.trans (shortnameOf_eq_none.2 hnum)
  | renameFailed hd hp hlock hv hdup hfind hshort =>
    rename_i f p name dup
    intro q hacc hnum
    have hm := marked (List.mem_singleton.2 rfl) hp
    rw [setDriveDirty_file, VdfDrive.modifyFile_self] at hm
    exact (Bool.eq_false_or_eq_true _).imp_right hm
  | shortRenamed hd hp hlock hv hfit hfind =>
    rename_i f p name
    intro q hacc
    have hm := marked (List.mem_singleton.2 rfl) hp
    rw [setDriveDirty_file, VdfDrive.modifyFile_self, LongnameMarked, sameName_toupper_right] at hm
    by_cases hsame : sameName (w.drive.file f).name name = true
    · exact .inr hsame
    · exact .inl (Bool.not_eq_false _ ▸ fun hlong => hsame (hm (by simp [hsame, hlong])))
  | created hc =>
    cases c with
    | addDir | addFileReal | addFileVirt => trivial
    | _ => cases hc
  | _ => trivial

end Longnames

section Runs

variable {qsort : List FileRange → List FileRange} {size flags : Nat} {ext : DriveExt}
  {junk : Uninit} {w₀ w : World}

/-- In every run in which no file without `VFF_LONGNAME` gets a short name that is not its name, nor a
name without a short name for it, a file without the flag has one name but for case. A next call
that succeeds keeps that under this condition only. -/
theorem longnames_marked (hcreate : World.create size flags ext junk = some w₀)
    (run : Run qsort (fun w => KeepsLongname w.drive) w₀ w) :
    LongnamesMarked w ∧ ∀ c w', w.Step qsort c (.ok ()) w' →
      (LongnamesMarked w' ↔ KeepsLongname w.drive c) := by
  have hroot : LongnamesMarked w₀ := by
    obtain ⟨d, hd, rfl⟩ := Option.map_eq_some_iff.1 hcreate
    exact fun x hx hne => absurd (List.mem_singleton.1 hx) hne
  have h := run.induct (P := fun w => Linked w ∧ LongnamesMarked w)
    ⟨(rooted_create hcreate).linked, hroot⟩ fun hok ⟨hl, h⟩ hs => ⟨hl.step hs, h.step hl hok hs⟩
  exact ⟨h.2, fun c w' hs => ⟨fun h' => h'.needed h.1 hs, fun hok => h.2.step h.1 hok hs⟩⟩

/-- The file `B` gets the short name `C`. -/
theorem setFileShortname_unmarked :
    ∃ w, sampleRun [sampleFile, .setFileShortname 2 [0x43]] = some w ∧ Reachable id w ∧
      (w.drive.file 2).longname = false ∧ (w.drive.file 2).name = [0x42] ∧
      (w.drive.file 2).shortname = [0x43] ∧ ¬ LongnamesMarked w := by
  obtain ⟨w, h, hP, hl, hn, hs⟩ := sampleRun_exists (l := [sampleFile, .setFileShortname 2 [0x43]])
    (P := fun w => (2 ∈ w.handles ∧ 2 ≠ w.drive.rootDir) ∧ (w.drive.file 2).longname = false ∧
      (w.drive.file 2).name = [0x42] ∧ (w.drive.file 2).shortname = [0x43]) (by decide)
  refine ⟨w, h, sampleRun_reachable h, hl, hn, hs, fun hm => ?_⟩
  have hm := hm 2 hP.1 hP.2 hl
  rw [hn, hs] at hm
  exact absurd hm (by decide)

theorem longnames_marked_sample :
    ∃ w, sampleRun [sampleDir, sampleFile] = some w ∧ LongnamesMarked w := by
  obtain ⟨w₀, w, hcreate, run, h⟩ := sample_run (k := fun w => KeepsLongname w.drive)
    (fun _ => trivial) fun _ => trivial
  exact ⟨w, h, (longnames_marked hcreate run).1⟩

end Runs

end Vdf
