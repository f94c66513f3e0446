import Vdf.Rooted

/-!
# Deletion

`vdf_delete_file` on a tree. `delete_file` marks the file before it asks whether it is a directory, so
it never reaches the entries: only a file without entries is deleted as a whole.
-/

namespace Vdf

open Relation

/-- The files of the subtree of `f`. -/
noncomputable def VdfDrive.subtree (d : VdfDrive) (f : FileId) : List FileId :=
  open Classical in d.allFiles.filter fun x => d.Below x f

/-- `d'` is `d` without the subtree of `f`. -/
structure RemovesSubtree (d d' : VdfDrive) (f : FileId) : Prop where
  allFiles : d'.allFiles = open Classical in d.allFiles.filter fun x => ¬ d.Below x f
  fileCnt : d'.fileCnt + (d.subtree f).length = d.fileCnt
  live : ∀ x ∈ d'.allFiles, ∀ y, d'.Below x y → (d'.file y).deleted = false
  links : ∀ x, ¬ d.Below x f → (d'.file x).name = (d.file x).name ∧
    (d'.file x).shortname = (d.file x).shortname ∧ (d'.file x).parent = (d.file x).parent
  entries : ∀ p, ¬ d.Below p f → (d'.file p).entries =
    open Classical in (d.file p).entries.filter fun x => ¬ d.Below x f

theorem RemovesSubtree.not_below {d d' : VdfDrive} {f x : FileId} (h : RemovesSubtree d d' f)
    (hx : x ∈ d'.allFiles) : ¬ d.Below x f := by
  classical
  rw [h.allFiles, List.mem_filter] at hx
  exact of_decide_eq_true hx.2

section Tree

variable {d : VdfDrive} {f x y : FileId}

/-- The only file below one without entries is the file itself. -/
theorem VdfDrive.IsTree.below_leaf (h : d.IsTree) (hf : (d.file f).entries = []) :
    d.Below x f ↔ x = f := by
  refine ⟨fun hb => by_contra fun hne => ?_, fun e => e ▸ .refl _⟩
  obtain ⟨y, -, hy⟩ := VdfDrive.Below.below_child hb hne
  have := (h.mem_entries y f).2 hy
  rw [hf] at this
  cases this

/-- What is above a file of the tree is in the tree. -/
theorem VdfDrive.IsTree.below_root (h : d.IsTree) (hx : d.Below x d.rootDir) (hy : d.Below x y) :
    d.Below y d.rootDir := by
  rcases ReflTransGen.total_of_right_unique (Rooted.rightUnique d) hx hy with hr | hr
  · rcases ReflTransGen.cases_head hr with e | ⟨p, hc, -⟩
    · exact e ▸ .refl _
    · exact nomatch h.root_parent.symm.trans hc
  · exact hr

/-- An entry of a directory that is not below `f` is only below `f` when it is `f`. -/
theorem VdfDrive.IsTree.entry_below (h : d.IsTree) {p : FileId} (hp : ¬ d.Below p f)
    (hx : x ∈ (d.file p).entries) : d.Below x f ↔ x = f := by
  refine ⟨fun hb => ?_, fun e => e ▸ .refl _⟩
  rcases ReflTransGen.cases_head hb with e | ⟨q, hc, hq⟩
  · exact e
  · exact absurd (Rooted.rightUnique d ((h.mem_entries x p).1 hx) hc ▸ hq) hp

theorem erase_eq_filter_below {l : List FileId} (hl : l.Nodup)
    (h : ∀ x ∈ l, d.Below x f ↔ x = f) :
    l.erase f = open Classical in l.filter fun x => ¬ d.Below x f := by
  classical
  rw [hl.erase_eq_filter]
  refine List.filter_congr fun x hx => ?_
  rw [Bool.eq_iff_iff, bne_iff_ne, decide_eq_true_iff]
  exact not_congr (h x hx).symm

/-- A file without entries is deleted as a whole. -/
theorem removesSubtree_leaf {w : World} (hl : Linked w) (ht : w.drive.IsTree)
    (hf : f ∈ w.handles) (hr : f ≠ w.drive.rootDir) (hd : (w.drive.file f).deleted = false)
    (hleaf : (w.drive.file f).entries = []) :
    RemovesSubtree w.drive (removeFile w.drive f) f := by
  have hmem : f ∈ w.drive.allFiles := (hl.mem_allFiles f).2 ⟨hf, by simp [hr, hd]⟩
  have hlive : ∀ y, w.drive.Below y w.drive.rootDir → (w.drive.file y).deleted = false := by
    intro y hy
    rcases ReflTransGen.cases_head hy with e | ⟨p, hc, -⟩
    · exact e ▸ hl.root_live
    · exact hl.child_live y p hc
  have hsub : ∀ {x y}, (removeFile w.drive f).Below x y → w.drive.Below x y :=
    fun hb => ReflTransGen.mono (fun x p (hc : (removeFile w.drive f).Child x p) => by
      simp only [VdfDrive.Child, removeFile, relist_file] at hc
      split_ifs at hc
      exact hc) _ _ hb
  refine ⟨erase_eq_filter_below ht.nodup_allFiles fun x _ => ht.below_leaf hleaf, ?_,
    fun x hx y hb => ?_, fun x hx => ?_, fun p hp => ?_⟩
  · have hone : w.drive.subtree f = [f] := by
      classical
      rw [VdfDrive.subtree, List.filter_congr fun x _ => decide_eq_decide.2 (ht.below_leaf hleaf),
        List.filter_eq, List.count_eq_one_of_mem ht.nodup_allFiles hmem, List.replicate_one]
    have := hl.fileCnt
    have := List.length_pos_of_mem hmem
    simp only [hone, removeFile, relist_fileCnt, List.length_singleton]
    omega
  · have hx : x ∈ w.drive.allFiles ∧ x ≠ f := by
      simpa [removeFile, ht.nodup_allFiles.mem_erase_iff, and_comm] using hx
    have hyf : y ≠ f := fun e => hx.2 ((ht.below_leaf hleaf).1 (e ▸ hsub hb))
    have hroot := ht.below_root ((ht.mem_allFiles x).1 hx.1).1 (hsub hb)
    simpa [removeFile, hyf] using hlive y hroot
  · have hne : x ≠ f := fun e => hx (e ▸ .refl _)
    simp [removeFile, hne]
  · rw [← erase_eq_filter_below (ht.nodup_entries p) fun x hx => ht.entry_below hp hx]
    by_cases hq : (w.drive.file f).parent = some p
    · simp [removeFile, hq]
    · have hn : f ∉ (w.drive.file p).entries := fun h => hq ((ht.mem_entries f p).1 h)
      simp [removeFile, hq, List.erase_of_not_mem hn]

end Tree

section Runs

variable {qsort : List FileRange → List FileRange} {w w' : World} {f : FileId}
  {r : Except Errno Unit}

/-- In every tree that calls lead to, deleting a file removes exactly its subtree if and only if the
file has no entries. -/
theorem delete_removes_subtree_iff (hreach : Reachable qsort w) (htree : w.drive.IsTree)
    (hd : (w.drive.file f).deleted = false) (hr : f ≠ w.drive.rootDir)
    (hlock : w.drive.lockTest = false) (hs : w.Step qsort (.deleteFile f) r w') :
    r = .ok () ∧ RemovesSubtree w.drive w'.drive f ↔ (w.drive.file f).entries = [] := by
  have hl := hreach.linked
  have hf : f ∈ w.handles := hs.files f (List.mem_singleton.2 rfl)
  obtain ⟨fuel, d', -, ha, rfl⟩ := hs.apply
  rw [Call.apply, vdfDeleteFile_accepted hd hr hlock] at ha
  cases ha
  refine ⟨fun h => List.eq_nil_iff_forall_not_mem.2 fun y hy => ?_, fun hleaf =>
    ⟨rfl, removesSubtree_leaf hl htree hf hr hd hleaf⟩⟩
  replace h := h.2
  -- An entry stays in `all_files`.
  have hc := (htree.mem_entries y f).1 hy
  have hyf : y ≠ f := fun e => Forest.Ranked.irrefl htree.acyclic hc (e ▸ .refl)
  have hyr : y ≠ w.drive.rootDir := by
    rintro rfl
    cases htree.root_parent.symm.trans hc
  have hmem : y ∈ w.drive.allFiles := (hl.mem_allFiles y).2
    ⟨hl.handle_of_child hc, by simp [hyr, hl.child_live y f hc]⟩
  have hleft : y ∈ (removeFile w.drive f).allFiles :=
    (htree.nodup_allFiles.mem_erase_iff).2 ⟨hyf, hmem⟩
  rw [World.after_drive] at h
  exact h.not_below hleft (.step hc (.refl _))

/-- A directory with one file, which outlives it. -/
theorem delete_leaves_entries :
    ∃ w w', sampleRun [sampleDir, .addFileVirt 1 [0x42] 0 (some 2) true 0] = some w ∧
      sampleRun [sampleDir, .addFileVirt 1 [0x42] 0 (some 2) true 0, .deleteFile 1] = some w' ∧
      Reachable id w ∧ w.drive.IsTree ∧ ¬ RemovesSubtree w.drive w'.drive 1 := by
  obtain ⟨w₀, h₀, -⟩ := sampleRun_exists (l := []) (P := fun _ => True) (by decide)
  obtain ⟨w₁, h₁, -⟩ := sampleRun_exists (l := [sampleDir]) (P := fun _ => True) (by decide)
  obtain ⟨w, h, hc⟩ := sampleRun_exists
    (l := [sampleDir, .addFileVirt 1 [0x42] 0 (some 2) true 0])
    (P := fun w => (w.drive.file 2).parent = some 1) (by decide)
  obtain ⟨w', h', hmem⟩ := sampleRun_exists
    (l := [sampleDir, .addFileVirt 1 [0x42] 0 (some 2) true 0, .deleteFile 1])
    (P := fun w => 2 ∈ w.drive.allFiles) (by decide)
  have run₁ : Run id KeepsTree w₀ w₁ := (Run.refl w₀).stepTo
    (show KeepsTree w₀ sampleDir from trivial) (sampleRun_concat h₀ h₁)
  have run : Run id KeepsTree w₀ w := run₁.stepTo (c := .addFileVirt 1 [0x42] 0 (some 2) true 0)
    trivial (sampleRun_concat h₁ h)
  exact ⟨w, w', h, h', sampleRun_reachable h, (run.rooted (rooted_create (sampleRun_nil h₀))).isTree,
    fun hr => hr.not_below hmem (.step hc (.refl _))⟩

theorem delete_removes_subtree_sample :
    ∃ w w', sampleRun [sampleDir, sampleFile] = some w ∧
      sampleRun [sampleDir, sampleFile, .deleteFile 2] = some w' ∧
      RemovesSubtree w.drive w'.drive 2 := by
  obtain ⟨w₀, w, hcreate, run, h⟩ := sample_run (k := KeepsTree) (fun _ => trivial) fun _ => trivial
  obtain ⟨w₂, h₂, hd, hroot, hlock, hleaf⟩ := sampleRun_exists (l := [sampleDir, sampleFile])
    (P := fun w => (w.drive.file 2).deleted = false ∧ 2 ≠ w.drive.rootDir ∧
      w.drive.lockTest = false ∧ (w.drive.file 2).entries = []) (by decide)
  obtain rfl := Option.some.inj (h.symm.trans h₂)
  obtain ⟨w', h', -⟩ := sampleRun_exists (l := [sampleDir, sampleFile, .deleteFile 2])
    (P := fun _ => True) (by decide)
  obtain ⟨r, hs⟩ := World.step_of_stepTo (sampleRun_concat h h')
  exact ⟨w, w', h, h', ((delete_removes_subtree_iff (sampleRun_reachable h)
    (run.rooted (rooted_create hcreate)).isTree hd hroot hlock hs).2 hleaf).2⟩

end Runs

end Vdf
