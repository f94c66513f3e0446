import Mathlib.Data.List.DropRight
import Vdf.DirSlots
import Vdf.Shortnames

/-!
# 8.3 names

`calc_shortname` drops spaces and does not look whether anything is left of the base or of the
extension; `vdf_set_file_shortname` looks at the lengths around the first dot only. `KeepsDos` says
when a call stores an 8.3 name nevertheless. Such a name can be read back from its directory entry
(`decodeShortname_field`).
-/

namespace Vdf

/-! ## Valid short names -/

/-- A character of an 8.3 name: no space, no dot, no lower-case letter. -/
def DosChar (c : UInt8) : Prop := c ≠ 0x20 ∧ c ≠ 0x2e ∧ ¬ (0x61 ≤ c ∧ c ≤ 0x7a)

instance (c : UInt8) : Decidable (DosChar c) := inferInstanceAs (Decidable (_ ∧ _ ∧ ¬ (_ ∧ _)))

/-- The base or the extension of an 8.3 name. -/
structure DosPart (n : Nat) (l : List UInt8) : Prop where
  nonempty : l ≠ []
  length : l.length ≤ n
  chars : ∀ c ∈ l, DosChar c

instance (n : Nat) (l : List UInt8) : Decidable (DosPart n l) :=
  decidable_of_iff (l.isEmpty = false ∧ l.length ≤ n ∧ l.all (DosChar ·) = true) (by
    rw [List.isEmpty_eq_false_iff, List.all_eq_true]
    simp only [decide_eq_true_eq]
    exact ⟨fun h => ⟨h.1, h.2.1, h.2.2⟩, fun h => ⟨h.nonempty, h.length, h.chars⟩⟩)

/-- A base, and an extension behind a dot or neither. -/
def dotted (base : List UInt8) (ext : Option (List UInt8)) : List UInt8 :=
  base ++ ext.elim [] (0x2e :: ·)

/-- An 8.3 name. -/
def DosName (s : List UInt8) : Prop :=
  ∃ base ext, DosPart 8 base ∧ (∀ e ∈ ext, DosPart 3 e) ∧ s = dotted base ext

/-- The short name in the first 11 bytes of a directory entry. -/
def decodeShortname (field : List UInt8) : List UInt8 :=
  let base := (field.take 8).rdropWhile (· == 0x20)
  let ext := (field.drop 8).rdropWhile (· == 0x20)
  dotted base (if ext = [] then none else some ext)

section Parts

variable {b l : List UInt8} {e : Option (List UInt8)} {n : Nat} {c : UInt8}

theorem takeWhile_dotted (hb : 0x2e ∉ b) : (dotted b e).takeWhile (· != 0x2e) = b := by
  rw [dotted, List.takeWhile_append_of_pos fun c hc => by grind]
  cases e <;> simp

/-- The first dot of a name separates the parts. -/
theorem dotted_inj {b' : List UInt8} {e' : Option (List UInt8)} (hb : 0x2e ∉ b) (hb' : 0x2e ∉ b')
    (h : dotted b e = dotted b' e') : b = b' ∧ e = e' := by
  have hbb : b = b' := by rw [← takeWhile_dotted (e := e) hb, h, takeWhile_dotted hb']
  subst hbb
  refine ⟨rfl, ?_⟩
  have h := List.append_cancel_left h
  cases e <;> cases e' <;> simp_all

theorem exists_dotted (s : List UInt8) : ∃ b e, 0x2e ∉ b ∧ s = dotted b e := by
  induction s with
  | nil => exact ⟨[], none, nofun, rfl⟩
  | cons c s ih =>
    obtain ⟨b, e, hb, rfl⟩ := ih
    by_cases hc : c = 0x2e
    · exact ⟨[], some (dotted b e), nofun, by rw [hc]; rfl⟩
    · exact ⟨c :: b, e, by simp [hb, Ne.symm hc], rfl⟩

theorem DosPart.dot_notMem (h : DosPart n l) : 0x2e ∉ l := fun hm => (h.chars _ hm).2.1 rfl

theorem dosName_dotted (hb : 0x2e ∉ b) :
    DosName (dotted b e) ↔ DosPart 8 b ∧ ∀ x ∈ e, DosPart 3 x := by
  constructor
  · rintro ⟨b', e', hb', he', h⟩
    obtain ⟨rfl, rfl⟩ := dotted_inj hb hb'.dot_notMem h
    exact ⟨hb', he'⟩
  · rintro ⟨h1, h2⟩
    exact ⟨b, e, h1, h2, rfl⟩

/-- The parts of a name are around its first dot. -/
theorem dosName_iff_parts (s : List UInt8) : DosName s ↔
    DosPart 8 (s.takeWhile (· != 0x2e)) ∧ ∀ x ∈ (s.dropWhile (· != 0x2e)).tail?, DosPart 3 x := by
  obtain ⟨b, e, hb, rfl⟩ := exists_dotted s
  have hrest : ((dotted b e).dropWhile (· != 0x2e)).tail? = e := by
    rw [dotted, List.dropWhile_append_of_pos fun c hc => by grind]
    cases e <;> simp
  rw [dosName_dotted hb, takeWhile_dotted hb, hrest]

instance (s : List UInt8) : Decidable (DosName s) := decidable_of_iff _ (dosName_iff_parts s).symm

/-! ## The directory entry -/

/-- Padding is taken off again. -/
theorem rdropWhile_padSpaces (h : 0x20 ∉ l) : (padSpaces n l).rdropWhile (· == 0x20) = l := by
  rw [padSpaces]
  induction n - l.length with
  | zero =>
    rw [List.replicate_zero, List.append_nil]
    refine List.rdropWhile_eq_self_iff.2 fun hl hlast => h ?_
    exact beq_iff_eq.1 hlast ▸ List.getLast_mem hl
  | succ k ih =>
    rw [List.replicate_succ', ← List.append_assoc, List.rdropWhile_concat_pos _ _ _ (by simp), ih]

theorem DosPart.space_notMem (h : DosPart n l) : 0x20 ∉ l := fun hm => (h.chars _ hm).1 rfl

/-- The entry of an 8.3 name says the name. -/
theorem decodeShortname_field {s : List UInt8} (h : DosName s) (h0 : 0 ∉ s) :
    decodeShortname (shortnameField s) = s := by
  obtain ⟨b, e, hb, he, rfl⟩ := h
  have hb0 : ∀ c ∈ b, (c != 0 && c != 0x2e) = true := fun c hc => by
    have hc0 : c ≠ 0 := fun h => h0 (h ▸ List.mem_append_left _ hc)
    simp [hc0, (hb.chars c hc).2.1]
  have hbase : ((dotted b e).takeWhile fun c => c != 0 && c != 0x2e).take 8 = b := by
    rw [dotted, List.takeWhile_append_of_pos hb0]
    cases e <;> simp [List.take_of_length_le hb.length]
  have hfield : shortnameField (dotted b e) = padSpaces 8 b ++ padSpaces 3 (e.getD []) := by
    rw [shortnameField, hbase, dotted, List.drop_left]
    cases e with
    | none => rfl
    | some x =>
      have hx0 : x.takeWhile (· != 0) = x := List.takeWhile_eq_self_iff.2 fun c hc => by
        have : c ≠ 0 := fun h => h0 (by simp [dotted, ← h, hc])
        simpa using this
      simp [hx0, List.take_of_length_le (he x rfl).length]
  have hlen : (padSpaces 8 b).length = 8 := by
    rw [length_padSpaces, max_eq_left hb.length]
  rw [decodeShortname, hfield, List.take_left' hlen, List.drop_left' hlen,
    rdropWhile_padSpaces hb.space_notMem]
  cases e with
  | none => rw [Option.getD_none, rdropWhile_padSpaces List.not_mem_nil, if_pos rfl]
  | some x =>
    rw [Option.getD_some, rdropWhile_padSpaces (he x rfl).space_notMem,
      if_neg (he x rfl).nonempty]

end Parts

/-! ## What `calc_shortname` makes of a name -/

/-- The cut base, and the cut extension when there is one, have a character that is no space. -/
def KeepsParts (name : List UInt8) : Prop :=
  (∃ c ∈ (splitLastDot name).1.take 8, c ≠ 0x20) ∧
    ∀ ext ∈ (splitLastDot name).2, ∃ c ∈ ext.take 3, c ≠ 0x20

section Derived

variable {name l s : List UInt8} {n : Nat}

theorem stuffDosname_char {c x : UInt8} (h : x ∈ stuffDosname c) : DosChar x := by
  unfold stuffDosname at h
  split_ifs at h with h1 h2
  · cases h
  · obtain rfl := List.mem_singleton.1 h
    exact ⟨by decide, by decide, by decide⟩
  · obtain rfl := List.mem_singleton.1 h
    have hdot : c ≠ 0x2e := fun e => h2 (by simp [e])
    simp only [DosChar, toupper]
    split_ifs <;> grind

theorem length_stuffDosname_le (c : UInt8) : (stuffDosname c).length ≤ 1 := by
  unfold stuffDosname
  split_ifs <;> simp

theorem stuffDosname_eq_nil {c : UInt8} : stuffDosname c = [] ↔ c = 0x20 := by
  unfold stuffDosname
  split_ifs <;> simp [*]

theorem length_flatMap_stuffDosname (l : List UInt8) :
    (l.flatMap stuffDosname).length ≤ l.length := by
  induction l with
  | nil => exact Nat.le_refl 0
  | cons c l ih =>
    have := length_stuffDosname_le c
    simp only [List.flatMap_cons, List.length_append, List.length_cons]
    omega

theorem dosPart_of_ne_nil (h : (l.take n).flatMap stuffDosname ≠ []) :
    DosPart n ((l.take n).flatMap stuffDosname) := by
  refine ⟨h, ?_, fun x hx => ?_⟩
  · have := length_flatMap_stuffDosname (l.take n)
    have := List.length_take_le n l
    omega
  · obtain ⟨c, -, hx⟩ := List.mem_flatMap.1 hx
    exact stuffDosname_char hx

/-- The part that is left of `n` characters of a name. -/
theorem dosPart_flatMap : DosPart n ((l.take n).flatMap stuffDosname) ↔ ∃ c ∈ l.take n, c ≠ 0x20 := by
  have hne : (l.take n).flatMap stuffDosname ≠ [] ↔ ∃ c ∈ l.take n, c ≠ 0x20 := by
    simp [List.flatMap_eq_nil_iff, stuffDosname_eq_nil]
  rw [← hne]
  exact ⟨DosPart.nonempty, dosPart_of_ne_nil⟩

theorem dosExt_eq (name base : List UInt8) : base ++ dosExt name =
    dotted base ((splitLastDot name).2.map fun ext => (ext.take 3).flatMap stuffDosname) := by
  rw [dosExt, dotted]
  cases (splitLastDot name).2 <;> rfl

theorem tailDigits_char {ind : Nat} {c : UInt8} (h : c ∈ tailDigits ind) : DosChar c := by
  have key : ∀ m < 10, DosChar (UInt8.ofNat m + 0x30) := by decide
  have digit (n : Nat) : DosChar (UInt8.ofNat (ind / n % 10) + 0x30) :=
    key _ (Nat.mod_lt _ (by decide))
  have part {p : Prop} [Decidable p] {n : Nat}
      (h : c ∈ if p then [UInt8.ofNat (ind / n % 10) + 0x30] else []) : DosChar c := by
    split at h
    · exact List.mem_singleton.1 h ▸ digit n
    · cases h
  simp only [tailDigits, List.mem_append] at h
  rcases h with (((((h | h) | h) | h) | h) | h) | h
  · exact List.mem_singleton.1 h ▸ digit 1
  all_goals exact part h

theorem length_tailDigits (ind : Nat) : (tailDigits ind).length ≤ 7 := by
  unfold tailDigits
  simp only [List.length_append]
  split_ifs <;> simp

/-- A base of eight characters stays one with its number. -/
theorem tailBase_part {base : List UInt8} {ind : Nat} (h : DosPart 8 base) (h8 : 8 ≤ base.length) :
    DosPart 8 (tailBase base ind) := by
  have hlen := length_tailDigits ind
  refine ⟨by simp [tailBase], ?_, fun c hc => ?_⟩
  · have := h.length
    simp only [tailBase, List.length_append, List.length_take, List.length_cons,
      List.length_reverse]
    omega
  · rcases List.mem_append.1 hc with hc | hc
    · exact h.chars c (List.mem_of_mem_take hc)
    · rcases List.mem_cons.1 hc with rfl | hc
      · exact ⟨by decide, by decide, by decide⟩
      · exact tailDigits_char (List.mem_reverse.1 hc)

theorem dosName_dosExt {base : List UInt8} (hb : 0x2e ∉ base) :
    DosName (base ++ dosExt name) ↔
      DosPart 8 base ∧ ∀ ext ∈ (splitLastDot name).2, ∃ c ∈ ext.take 3, c ≠ 0x20 := by
  rw [dosExt_eq, dosName_dotted hb, Option.forall_mem_map]
  simp only [dosPart_flatMap]

/-- The short name of a name is an 8.3 name if and only if both parts are kept. -/
theorem shortnameOf_dosName {taken : List UInt8 → Bool} {long : Bool}
    (h : shortnameOf taken name = some (s, long)) : DosName s ↔ KeepsParts name := by
  have hbase : DosPart 8 (dosBase name) ↔ ∃ c ∈ (splitLastDot name).1.take 8, c ≠ 0x20 :=
    dosPart_flatMap
  have hdot : 0x2e ∉ dosBase name := fun h => by
    obtain ⟨c, -, hc⟩ := List.mem_flatMap.1 h
    exact (stuffDosname_char hc).2.1 rfl
  have plain : DosName (dosBase name ++ dosExt name) ↔ KeepsParts name := by
    rw [dosName_dosExt hdot, hbase, KeepsParts]
  simp only [shortnameOf] at h
  split_ifs at h with h1 h2
  · cases h
    exact plain
  · obtain ⟨ind, -, he⟩ := Option.map_eq_some_iff.1 h
    cases he
    have hpart : DosPart 8 (dosBase name) :=
      dosPart_of_ne_nil (List.ne_nil_of_length_pos (by rw [← dosBase]; omega))
    have htail : DosPart 8 (tailBase (dosBase name) ind) := tailBase_part hpart h2
    rw [dosName_dosExt htail.dot_notMem, KeepsParts, ← hbase]
    exact and_congr_left fun _ => iff_of_true htail hpart
  · cases h
    exact plain

end Derived

/-! ## What `vdf_set_file_shortname` stores -/

/-- The name has no space, does not start with a dot and has no second dot. -/
def WritesDos (name : List UInt8) : Prop :=
  0x20 ∉ name ∧ name.head? ≠ some 0x2e ∧ name.count 0x2e ≤ 1

section Written

variable {b l name : List UInt8} {e : Option (List UInt8)} {n : Nat} {c : UInt8}

theorem toupper_dosChar : DosChar (toupper c) ↔ c ≠ 0x20 ∧ c ≠ 0x2e := by
  simp only [DosChar, toupper]
  split_ifs <;> grind

theorem toupper_eq_dot : toupper c = 0x2e ↔ c = 0x2e := by
  unfold toupper
  split_ifs <;> grind

theorem dosPart_map_toupper :
    DosPart n (l.map toupper) ↔ l ≠ [] ∧ l.length ≤ n ∧ 0x20 ∉ l ∧ 0x2e ∉ l := by
  constructor
  · intro h
    have hc : ∀ c ∈ l, c ≠ 0x20 ∧ c ≠ 0x2e := fun c hc =>
      toupper_dosChar.1 (h.chars _ (List.mem_map_of_mem hc))
    exact ⟨by simpa using h.nonempty, by simpa using h.length, fun h => (hc _ h).1 rfl,
      fun h => (hc _ h).2 rfl⟩
  · rintro ⟨h1, h2, h3, h4⟩
    refine ⟨by simpa using h1, by simpa using h2, fun x hx => ?_⟩
    obtain ⟨c, hc, rfl⟩ := List.mem_map.1 hx
    exact toupper_dosChar.2 ⟨fun h => h3 (h ▸ hc), fun h => h4 (h ▸ hc)⟩

theorem map_toupper_dotted :
    (dotted b e).map toupper = dotted (b.map toupper) (e.map (List.map toupper)) := by
  cases e with
  | none => simp [dotted]
  | some x => simp [dotted, toupper_eq_dot]

theorem shortnameFits_dotted (hb : 0x2e ∉ b) : shortnameFits (dotted b e) = true ↔
    b.length ≤ 8 ∧ ∀ x ∈ e, x ≠ [] ∧ x.length ≤ 3 := by
  rw [shortnameFits, takeWhile_dotted hb, dotted, List.drop_left]
  cases e with
  | none => simp
  | some x => simp [and_assoc]

/-- A name that fits is stored as an 8.3 name if and only if it is written as one. -/
theorem dosName_map_toupper (hv : filenameValid name = true) (hfit : shortnameFits name = true) :
    DosName (name.map toupper) ↔ WritesDos name := by
  obtain ⟨b, e, hb, rfl⟩ := exists_dotted name
  obtain ⟨hlen, hext⟩ := (shortnameFits_dotted hb).1 hfit
  have hb' : 0x2e ∉ b.map toupper := fun h => by
    obtain ⟨c, hc, h⟩ := List.mem_map.1 h
    exact hb (toupper_eq_dot.1 h ▸ hc)
  have hne : dotted b e ≠ [] := by
    simp only [filenameValid, Bool.and_eq_true] at hv
    simpa using hv.1
  rw [map_toupper_dotted, dosName_dotted hb', dosPart_map_toupper, Option.forall_mem_map, WritesDos]
  simp only [dosPart_map_toupper]
  have hhead : (dotted b e).head? ≠ some 0x2e ↔ b ≠ [] := by
    cases b with
    | nil => cases e <;> simp_all [dotted]
    | cons c b =>
      have hc : c ≠ 0x2e := fun h => hb (h ▸ List.mem_cons_self)
      simp [dotted, hc]
  have hcount : (dotted b e).count 0x2e ≤ 1 ↔ ∀ x ∈ e, 0x2e ∉ x := by
    rw [dotted, List.count_append, List.count_eq_zero.2 hb, Nat.zero_add]
    cases e <;> simp [List.count_eq_zero]
  have hspace : 0x20 ∉ dotted b e ↔ 0x20 ∉ b ∧ ∀ x ∈ e, 0x20 ∉ x := by
    cases e <;> simp [dotted]
  rw [hhead, hcount, hspace]
  grind

end Written

/-! ## The calls -/

/-- The file whose short name the call stores. -/
def Call.named : Call → Option FileId
  | addDir _ _ a .. | addFileReal _ _ _ _ a _ | addFileVirt _ _ _ a .. => a
  | moveFile f _ | setFileName f .. | setFileShortname f _ => some f
  | _ => none

/-- The short name is an 8.3 name, and the directory entry says it. -/
def StoresDos (s : List UInt8) : Prop :=
  DosName s ∧ (0 ∉ s → decodeShortname (shortnameField s) = s)

theorem storesDos_iff {s : List UInt8} : StoresDos s ↔ DosName s :=
  ⟨And.left, fun h => ⟨h, decodeShortname_field h⟩⟩

/-- A call that gets behind its checks gives an 8.3 name. Where it leaves the short name as it was,
in a move within a directory or for want of a number, that is one. -/
def KeepsDos (d : VdfDrive) (c : Call) : Prop :=
  match c with
  | .moveFile f np =>
    if (d.file f).parent = some np then DosName (d.file f).shortname
    else MoveAccepted d f np → KeepsParts (d.file f).name
  | .setFileName f name dup => ∀ p, RenameAccepted d f p name dup →
    NumbersTaken d p f name ∧ DosName (d.file f).shortname ∨
      ¬ NumbersTaken d p f name ∧ KeepsParts name
  | .setFileShortname f name => ∀ p, ShortRenameAccepted d f p name → WritesDos name
  | c => ∀ p name, c.creates = some (p, name) → createCheck d p name = none → KeepsParts name

section Calls

variable {qsort : List FileRange → List FileRange} {d d' : VdfDrive} {c : Call} {f x : FileId}
  {r : Except Errno Unit} {w w' w₀ : World} {size flags : Nat} {ext : DriveExt} {junk : Uninit}

theorem keepsDos_create {p : FileId} {name : List UInt8} (hc : c.creates = some (p, name))
    (hcheck : createCheck d p name = none) : KeepsDos d c ↔ KeepsParts name := by
  have himp (h : KeepsParts name) (p' : FileId) (name' : List UInt8)
      (hc' : c.creates = some (p', name')) : createCheck d p' name' = none → KeepsParts name' := by
    cases hc.symm.trans hc'
    exact fun _ => h
  cases c with
  | addDir | addFileReal | addFileVirt => exact ⟨fun h => h p name hc hcheck, himp⟩
  | _ => cases hc

theorem named_of_alloc (ha : c.alloc = some f) : c.named = some f := by
  cases c with
  | addDir | addFileReal | addFileVirt => exact ha
  | _ => cases ha

/-- A call that succeeds stores an 8.3 name under the condition only. -/
theorem Does.dosName_iff (h : Does qsort d c (.ok ()) d') (hf : c.named = some f) :
    DosName (d'.file f).shortname ↔ KeepsDos d c := by
  cases h with
  | created hc ha hcheck hs =>
    rw [keepsDos_create hc hcheck, ← shortnameOf_dosName hs]
    cases hf.symm.trans (named_of_alloc ha)
    simp [addFile]
  | stays hcheck hp =>
    cases hf
    rw [KeepsDos, if_pos hp]
  | moved hcheck hp hne hfind hs =>
    cases hf
    rw [VdfDrive.modifyFile_self, shortnameOf_dosName hs, KeepsDos, if_neg (by simpa [hp] using hne)]
    exact ⟨fun h _ => h, fun h => h ⟨hcheck, by simpa [hp] using hne, hfind⟩⟩
  | renamed hd hp hl hv hdup hfind hs =>
    cases hf
    rw [setDriveDirty_file, VdfDrive.modifyFile_self, shortnameOf_dosName hs]
    have hnum := mt shortnameOf_eq_none.2 (by rw [hs]; simp)
    refine ⟨fun h q hacc => ?_, fun h => ?_⟩
    · cases hp.symm.trans hacc.2.1
      exact .inr ⟨hnum, h⟩
    · exact ((h _ ⟨hd, hp, hl, hv, hfind, hdup⟩).resolve_left fun h => hnum h.1).2
  | renameFailed hd hp hl hv hdup hfind hs =>
    cases hf
    rw [setDriveDirty_file, VdfDrive.modifyFile_self]
    have hnum := shortnameOf_eq_none.1 hs
    refine ⟨fun h q hacc => ?_, fun h => ?_⟩
    · cases hp.symm.trans hacc.2.1
      exact .inl ⟨hnum, h⟩
    · exact ((h _ ⟨hd, hp, hl, hv, hfind, hdup⟩).resolve_right fun h => h.1 hnum).2
  | shortRenamed hd hp hl hv hfit hfind =>
    cases hf
    rw [setDriveDirty_file, VdfDrive.modifyFile_self, dosName_map_toupper hv hfit]
    exact ⟨fun h _ _ => h, fun h => h _ ⟨hd, hp, hl, hv, hfit, hfind⟩⟩
  | _ => cases hf

/-- Other calls, and calls that fail, keep the short name. -/
theorem Rewrite.shortname {fil : VdfFile} (h : Rewrite d x c r fil)
    (hc : r = .ok () → c.named ≠ some x) : fil.shortname = (d.file x).shortname := by
  cases h with
  | moved | renamed | shortRenamed => exact absurd rfl (hc rfl)
  | _ => rfl

/-- Every file below the root has an 8.3 name. -/
def DosNamed (w : World) : Prop :=
  ∀ x ∈ w.handles, x ≠ w.drive.rootDir → DosName (w.drive.file x).shortname

theorem DosNamed.step (h : DosNamed w) (hl : Linked w) (hok : KeepsDos w.drive c)
    (hs : w.Step qsort c r w') : DosNamed w' := by
  obtain ⟨hdoes, hw', -⟩ := hl.does hs
  intro x hx hroot
  rw [hw', World.after_handles] at hx
  rw [hdoes.rootDir] at hroot
  by_cases hn : r = .ok () ∧ c.named = some x
  · obtain ⟨rfl, hn⟩ := hn
    exact (hdoes.dosName_iff hn).2 hok
  · have hx := hx.resolve_right fun h => hn ⟨h.1, named_of_alloc h.2⟩
    have hxn : c.alloc ≠ some x := fun ha => hs.alloc x ha hx
    rw [(hdoes.rewrite hxn).shortname fun hr hf => hn ⟨hr, hf⟩]
    exact h x hx hroot

/-- A call that succeeds stores an 8.3 name under the condition only, whatever the calls before it;
in every run of calls that meet it each file has one. -/
theorem shortnames_dos (hcreate : World.create size flags ext junk = some w₀) :
    (∀ w c w' f, Run qsort (fun _ _ => True) w₀ w → w.Step qsort c (.ok ()) w' →
      c.named = some f → (StoresDos (w'.drive.file f).shortname ↔ KeepsDos w.drive c)) ∧
    ∀ w, Run qsort (fun w => KeepsDos w.drive) w₀ w →
      ∀ x ∈ w.handles, x ≠ w.drive.rootDir → StoresDos (w.drive.file x).shortname := by
  have hlinked := (rooted_create hcreate).linked
  constructor
  · intro w c w' f run hs hf
    have hl : Linked w := run.induct hlinked fun _ h hs => h.step hs
    rw [storesDos_iff, (hl.does hs).1.dosName_iff hf]
  · intro w run x hx hroot
    have hfirst : DosNamed w₀ := by
      obtain ⟨d, hd, rfl⟩ := Option.map_eq_some_iff.1 hcreate
      exact fun x hx hne => absurd (List.mem_singleton.1 hx) hne
    have h := run.induct (P := fun w => Linked w ∧ DosNamed w) ⟨hlinked, hfirst⟩
      fun hok ⟨hl, h⟩ hs => ⟨hl.step hs, h.step hl hok hs⟩
    exact storesDos_iff.2 (h.2 x hx hroot)

/-- The file `.a` has a short name without a base. -/
theorem shortnames_dos_dot :
    ∃ w w', sampleRun [] = some w ∧
      w.Step id (.addFileVirt 0 [0x2e, 0x61] 0 (some 1) true 0) (.ok ()) w' ∧
      filenameValid [0x2e, 0x61] = true ∧ (w'.drive.file 1).shortname = [0x2e, 0x41] ∧
      ¬ StoresDos (w'.drive.file 1).shortname := by
  obtain ⟨w, r, w', hw, hs, rfl, h⟩ := sampleStep_exists (l := [])
    (c := .addFileVirt 0 [0x2e, 0x61] 0 (some 1) true 0)
    (P := fun _ r w' => r = .ok () ∧ (w'.drive.file 1).shortname = [0x2e, 0x41]) (by decide)
  refine ⟨w, w', hw, hs, by decide, h, fun hdos => ?_⟩
  rw [storesDos_iff, h] at hdos
  exact ((dosName_dotted (b := []) (e := some [0x41]) nofun).1 hdos).1.nonempty rfl

theorem shortnames_dos_sample :
    ∃ w, sampleRun [sampleDir, sampleFile] = some w ∧
      StoresDos (w.drive.file 1).shortname ∧ StoresDos (w.drive.file 2).shortname := by
  have hparts : KeepsParts [0x41] ∧ KeepsParts [0x42] := by
    constructor <;> exact ⟨⟨_, List.mem_cons_self, by decide⟩, nofun⟩
  obtain ⟨w₀, w, hcreate, run, h⟩ := sample_run (k := fun w => KeepsDos w.drive)
    (fun _ _ _ hc _ => by cases hc; exact hparts.1) fun _ _ _ hc _ => by cases hc; exact hparts.2
  obtain ⟨w', h', hmem⟩ := sampleRun_exists (l := [sampleDir, sampleFile])
    (P := fun w => (1 ∈ w.handles ∧ 1 ≠ w.drive.rootDir) ∧ 2 ∈ w.handles ∧ 2 ≠ w.drive.rootDir)
    (by decide)
  cases h.symm.trans h'
  have hdos := (shortnames_dos hcreate).2 w run
  exact ⟨w, h, hdos 1 hmem.1.1 hmem.1.2, hdos 2 hmem.2.1 hmem.2.2⟩

end Calls

end Vdf
