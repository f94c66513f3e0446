import Vdf.Lib.Buffer
import Mathlib.Data.List.Induction

/-!
# Packed records

A record is filled field by field: `Record` lists the fields in program order, each with its offset
and bytes. The last field that covers a byte decides it (`Record.byte`), and a byte that no field
covers keeps its value. A table of records of one size is one overlay (`storeAll_eq_overlay`).
-/

/-- The fields that are assigned, with their offsets, in order. -/
abbrev Record := List (Nat × List UInt8)

namespace Record

open Buffer

/-- Byte `j` of a record, if a field covers it. -/
def byte (r : Record) (j : Nat) : Option UInt8 :=
  r.foldl (fun b w => if w.1 ≤ j ∧ j < w.1 + w.2.length then some (w.2.getD (j - w.1) 0) else b) none

/-- `n` zero bytes. -/
def zero (n : Nat) : Record := [(0, List.replicate n 0)]

/-- The fields lie in the first `n` bytes. -/
def Within (r : Record) (n : Nat) : Prop := ∀ w ∈ r, w.1 + w.2.length ≤ n

instance (r : Record) (n : Nat) : Decidable (r.Within n) :=
  inferInstanceAs (Decidable (∀ w ∈ r, w.1 + w.2.length ≤ n))

@[simp] theorem byte_nil (j : Nat) : byte [] j = none := rfl

theorem byte_concat (r : Record) (o : Nat) (l : List UInt8) (j : Nat) :
    byte (r ++ [(o, l)]) j = if o ≤ j ∧ j < o + l.length then some (l.getD (j - o) 0) else r.byte j := by
  simp only [byte, List.foldl_append, List.foldl_cons, List.foldl_nil]

@[simp] theorem byte_append (r s : Record) (j : Nat) : byte (r ++ s) j = (s.byte j).or (r.byte j) := by
  induction s using List.reverseRecOn with
  | nil => simp
  | append_singleton s w ih =>
    obtain ⟨o, l⟩ := w
    rw [← List.append_assoc, byte_concat, byte_concat, ih]
    split <;> simp

theorem byte_zero {n j : Nat} (h : j < n) : (zero n).byte j = some 0 := by
  simp [zero, byte, h]

theorem zero_within (n : Nat) : (zero n).Within n := by
  intro w hw
  rw [List.mem_singleton.mp hw]
  simp

@[simp] theorem byte_cons (o : Nat) (l : List UInt8) (r : Record) (j : Nat) : byte ((o, l) :: r) j =
    (r.byte j).or (if o ≤ j ∧ j < o + l.length then some (l.getD (j - o) 0) else none) :=
  byte_append [(o, l)] r j

theorem Within.append {r s : Record} {n : Nat} (hr : r.Within n) (hs : s.Within n) :
    Within (r ++ s) n := fun w hw => (List.mem_append.mp hw).elim (hr w) (hs w)

theorem Within.mono {r : Record} {n k : Nat} (h : r.Within n) (hk : n ≤ k) : r.Within k :=
  fun w hw => Nat.le_trans (h w hw) hk

/-- A byte has a value iff some field covers it. -/
theorem byte_eq_none {r : Record} {j : Nat} :
    r.byte j = none ↔ ∀ w ∈ r, ¬ (w.1 ≤ j ∧ j < w.1 + w.2.length) := by
  induction r using List.reverseRecOn with
  | nil => simp
  | append_singleton r w ih =>
    obtain ⟨o, l⟩ := w
    rw [byte_concat]
    by_cases h : o ≤ j ∧ j < o + l.length
    · rw [if_pos h]
      simp only [reduceCtorEq, false_iff, not_forall]
      exact ⟨(o, l), by simp, fun hn => hn h⟩
    · rw [if_neg h, ih]
      constructor
      · intro hr w hw
        rcases List.mem_append.mp hw with hw | hw
        · exact hr w hw
        · rw [List.mem_singleton.mp hw]; exact h
      · exact fun hr w hw => hr w (by simp [hw])

/-- A byte on which all fields that cover it agree. -/
theorem byte_of_covers {r : Record} {j : Nat} {b : UInt8}
    (hex : ∃ w ∈ r, w.1 ≤ j ∧ j < w.1 + w.2.length)
    (h : ∀ w ∈ r, w.1 ≤ j → j < w.1 + w.2.length → w.2.getD (j - w.1) 0 = b) :
    r.byte j = some b := by
  induction r using List.reverseRecOn with
  | nil =>
    obtain ⟨w, hw, -⟩ := hex
    cases hw
  | append_singleton r w ih =>
    obtain ⟨o, l⟩ := w
    rw [byte_concat]
    by_cases hc : o ≤ j ∧ j < o + l.length
    · rw [if_pos hc, h (o, l) (by simp) hc.1 hc.2]
    · rw [if_neg hc]
      obtain ⟨v, hv, hv'⟩ := hex
      have hv : v ∈ r := by
        rcases List.mem_append.mp hv with hv | hv
        · exact hv
        · rw [List.mem_singleton.mp hv] at hv'
          exact absurd hv' hc
      exact ih ⟨v, hv, hv'⟩ fun u hu => h u (by simp [hu])

/-- The fields lie in bytes `a .. b`. -/
def Between (r : Record) (a b : Nat) : Prop := ∀ w ∈ r, a ≤ w.1 ∧ w.1 + w.2.length ≤ b

theorem Between.within {r : Record} {a b n : Nat} (h : r.Between a b) (hn : b ≤ n) : r.Within n :=
  fun w hw => Nat.le_trans (h w hw).2 hn

theorem Between.append {r s : Record} {a b : Nat} (hr : r.Between a b) (hs : s.Between a b) :
    Between (r ++ s) a b := fun w hw => (List.mem_append.mp hw).elim (hr w) (hs w)

theorem Between.mono {r : Record} {a b a' b' : Nat} (h : r.Between a b) (ha : a' ≤ a)
    (hb : b ≤ b') : r.Between a' b' :=
  fun w hw => ⟨Nat.le_trans ha (h w hw).1, Nat.le_trans (h w hw).2 hb⟩

/-! ## Bytes that are left out -/

/-- The first `n` bytes have a value. -/
def Covers (r : Record) (n : Nat) : Prop := ∀ j < n, r.byte j ≠ none

theorem covers_zero (n : Nat) : (zero n).Covers n := fun j hj => by
  rw [byte_zero hj]
  exact Option.some_ne_none _

/-- A record of `n` bytes covers no more. -/
theorem Within.covers_iff {r : Record} {n k : Nat} (h : r.Within n) (hle : n ≤ k) :
    r.Covers k ↔ k = n ∧ r.Covers n := by
  constructor
  · intro hc
    have hn : k = n := by
      by_contra hne
      refine hc n (by omega) (byte_eq_none.mpr fun w hw hin => ?_)
      have := h w hw
      omega
    exact ⟨hn, hn ▸ hc⟩
  · rintro ⟨rfl, hc⟩
    exact hc

/-! ## Fields that survive -/

/-- No field touches the `w` bytes at `o`. -/
def Avoids (r : Record) (o w : Nat) : Prop := ∀ x ∈ r, o + w ≤ x.1 ∨ x.1 + x.2.length ≤ o

theorem Between.avoids {r : Record} {a b o w : Nat} (h : r.Between a b) (ho : o + w ≤ a ∨ b ≤ o) :
    r.Avoids o w := fun x hx => by
  have := h x hx
  omega

theorem Avoids.append {r s : Record} {o w : Nat} (hr : r.Avoids o w) (hs : s.Avoids o w) :
    Avoids (r ++ s) o w := fun x hx => (List.mem_append.mp hx).elim (hr x) (hs x)

theorem Avoids.byte {r : Record} {o w k : Nat} (h : r.Avoids o w) (hk : k < w) :
    r.byte (o + k) = none :=
  byte_eq_none.mpr fun x hx hc => by
    rcases h x hx with h | h <;> omega

/-- The `w` bytes at `o` are the little-endian form of `v`. -/
def Holds (r : Record) (o w v : Nat) : Prop := ∀ k < w, r.byte (o + k) = some (leByte v k)

theorem Holds.append {r s : Record} {o w v : Nat} (h : r.Holds o w v) (hs : s.Avoids o w) :
    Holds (r ++ s) o w v := fun k hk => by
  rw [byte_append, hs.byte hk, h k hk]
  rfl

theorem Holds.prepend {s : Record} {o w v : Nat} (h : s.Holds o w v) (r : Record) :
    Holds (r ++ s) o w v := fun k hk => by
  rw [byte_append, h k hk]
  rfl

theorem holds_singleton (o w v : Nat) : Holds [(o, le w v)] o w v := fun k hk => by
  rw [byte_cons, length_le, if_pos (by omega), Nat.add_sub_cancel_left, getD_le hk]
  rfl

/-- A value of which no later field touches a byte. -/
theorem holds_of_last (r : Record) {s : Record} {o w : Nat} (v : Nat) (hs : s.Avoids o w) :
    Holds (r ++ (o, le w v) :: s) o w v :=
  ((holds_singleton o w v).append hs).prepend r

end Record

namespace Buffer

/-- The assignments of the fields of a record at `a`. -/
def store (m : Buffer) (a : Nat) (r : Record) : Buffer :=
  r.foldl (fun m w => m.copy (a + w.1) w.2) m

@[simp] theorem store_nil (m : Buffer) (a : Nat) : m.store a [] = m := rfl

theorem store_append (m : Buffer) (a : Nat) (r s : Record) :
    m.store a (r ++ s) = (m.store a r).store a s := by simp only [store, List.foldl_append]

theorem store_eq_overlay (m : Buffer) (a : Nat) {r : Record} {n : Nat} (h : r.Within n) :
    m.store a r = m.overlay a n r.byte := by
  induction r using List.reverseRecOn with
  | nil =>
    funext x
    simp only [store_nil, overlay, Record.byte_nil, Option.getD_none, ite_self]
  | append_singleton r w ih =>
    obtain ⟨o, l⟩ := w
    have hw : o + l.length ≤ n := h (o, l) (by simp)
    rw [store_append, ih fun v hv => h v (by simp [hv])]
    funext x
    show copy _ (a + o) l x = _
    simp only [copy, overlay, Record.byte_concat]
    by_cases h1 : a + o ≤ x ∧ x < a + o + l.length
    · rw [if_pos h1, if_pos (by omega), if_pos (by omega : o ≤ x - a ∧ x - a < o + l.length),
        Nat.sub_add_eq, Option.getD_some]
    · rw [if_neg h1]
      by_cases h2 : a ≤ x ∧ x < a + n
      · rw [if_pos h2, if_pos h2, if_neg (by omega)]
      · rw [if_neg h2, if_neg h2]

theorem AgreeOutside.store (m : Buffer) (a : Nat) {r : Record} {n : Nat} (h : r.Within n) :
    AgreeOutside a n m (m.store a r) := by
  rw [store_eq_overlay m a h]
  exact .overlay m a n r.byte

/-- A record leaves what is in front of it alone. -/
theorem store_below (m : Buffer) {a x : Nat} (r : Record) (h : x < a) : m.store a r x = m x := by
  induction r generalizing m with
  | nil => rfl
  | cons w r ih =>
    show (m.copy (a + w.1) w.2).store a r x = m x
    rw [ih, copy, if_neg (by omega)]

theorem store_zero (m : Buffer) (a n : Nat) : m.store a (Record.zero n) = m.fill a n 0 := by
  rw [store_eq_overlay m a (Record.zero_within n), fill_eq_overlay]
  exact overlay_congr fun j hj => Record.byte_zero hj

/-- A stored value is read back. -/
theorem get16_store (m : Buffer) (p : Nat) {r : Record} {n o v : Nat} (hw : r.Within n)
    (ho : o + 1 < n) (h : r.Holds o 2 v) : (m.store p r).get16 (p + o) = v % 65536 := by
  have h0 := h 0 (by decide)
  have h1 := h 1 (by decide)
  rw [Nat.add_zero] at h0
  rw [store_eq_overlay m p hw, get16, Nat.add_assoc, overlay_inside _ _ (by omega),
    overlay_inside _ _ ho, h0, h1]
  simp only [Option.getD_some, toNat_leByte]
  omega

theorem get32_store (m : Buffer) (p : Nat) {r : Record} {n o v : Nat} (hw : r.Within n)
    (ho : o + 3 < n) (h : r.Holds o 4 v) : (m.store p r).get32 (p + o) = v % 2 ^ 32 := by
  have h0 := h 0 (by decide)
  have h1 := h 1 (by decide)
  have h2 := h 2 (by decide)
  have h3 := h 3 (by decide)
  rw [store_eq_overlay m p hw, get32, get16, get16, Nat.add_assoc p o 1, Nat.add_assoc p o 2,
    Nat.add_assoc p (o + 2) 1, ← Nat.add_zero o, overlay_inside _ _ (by omega),
    overlay_inside _ _ (by omega), overlay_inside _ _ (by omega), overlay_inside _ _ (by omega),
    h0, h1, h2, h3]
  simp only [Option.getD_some, toNat_leByte]
  omega

/-! ## Tables of records -/

/-- The records `rs`, `w` bytes apart, from `a` on. -/
def storeAll (w : Nat) (m : Buffer) (a : Nat) : List Record → Buffer
  | [] => m
  | r :: rs => storeAll w (m.store a r) (a + w) rs

/-- Byte `j` of a table of records. Behind the table there is none. -/
def tableByte (w : Nat) (rs : List Record) (j : Nat) : Option UInt8 :=
  Record.byte (rs.getD (j / w) []) (j % w)

theorem storeAll_append (w : Nat) (m : Buffer) (a : Nat) (rs ss : List Record) :
    storeAll w m a (rs ++ ss) = storeAll w (storeAll w m a rs) (a + w * rs.length) ss := by
  induction rs generalizing m a with
  | nil => simp [storeAll]
  | cons r rs ih =>
    rw [List.cons_append, storeAll, storeAll, ih, List.length_cons]
    congr 1
    rw [Nat.mul_succ]
    omega

theorem tableByte_cons_lt {w j : Nat} (r : Record) (rs : List Record) (h : j < w) :
    tableByte w (r :: rs) j = r.byte j := by
  rw [tableByte, Nat.div_eq_of_lt h, Nat.mod_eq_of_lt h]; rfl

theorem tableByte_cons_add {w : Nat} (hw : 0 < w) (r : Record) (rs : List Record) (j : Nat) :
    tableByte w (r :: rs) (w + j) = tableByte w rs j := by
  rw [tableByte, tableByte, Nat.add_div_left j hw, Nat.add_mod_left]; rfl

/-- The last byte of a table is the last one of a record. -/
theorem tableByte_last {w : Nat} (hw : 0 < w) {rs : List Record} (hne : rs ≠ []) :
    ∃ r ∈ rs, tableByte w rs (w * rs.length - 1) = r.byte (w - 1) := by
  obtain ⟨n, hn⟩ : ∃ n, rs.length = n + 1 :=
    ⟨rs.length - 1, by have := List.length_pos_iff.mpr hne; omega⟩
  have e : w * rs.length - 1 = w * n + (w - 1) := by rw [hn, Nat.mul_succ]; omega
  refine ⟨rs[n], List.getElem_mem _, ?_⟩
  rw [tableByte, e, Nat.mul_add_div hw, Nat.div_eq_of_lt (by omega), Nat.mul_add_mod,
    Nat.mod_eq_of_lt (by omega), Nat.add_zero, List.getD_eq_getElem?_getD,
    List.getElem?_eq_getElem (by omega), Option.getD_some]

theorem storeAll_eq_overlay {w : Nat} (hw : 0 < w) (m : Buffer) (a : Nat) {rs : List Record}
    (h : ∀ r ∈ rs, r.Within w) :
    storeAll w m a rs = m.overlay a (w * rs.length) (tableByte w rs) := by
  induction rs generalizing m a with
  | nil => simp [storeAll]
  | cons r rs ih =>
    rw [storeAll, ih _ _ fun s hs => h s (.tail _ hs), store_eq_overlay m a (h r (List.mem_cons_self ..)),
      overlay_overlay, List.length_cons, Nat.mul_succ, Nat.add_comm w]
    refine overlay_congr fun j _ => ?_
    rw [glue]
    split
    · rename_i hj; rw [tableByte_cons_lt r rs hj]
    · rename_i hj
      rw [← tableByte_cons_add hw r rs (j - w)]
      congr 1
      omega

/-- Byte `j` of record `k` of a table. -/
theorem storeAll_byte {w : Nat} (m : Buffer) (a : Nat) {rs : List Record}
    (h : ∀ r ∈ rs, r.Within w) {k j : Nat} (hk : k < rs.length) (hj : j < w) :
    storeAll w m a rs (a + w * k + j) = (rs[k].byte j).getD (m (a + w * k + j)) := by
  have hlt : w * k + j < w * rs.length :=
    Nat.lt_of_lt_of_le (by rw [Nat.mul_succ]; omega) (Nat.mul_le_mul_left w hk)
  have hdiv : (w * k + j) / w = k := by
    rw [Nat.mul_add_div (by omega), Nat.div_eq_of_lt hj, Nat.add_zero]
  have hmod : (w * k + j) % w = j := by rw [Nat.mul_add_mod, Nat.mod_eq_of_lt hj]
  rw [storeAll_eq_overlay (by omega) m a h, Nat.add_assoc, overlay_inside _ _ hlt, tableByte, hdiv,
    hmod, List.getD_eq_getElem?_getD, List.getElem?_eq_getElem hk, Option.getD_some]

/-- A table has all its bytes iff its records do. -/
theorem tableByte_ne_none_iff {w : Nat} (hw : 0 < w) {rs : List Record} :
    (∀ j < w * rs.length, tableByte w rs j ≠ none) ↔ ∀ r ∈ rs, r.Covers w := by
  constructor
  · intro h r hr j hj
    obtain ⟨k, hk, rfl⟩ := List.mem_iff_getElem.mp hr
    have hlt : w * k + j < w * rs.length :=
      Nat.lt_of_lt_of_le (by rw [Nat.mul_succ]; omega) (Nat.mul_le_mul_left w hk)
    have hbyte := h _ hlt
    rwa [tableByte, Nat.mul_add_div hw, Nat.div_eq_of_lt hj, Nat.add_zero, Nat.mul_add_mod,
      Nat.mod_eq_of_lt hj, List.getD_eq_getElem?_getD, List.getElem?_eq_getElem hk,
      Option.getD_some] at hbyte
  · intro h j hj
    have hk : j / w < rs.length := Nat.div_lt_of_lt_mul hj
    rw [tableByte, List.getD_eq_getElem?_getD, List.getElem?_eq_getElem hk, Option.getD_some]
    exact h _ (List.getElem_mem hk) _ (Nat.mod_lt _ hw)

/-- Zero records are a fill. -/
theorem storeAll_zero {w : Nat} (m : Buffer) (a n : Nat) :
    storeAll w m a (List.replicate n (Record.zero w)) = m.fill a (n * w) 0 := by
  induction n generalizing m a with
  | zero => simp [storeAll]
  | succ n ih =>
    rw [List.replicate_succ, storeAll, store_zero, ih, fill_eq_overlay, fill_eq_overlay,
      overlay_overlay, fill_eq_overlay, Nat.succ_mul, Nat.add_comm w]
    exact overlay_congr fun j _ => by rw [glue, ite_self]

end Buffer
