import Vdf.Lib.Record
import Vdf.Lib.Packed
import Vdf.Lib.BigEndian

/-!
# Bytes that are there already

`Shows m a n f`: where the image `f` has a byte, it is the one that the buffer has from `a` on.
Storing the image once more changes nothing, so whatever holds of a buffer that a record or a table
was stored to holds of one that shows it. The slices of an image are shown with it.
-/

namespace Buffer

/-- The `n` bytes from `a` on are those of the image, where it has one. -/
def Shows (m : Buffer) (a n : Nat) (f : Nat → Option UInt8) : Prop :=
  ∀ j < n, ∀ b, f j = some b → m (a + j) = b

theorem shows_overlay (m : Buffer) (a n : Nat) (f : Nat → Option UInt8) :
    (m.overlay a n f).Shows a n f := fun j hj b hb => by
  rw [overlay_inside _ _ hj, hb, Option.getD_some]

namespace Shows

variable {m : Buffer} {a n : Nat} {f g : Nat → Option UInt8}

theorem overlay_self (h : m.Shows a n f) : m.overlay a n f = m := by
  funext x
  unfold overlay
  split
  · rename_i hx
    cases hb : f (x - a) with
    | none => rfl
    | some b =>
      have hm := h (x - a) (by omega) b hb
      rw [Nat.add_sub_cancel' hx.1] at hm
      exact hm.symm
  · rfl

theorem slice (h : m.Shows a n f) {o k : Nat} (hk : o + k ≤ n) :
    m.Shows (a + o) k fun j => f (o + j) := fun j hj b hb => by
  rw [Nat.add_assoc]
  exact h (o + j) (by omega) b hb

theorem take (h : m.Shows a n f) {k : Nat} (hk : k ≤ n) : m.Shows a k f :=
  fun j hj => h j (Nat.lt_of_lt_of_le hj hk)

theorem congr (h : m.Shows a n f) (hf : ∀ j < n, g j = f j) : m.Shows a n g :=
  fun j hj b hb => h j hj b ((hf j hj).symm.trans hb)

/-- A part that is written behind what is shown. -/
theorem append {m' : Buffer} {k : Nat} (h : m.Shows a k f) (hout : AgreeOutside (a + k) n m m')
    (h' : m'.Shows (a + k) n fun j => f (k + j)) : m'.Shows a (k + n) f := by
  intro j hj b hb
  by_cases hlt : j < k
  · rw [hout (a + j) (.inl (by omega))]
    exact h j hlt b hb
  · obtain ⟨i, rfl⟩ : ∃ i, j = k + i := ⟨j - k, by omega⟩
    rw [← Nat.add_assoc]
    exact h' i (by omega) b hb

/-- A copy of bytes that show the image. -/
theorem copy_slice {s : Buffer} {o : Nat} (h : s.Shows o n f) (m : Buffer) (a : Nat) :
    (m.copy a (s.slice o n)).Shows a n f := by
  intro j hj b hb
  rw [copy_eq_overlay, length_slice, overlay_inside _ _ hj, Option.getD_some,
    List.getD_eq_getElem?_getD, List.getElem?_eq_getElem (by rwa [length_slice]), Option.getD_some,
    getElem_slice]
  exact h j hj b hb

/-- Two places that show one image without gaps have the same bytes. -/
theorem slice_eq {b : Nat} (h : m.Shows a n f) (h' : m.Shows b n f)
    (hf : ∀ j < n, ∃ x, f j = some x) : m.slice b n = m.slice a n := by
  refine List.map_congr_left fun j hj => ?_
  obtain ⟨x, hx⟩ := hf j (List.mem_range.mp hj)
  rw [h j (List.mem_range.mp hj) x hx, h' j (List.mem_range.mp hj) x hx]

/-! ## Records -/

theorem store_self {r : Record} (h : m.Shows a n r.byte) (hr : r.Within n) : m.store a r = m := by
  rw [store_eq_overlay m a hr, h.overlay_self]

theorem storeAll_self {w : Nat} (hw : 0 < w) {rs : List Record} (hrs : ∀ r ∈ rs, r.Within w)
    (h : m.Shows a (w * rs.length) (tableByte w rs)) : storeAll w m a rs = m := by
  rw [storeAll_eq_overlay hw m a hrs, h.overlay_self]

/-! ## Tables -/

theorem get16_entry {t : Nat → Nat} (h : m.Shows a n fun j => some (entryByte 2 t j)) {c : Nat}
    (hc : (c + 1) * 2 ≤ n) : m.get16 (a + c * 2) = t c % 2 ^ 16 := by
  have hbyte (k : Nat) (hk : k < 2) : m (a + c * 2 + k) = leByte (t c) k := by
    rw [Nat.add_assoc]
    exact h _ (by omega) _ (congrArg some (entryByte_mul_add t hk))
  have h0 := hbyte 0 (by decide)
  rw [Nat.add_zero] at h0
  rw [get16, h0, hbyte 1 (by decide), toNat_leByte, toNat_leByte]
  omega

theorem get32_entry {t : Nat → Nat} (h : m.Shows a n fun j => some (entryByte 4 t j)) {c : Nat}
    (hc : (c + 1) * 4 ≤ n) : m.get32 (a + c * 4) = t c % 2 ^ 32 := by
  have hbyte (k : Nat) (hk : k < 4) : m (a + c * 4 + k) = leByte (t c) k := by
    rw [Nat.add_assoc]
    exact h _ (by omega) _ (congrArg some (entryByte_mul_add t hk))
  have h0 := hbyte 0 (by decide)
  rw [Nat.add_zero] at h0
  rw [get32, get16, get16, h0, hbyte 1 (by decide), hbyte 2 (by decide), Nat.add_assoc _ 2 1,
    hbyte 3 (by decide)]
  simp only [toNat_leByte]
  omega

/-- An even entry has the first byte of its three and the low half of the second. -/
theorem packed_even {t : Nat → Nat} (h : m.Shows a n fun j => some (packedByte t j)) {k : Nat}
    (hk : 3 * k + 1 < n) : m.get16 (a + 3 * k) % 4096 = t (2 * k) % 4096 := by
  have h0 := h (3 * k) (by omega) _ (congrArg some (packedByte_zero t k))
  have h1 := h (3 * k + 1) hk _ (congrArg some (packedByte_one t k))
  rw [get16, h0, Nat.add_assoc, h1]
  simp only [UInt8.toNat_ofNat']
  omega

theorem packed_odd {t : Nat → Nat} (h : m.Shows a n fun j => some (packedByte t j)) {k : Nat}
    (hk : 3 * k + 2 < n) : m.get16 (a + (3 * k + 1)) / 16 = t (2 * k + 1) % 4096 := by
  have h1 := h (3 * k + 1) (by omega) _ (congrArg some (packedByte_one t k))
  have h2 := h (3 * k + 2) hk _ (congrArg some (packedByte_two t k))
  rw [get16, h1, Nat.add_assoc, h2]
  simp only [UInt8.toNat_ofNat']
  omega

end Shows

end Buffer
