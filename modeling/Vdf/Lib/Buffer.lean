import Mathlib.Algebra.Group.Nat.Defs
import Mathlib.Data.List.Basic

/-!
# Byte buffers

A buffer is a total map from addresses to bytes; a pointer is an address. Every store of a C
program (`*p = v`, `memcpy`, `memset`, the assignment of a packed struct field) is an
`overlay`: `len` bytes at `a` are replaced by an image, and every other byte keeps its value. An
image may leave bytes of its range as they were (`none`). Two adjacent overlays are one
(`overlay_overlay`), so the effect of a loop of stores is one overlay.
-/

/-- The bytes of an address space. -/
abbrev Buffer := Nat → UInt8

namespace Buffer

/-- Bytes `a .. a + len` become the image `f`; where `f` is `none` they keep their value. -/
def overlay (m : Buffer) (a len : Nat) (f : Nat → Option UInt8) : Buffer :=
  fun x => if a ≤ x ∧ x < a + len then (f (x - a)).getD (m x) else m x

/-- `*a = v`. -/
def set (m : Buffer) (a : Nat) (v : UInt8) : Buffer := fun x => if x = a then v else m x

/-- `memset(a, v, len)`. -/
def fill (m : Buffer) (a len : Nat) (v : UInt8) : Buffer :=
  fun x => if a ≤ x ∧ x < a + len then v else m x

/-- `memcpy` of the bytes `l` to `a`. -/
def copy (m : Buffer) (a : Nat) (l : List UInt8) : Buffer :=
  fun x => if a ≤ x ∧ x < a + l.length then l.getD (x - a) 0 else m x

/-- The two images one after the other: `f` for the first `k` bytes, then `g`. -/
def glue (k : Nat) (f g : Nat → Option UInt8) : Nat → Option UInt8 :=
  fun j => if j < k then f j else g (j - k)

@[simp] theorem overlay_zero (m : Buffer) (a : Nat) (f : Nat → Option UInt8) :
    m.overlay a 0 f = m := by
  funext x; simp only [overlay]; split
  · omega
  · rfl

theorem overlay_congr {m : Buffer} {a len : Nat} {f g : Nat → Option UInt8}
    (h : ∀ j, j < len → f j = g j) : m.overlay a len f = m.overlay a len g := by
  funext x; simp only [overlay]; split
  · rw [h (x - a) (by omega)]
  · rfl

theorem overlay_overlay (m : Buffer) (a k n : Nat) (f g : Nat → Option UInt8) :
    (m.overlay a k f).overlay (a + k) n g = m.overlay a (k + n) (glue k f g) := by
  funext x
  simp only [overlay, glue]
  by_cases h1 : a + k ≤ x ∧ x < a + k + n
  · rw [if_pos h1, if_neg (by omega : ¬ (a ≤ x ∧ x < a + k)), if_pos (by omega),
      if_neg (by omega : ¬ x - a < k), Nat.sub_add_eq]
  · rw [if_neg h1]
    by_cases h2 : a ≤ x ∧ x < a + k
    · rw [if_pos h2, if_pos (by omega), if_pos (by omega : x - a < k)]
    · rw [if_neg h2, if_neg (by omega)]

/-- Adjacent overlays whose images are consecutive slices of one image. -/
theorem overlay_slice (m : Buffer) (a k n o : Nat) (f : Nat → Option UInt8) :
    (m.overlay a k fun j => f (o + j)).overlay (a + k) n (fun j => f (o + k + j)) =
      m.overlay a (k + n) fun j => f (o + j) := by
  rw [overlay_overlay]
  refine overlay_congr fun j _ => ?_
  simp only [glue]
  split
  · rfl
  · congr 1; omega

/-- A byte outside the range is unchanged. -/
theorem overlay_outside {m : Buffer} {a len x : Nat} {f : Nat → Option UInt8}
    (h : x < a ∨ a + len ≤ x) : m.overlay a len f x = m x := by
  simp only [overlay]; rw [if_neg (by omega)]

theorem overlay_inside (m : Buffer) {a len j : Nat} (f : Nat → Option UInt8) (h : j < len) :
    m.overlay a len f (a + j) = (f j).getD (m (a + j)) := by
  simp only [overlay]; rw [if_pos (by omega)]; congr 2; omega

/-- Equal overlays have equal images, where both are defined. -/
theorem overlay_inj {m : Buffer} {a len : Nat} {f g : Nat → UInt8}
    (h : (m.overlay a len fun j => some (f j)) = m.overlay a len fun j => some (g j))
    {j : Nat} (hj : j < len) : f j = g j := by
  have := congrFun h (a + j)
  rwa [overlay_inside _ _ hj, overlay_inside _ _ hj] at this

theorem set_eq_overlay (m : Buffer) (a : Nat) (v : UInt8) :
    m.set a v = m.overlay a 1 fun _ => some v := by
  funext x
  simp only [set, overlay, Option.getD_some]
  by_cases h : x = a
  · rw [if_pos h, if_pos (by omega)]
  · rw [if_neg h, if_neg (by omega)]

theorem fill_eq_overlay (m : Buffer) (a len : Nat) (v : UInt8) :
    m.fill a len v = m.overlay a len fun _ => some v := rfl

theorem copy_eq_overlay (m : Buffer) (a : Nat) (l : List UInt8) :
    m.copy a l = m.overlay a l.length fun j => some (l.getD j 0) := rfl

/-- A copy and zeros behind it. -/
theorem copy_zeros_eq_overlay (m : Buffer) (a : Nat) {l : List UInt8} {n : Nat} (h : l.length ≤ n) :
    (m.copy a l).fill (a + l.length) (n - l.length) 0 = m.overlay a n fun j => some (l.getD j 0) := by
  rw [copy_eq_overlay, fill_eq_overlay, overlay_overlay, Nat.add_sub_of_le h]
  refine overlay_congr fun j _ => ?_
  rw [glue]
  split
  · rfl
  · rw [List.getD_eq_getElem?_getD, List.getElem?_eq_none (by omega), Option.getD_none]

@[simp] theorem fill_zero (m : Buffer) (a : Nat) (v : UInt8) : m.fill a 0 v = m := by
  rw [fill_eq_overlay, overlay_zero]

theorem set_outside {m : Buffer} {a x : Nat} {v : UInt8} (h : x ≠ a) : m.set a v x = m x :=
  if_neg h

/-! ## What is left alone -/

/-- `m'` is `m` but for the `len` bytes from `a` on. -/
def AgreeOutside (a len : Nat) (m m' : Buffer) : Prop := ∀ x, x < a ∨ a + len ≤ x → m' x = m x

namespace AgreeOutside

variable {a b len n : Nat} {m m' m'' : Buffer}

theorem refl (a len : Nat) (m : Buffer) : AgreeOutside a len m m := fun _ _ => rfl

theorem trans (h : AgreeOutside a len m m') (h' : AgreeOutside a len m' m'') :
    AgreeOutside a len m m'' := fun x hx => (h' x hx).trans (h x hx)

theorem mono (h : AgreeOutside b n m m') (ha : a ≤ b) (hn : b + n ≤ a + len) :
    AgreeOutside a len m m' := fun x hx => h x (by omega)

theorem set (m : Buffer) {v : UInt8} (h1 : a ≤ b) (h2 : b < a + len) :
    AgreeOutside a len m (m.set b v) := fun _ _ => set_outside (by omega)

theorem overlay (m : Buffer) (a len : Nat) (f : Nat → Option UInt8) :
    AgreeOutside a len m (m.overlay a len f) := fun _ hx => overlay_outside hx

theorem fill (m : Buffer) (a len : Nat) (v : UInt8) : AgreeOutside a len m (m.fill a len v) :=
  overlay m a len fun _ => some v

theorem copy (m : Buffer) (a : Nat) (l : List UInt8) :
    AgreeOutside a l.length m (m.copy a l) :=
  overlay m a l.length fun j => some (l.getD j 0)

end AgreeOutside

/-! ## Little-endian values -/

/-- Byte `k` of the little-endian form of `v`. -/
def leByte (v k : Nat) : UInt8 := UInt8.ofNat (v / 256 ^ k)

@[simp] theorem toNat_leByte (v k : Nat) : (leByte v k).toNat = v / 256 ^ k % 256 := by
  simp [leByte]

/-- `w` little-endian bytes of `v`. -/
def le (w v : Nat) : List UInt8 := (List.range w).map (leByte v)

@[simp] theorem length_le (w v : Nat) : (le w v).length = w := by simp [le]

theorem getD_le {w v j : Nat} (h : j < w) : (le w v).getD j 0 = leByte v j := by
  simp [le, List.getD_eq_getElem?_getD, h]

theorem copy_le_eq_overlay (m : Buffer) (a w v : Nat) :
    m.copy a (le w v) = m.overlay a w fun j => some (leByte v j) := by
  rw [copy_eq_overlay, length_le]
  exact overlay_congr fun j hj => by rw [getD_le hj]

@[simp] theorem leByte_zero (k : Nat) : leByte 0 k = 0 := by simp [leByte]

theorem mod_eq_of_leByte {a b w : Nat} (h : ∀ k < w, leByte a k = leByte b k) :
    a % 256 ^ w = b % 256 ^ w := by
  induction w with
  | zero => simp [Nat.mod_one]
  | succ w ih =>
    have hw := congrArg UInt8.toNat (h w (Nat.lt_succ_self w))
    rw [toNat_leByte, toNat_leByte] at hw
    rw [Nat.mod_pow_succ, Nat.mod_pow_succ, ih fun k hk => h k (Nat.lt_succ_of_lt hk), hw]

/-! ## Tables of fixed-width entries -/

/-- Byte `j` of the table `t` with entries of `w` bytes. -/
def entryByte (w : Nat) (t : Nat → Nat) (j : Nat) : UInt8 := leByte (t (j / w)) (j % w)

theorem entryByte_mul_add {w c j : Nat} (t : Nat → Nat) (h : j < w) :
    entryByte w t (c * w + j) = leByte (t c) j := by
  have hw : 0 < w := by omega
  rw [entryByte, Nat.mul_comm, Nat.mul_add_div hw, Nat.div_eq_of_lt h, Nat.add_zero,
    Nat.mul_add_mod, Nat.mod_eq_of_lt h]

/-- Equal slices have equal entries. -/
theorem entry_eq_of_overlay {m : Buffer} {p len w c : Nat} {t u : Nat → Nat}
    (h : (m.overlay p len fun j => some (entryByte w t j)) =
      m.overlay p len fun j => some (entryByte w u j)) (hc : (c + 1) * w ≤ len) :
    t c % 256 ^ w = u c % 256 ^ w := by
  refine mod_eq_of_leByte fun k hk => ?_
  rw [Nat.succ_mul] at hc
  have := overlay_inj h (by omega : c * w + k < len)
  rwa [entryByte_mul_add t hk, entryByte_mul_add u hk] at this

/-- Storing entry `c` extends a slice that ends in front of it. -/
theorem overlay_entry (m : Buffer) {p i o w c : Nat} (t : Nat → Nat) (h : o + i = c * w) :
    ((m.overlay p i fun j => some (entryByte w t (o + j))).copy (p + i) (le w (t c))) =
      m.overlay p (i + w) fun j => some (entryByte w t (o + j)) := by
  rw [copy_le_eq_overlay, ← overlay_slice m p i w o fun j => some (entryByte w t j)]
  exact overlay_congr fun j hj => by rw [h, entryByte_mul_add t hj]

/-- A fill with zeros extends a slice behind which the table is zero. -/
theorem overlay_entry_zero (m : Buffer) {p i n o w c : Nat} (t : Nat → Nat) (h : o + i = c * w)
    (hw : 0 < w) (hz : ∀ x, c ≤ x → x * w < o + (i + n) → t x = 0) :
    ((m.overlay p i fun j => some (entryByte w t (o + j))).fill (p + i) n 0) =
      m.overlay p (i + n) fun j => some (entryByte w t (o + j)) := by
  rw [fill_eq_overlay, ← overlay_slice m p i n o fun j => some (entryByte w t j)]
  refine overlay_congr fun j hj => ?_
  rw [entryByte, hz _ ?_ ?_, leByte_zero]
  · rw [Nat.le_div_iff_mul_le hw]
    omega
  · have := Nat.div_mul_le_self (o + i + j) w
    omega

/-- The `uint16_t` at `a`. -/
def get16 (m : Buffer) (a : Nat) : Nat := (m a).toNat + 256 * (m (a + 1)).toNat

/-- The `uint32_t` at `a`. -/
def get32 (m : Buffer) (a : Nat) : Nat := m.get16 a + 65536 * m.get16 (a + 2)

end Buffer
