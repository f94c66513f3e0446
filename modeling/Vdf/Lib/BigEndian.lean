import Mathlib.Data.List.Induction
import Vdf.Lib.Buffer

/-!
# Network byte order

The bytes of a range as a list, and numbers whose first byte is the highest.
-/

namespace Buffer

/-- The `n` bytes from `a` on. -/
def slice (m : Buffer) (a n : Nat) : List UInt8 := (List.range n).map fun i => m (a + i)

/-- `w` bytes of `v`, the highest first. -/
def be (w v : Nat) : List UInt8 := (le w v).reverse

/-- The number whose bytes are `l`, the highest first. -/
def beValue (l : List UInt8) : Nat := l.foldl (fun v b => 256 * v + b.toNat) 0

/-! ## Ranges -/

@[simp] theorem length_slice (m : Buffer) (a n : Nat) : (m.slice a n).length = n := by simp [slice]

theorem getElem_slice (m : Buffer) {a n i : Nat} (h : i < (m.slice a n).length) :
    (m.slice a n)[i] = m (a + i) := by simp [slice]

theorem slice_append (m : Buffer) (a n k : Nat) :
    m.slice a n ++ m.slice (a + n) k = m.slice a (n + k) := by
  simp only [slice, List.range_add, List.map_append, List.map_map]
  congr 1
  exact List.map_congr_left fun i _ => by simp [Nat.add_assoc]

theorem slice_take (m : Buffer) (a n k : Nat) (h : k ≤ n) : (m.slice a n).take k = m.slice a k := by
  rw [slice, ← List.map_take, List.take_range, Nat.min_eq_left h, slice]

theorem slice_drop (m : Buffer) (a n k : Nat) (h : k ≤ n) :
    (m.slice a n).drop k = m.slice (a + k) (n - k) := by
  have hn : n = k + (n - k) := by omega
  have := slice_append m a k (n - k)
  rw [← hn] at this
  rw [← this]
  exact List.drop_left' (length_slice ..)

/-- What was copied is read back. -/
theorem slice_copy {m : Buffer} {a : Nat} {l : List UInt8} {i n : Nat} (h : i + n ≤ l.length) :
    (m.copy a l).slice (a + i) n = (l.drop i).take n := by
  apply List.ext_getElem
  · simp only [length_slice, List.length_take, List.length_drop]
    omega
  · intro j h1 h2
    rw [length_slice] at h1
    rw [getElem_slice, copy, if_pos (by omega), List.getElem_take, List.getElem_drop,
      show a + i + j - a = i + j by omega, List.getD_eq_getElem?_getD,
      List.getElem?_eq_getElem (by omega), Option.getD_some]

theorem slice_fill (m : Buffer) (a n : Nat) (v : UInt8) :
    (m.fill a n v).slice a n = List.replicate n v := by
  refine List.eq_replicate_iff.2 ⟨length_slice .., fun b hb => ?_⟩
  obtain ⟨i, hi, rfl⟩ := List.mem_map.1 hb
  rw [fill, if_pos ⟨Nat.le_add_right .., Nat.add_lt_add_left (List.mem_range.1 hi) a⟩]

theorem copy_nil (m : Buffer) (a : Nat) : m.copy a [] = m := by
  funext x
  rw [copy, if_neg (by simp only [List.length_nil]; omega)]

/-- Two copies, one behind the other. -/
theorem copy_append (m : Buffer) (a : Nat) (l l' : List UInt8) :
    (m.copy a l).copy (a + l.length) l' = m.copy a (l ++ l') := by
  funext x
  simp only [copy, List.length_append]
  by_cases h : a + l.length ≤ x ∧ x < a + l.length + l'.length
  · rw [if_pos h, if_pos (by omega)]
    simp only [List.getD_eq_getElem?_getD]
    rw [List.getElem?_append_right (by omega), show x - (a + l.length) = x - a - l.length by omega]
  · rw [if_neg h]
    by_cases h' : a ≤ x ∧ x < a + l.length
    · rw [if_pos h', if_pos (by omega)]
      simp only [List.getD_eq_getElem?_getD]
      rw [List.getElem?_append_left (by omega)]
    · rw [if_neg h', if_neg (by omega)]

/-! ## Numbers -/

@[simp] theorem length_be (w v : Nat) : (be w v).length = w := by simp [be]

theorem le_succ (w v : Nat) : le (w + 1) v = UInt8.ofNat v :: le w (v / 256) := by
  simp only [le, List.range_succ_eq_map, List.map_cons, List.map_map]
  congr 1
  · simp [leByte]
  · refine List.map_congr_left fun k _ => ?_
    simp [leByte, Nat.pow_succ, Nat.div_div_eq_div_mul, Nat.mul_comm]

/-- A number is read back, as far as it fits. -/
theorem beValue_be (w v : Nat) : beValue (be w v) = v % 256 ^ w := by
  induction w generalizing v with
  | zero => simp [beValue, be, le, Nat.mod_one]
  | succ w ih =>
    have hle := ih (v / 256)
    rw [be, beValue] at hle ⊢
    rw [le_succ, List.reverse_cons, List.foldl_append, hle]
    simp only [List.foldl_cons, List.foldl_nil, UInt8.toNat_ofNat']
    have hpow : 256 ^ (w + 1) = 256 * 256 ^ w := by rw [Nat.pow_succ, Nat.mul_comm]
    rw [hpow, Nat.mod_mul]
    omega

end Buffer
