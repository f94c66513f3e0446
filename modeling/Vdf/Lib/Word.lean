import Mathlib.Data.Nat.Bitwise
import Mathlib.Data.Nat.Log

/-!
# 32-bit unsigned arithmetic on `Nat`

A `uint32_t` is a `Nat` below `2^32`. An operation that can leave the range is followed by `u32`,
and a subtraction is `subU32`. The lemmas here say when the reduction does nothing, and what the
mask `~(a - 1)` of a power of two does.
-/

namespace Word

/-- Conversion to `uint32_t`. -/
def u32 (n : Nat) : Nat := n % 2 ^ 32

/-- Conversion to `uint64_t`. -/
def u64 (n : Nat) : Nat := n % 2 ^ 64

/-- `a - b` in `uint32_t`. -/
def subU32 (a b : Nat) : Nat := u32 (a + (2 ^ 32 - u32 b))

/-- Conversion of a `uint32_t` to `int`. -/
def toI32 (n : Nat) : Int := if n < 2 ^ 31 then n else (n : Int) - 2 ^ 32

/-- Conversion of an `int` to `uint32_t`. -/
def ofInt (n : Int) : Nat := (n % 2 ^ 32).toNat

theorem u32_lt (n : Nat) : u32 n < 2 ^ 32 := Nat.mod_lt _ (by decide)

theorem u32_of_lt {n : Nat} (h : n < 2 ^ 32) : u32 n = n := Nat.mod_eq_of_lt h

theorem u32_le (n : Nat) : u32 n ≤ n := Nat.mod_le _ _

@[simp] theorem u32_u32_add (a b : Nat) : u32 (u32 a + b) = u32 (a + b) := Nat.mod_add_mod ..

@[simp] theorem u32_add_u32 (a b : Nat) : u32 (a + u32 b) = u32 (a + b) := Nat.add_mod_mod ..

theorem subU32_of_le {a b : Nat} (ha : a < 2 ^ 32) (h : b ≤ a) : subU32 a b = a - b := by
  unfold subU32 u32; omega

theorem subU32_of_lt {a b : Nat} (hb : b < 2 ^ 32) (h : a < b) :
    subU32 a b = 2 ^ 32 + a - b := by
  unfold subU32 u32; omega

theorem subU32_lt (a b : Nat) : subU32 a b < 2 ^ 32 := u32_lt _

theorem toI32_of_lt {n : Nat} (h : n < 2 ^ 31) : toI32 n = n := if_pos h

theorem toI32_eq_natCast {n k : Nat} (hn : n < 2 ^ 32) : toI32 n = k ↔ n = k ∧ n < 2 ^ 31 := by
  unfold toI32
  split <;> omega

theorem ofInt_lt (n : Int) : ofInt n < 2 ^ 32 := by unfold ofInt; omega

theorem ofInt_natCast {n : Nat} (h : n < 2 ^ 32) : ofInt n = n := by unfold ofInt; omega

/-! ## Bits -/

/-- The flag word `w` has a bit of `m`. -/
def hasFlag (w m : Nat) : Bool := w &&& m != 0

/-- `x & ~(a - 1)` in `w` bits. -/
def maskDown (w x a : Nat) : Nat := x &&& (2 ^ w - 1 - (a - 1))

/-- `x += a - 1; x &= ~(a - 1)` in `uint32_t`. -/
def alignUp (x a : Nat) : Nat := maskDown 32 (u32 (x + (a - 1))) a

theorem maskDown_le (w x a : Nat) : maskDown w x a ≤ x := Nat.and_le_left

/-- For a power of two the mask rounds down to a multiple. -/
theorem maskDown_eq {w x a k : Nat} (ha : a = 2 ^ k) (hk : k < w) (hx : x < 2 ^ w) :
    maskDown w x a = x / a * a := by
  subst ha
  have hpos : 0 < 2 ^ k := Nat.two_pow_pos k
  have hpow : 2 ^ k < 2 ^ w := Nat.pow_lt_pow_right (by decide) hk
  have hmask : 2 ^ w - 1 - (2 ^ k - 1) = 2 ^ w - ((2 ^ k - 1) + 1) := by omega
  apply Nat.eq_of_testBit_eq
  intro i
  unfold maskDown
  rw [hmask, Nat.testBit_and, Nat.testBit_two_pow_sub_succ (by omega), Nat.testBit_two_pow_sub_one,
    Nat.testBit_mul_two_pow, Nat.testBit_div_two_pow]
  by_cases hik : k ≤ i
  · rw [Nat.sub_add_cancel hik]
    by_cases hw : i < w
    · simp [hw, hik]
    · rw [Nat.testBit_lt_two_pow
        (Nat.lt_of_lt_of_le hx (Nat.pow_le_pow_right (by decide) (by omega)))]
      simp
  · simp [hik]; omega

/-- For a power of two `alignUp` is the next multiple, when the sum stays in range. -/
theorem alignUp_eq {x a k : Nat} (ha : a = 2 ^ k) (hk : k < 32) (hx : x + (a - 1) < 2 ^ 32) :
    alignUp x a = (x + (a - 1)) / a * a := by
  rw [alignUp, u32_of_lt hx, maskDown_eq ha hk hx]

theorem alignUp_le (x a : Nat) : alignUp x a ≤ x + (a - 1) :=
  Nat.le_trans (maskDown_le _ _ _) (u32_le _)

/-! ## Rounding -/

/-- `⌈n / a⌉` as the source writes it. -/
theorem ceilDiv_le_iff {n a q : Nat} (ha : 0 < a) : (n + (a - 1)) / a ≤ q ↔ n ≤ q * a := by
  rw [← Nat.lt_succ_iff, Nat.div_lt_iff_lt_mul ha, Nat.succ_mul]
  omega

theorem le_ceilDiv_mul {n a : Nat} (ha : 0 < a) : n ≤ (n + (a - 1)) / a * a :=
  (ceilDiv_le_iff ha).mp (Nat.le_refl _)

theorem ceilDiv_mul_lt {n a : Nat} (ha : 0 < a) : (n + (a - 1)) / a * a < n + a := by
  have := Nat.div_mul_le_self (n + (a - 1)) a
  omega

end Word
