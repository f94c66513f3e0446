import Vdf.Lib.Buffer

/-!
# Tables of 12-bit entries

Two entries take three bytes: the even one has the first byte and the low half of the second, the
odd one the rest. An entry is stored in two steps, so the byte in the middle is written twice:
first with the upper bits of the even entry, then with the lower bits of the odd one added.
-/

namespace Buffer

/-- Byte `j` of the table `t` of 12-bit entries. -/
def packedByte (t : Nat → Nat) (j : Nat) : UInt8 :=
  if j % 3 = 0 then UInt8.ofNat (t (2 * (j / 3)))
  else if j % 3 = 1 then
    UInt8.ofNat (t (2 * (j / 3)) / 256 % 16 + 16 * (t (2 * (j / 3) + 1) % 16))
  else UInt8.ofNat (t (2 * (j / 3) + 1) / 16)

theorem packedByte_zero (t : Nat → Nat) (k : Nat) :
    packedByte t (3 * k) = UInt8.ofNat (t (2 * k)) := by
  rw [packedByte, if_pos (by omega), Nat.mul_div_cancel_left k (by decide)]

theorem packedByte_one (t : Nat → Nat) (k : Nat) : packedByte t (3 * k + 1) =
    UInt8.ofNat (t (2 * k) / 256 % 16 + 16 * (t (2 * k + 1) % 16)) := by
  rw [packedByte, if_neg (by omega), if_pos (by omega), (by omega : (3 * k + 1) / 3 = k)]

theorem packedByte_two (t : Nat → Nat) (k : Nat) :
    packedByte t (3 * k + 2) = UInt8.ofNat (t (2 * k + 1) / 16) := by
  rw [packedByte, if_neg (by omega), if_neg (by omega), (by omega : (3 * k + 2) / 3 = k)]

/-- Bytes of free entries are zero. -/
theorem packedByte_free {t : Nat → Nat} {j c : Nat} (h : ∀ x, c ≤ x → t x = 0)
    (hj : 3 * c ≤ 2 * j) : packedByte t j = 0 := by
  have h1 : t (2 * (j / 3) + 1) = 0 := h _ (by omega)
  have h0 : j % 3 = 2 ∨ t (2 * (j / 3)) = 0 := by
    by_cases h2 : j % 3 = 2
    · exact .inl h2
    · exact .inr (h _ (by omega))
  unfold packedByte
  rcases h0 with h0 | h0
  · rw [if_neg (by omega), if_neg (by omega), h1]; rfl
  · rw [h0, h1]
    split
    · rfl
    · split <;> rfl

theorem ofNat_eq_of_mod {a b : Nat} (h : a % 256 = b % 256) : UInt8.ofNat a = UInt8.ofNat b := by
  apply UInt8.toNat_inj.mp
  simpa using h

theorem mod_eq_of_ofNat {a b : Nat} (h : UInt8.ofNat a = UInt8.ofNat b) : a % 256 = b % 256 := by
  simpa using congrArg UInt8.toNat h

/-- Tables with the same bytes have the same entries, as far as the bytes go. -/
theorem entry_eq_of_packedByte {t u : Nat → Nat} {n c : Nat}
    (h : ∀ j < n, packedByte t j = packedByte u j) (hc : 3 * (c + 1) ≤ 2 * n) :
    t c % 4096 = u c % 4096 := by
  obtain ⟨k, hk⟩ : ∃ k, k = c / 2 := ⟨_, rfl⟩
  have h1 := h (3 * k + 1) (by omega)
  rw [packedByte_one, packedByte_one] at h1
  have h1 := mod_eq_of_ofNat h1
  rcases Nat.mod_two_eq_zero_or_one c with he | ho
  · have h0 := h (3 * k) (by omega)
    rw [packedByte_zero, packedByte_zero] at h0
    have h0 := mod_eq_of_ofNat h0
    rw [(by omega : c = 2 * k)]
    omega
  · have h2 := h (3 * k + 2) (by omega)
    rw [packedByte_two, packedByte_two] at h2
    have h2 := mod_eq_of_ofNat h2
    rw [(by omega : c = 2 * k + 1)]
    omega

/-! ## Half bytes -/

theorem ofNat_shiftLeft_and (n : Nat) :
    UInt8.ofNat (n <<< 4) &&& 0xf0 = UInt8.ofNat (16 * (n % 16)) := by
  have h : ∀ a : Fin 16, UInt8.ofNat (16 * a.val) &&& 0xf0 = UInt8.ofNat (16 * a.val) := by decide
  have e : UInt8.ofNat (n <<< 4) = UInt8.ofNat (16 * (n % 16)) :=
    ofNat_eq_of_mod (by rw [Nat.shiftLeft_eq]; omega)
  rw [e]
  exact h ⟨n % 16, Nat.mod_lt _ (by decide)⟩

theorem ofNat_and_low (n : Nat) : UInt8.ofNat n &&& 0xf = UInt8.ofNat (n % 16) := by
  have h : ∀ a : Fin 16, ∀ b : Fin 16,
      UInt8.ofNat (16 * a.val + b.val) &&& 0xf = UInt8.ofNat b.val := by decide
  have e : UInt8.ofNat n = UInt8.ofNat (16 * (n / 16 % 16) + n % 16) :=
    ofNat_eq_of_mod (by omega)
  rw [e]
  exact h ⟨n / 16 % 16, Nat.mod_lt _ (by decide)⟩ ⟨n % 16, Nat.mod_lt _ (by decide)⟩

/-- The upper half of a byte with only a lower half. -/
theorem ofNat_and_high (n : Nat) : UInt8.ofNat (n % 16) &&& 0xf0 = 0 := by
  have h : ∀ a : Fin 16, UInt8.ofNat a.val &&& 0xf0 = 0 := by decide
  exact h ⟨n % 16, Nat.mod_lt _ (by decide)⟩

theorem ofNat_or_high (n : Nat) : UInt8.ofNat (n % 16) ||| 0xf0 = UInt8.ofNat (n % 16 + 240) := by
  have h : ∀ a : Fin 16, UInt8.ofNat a.val ||| 0xf0 = UInt8.ofNat (a.val + 240) := by decide
  exact h ⟨n % 16, Nat.mod_lt _ (by decide)⟩

/-! ## One byte more -/

theorem set_set (m : Buffer) (a : Nat) (v w : UInt8) : (m.set a v).set a w = m.set a w := by
  funext x
  simp only [set]
  split <;> rfl

@[simp] theorem set_self (m : Buffer) (a : Nat) (v : UInt8) : m.set a v a = v := if_pos rfl

/-- The next byte of an image. -/
theorem overlay_snoc (m : Buffer) {p n a : Nat} {f : Nat → Option UInt8} {v : UInt8} (ha : a = p + n)
    (hv : f n = some v) : (m.overlay p n f).set a v = m.overlay p (n + 1) f := by
  subst ha
  rw [set_eq_overlay, overlay_overlay]
  refine overlay_congr fun j hj => ?_
  rw [glue]
  split
  · rfl
  · rw [(by omega : j = n), hv]

end Buffer
