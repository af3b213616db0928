import Mathlib.Tactic.Ring

/-!
# Signed machine integers

A signed integer of `n` bits is an integer, and storing to it wraps around. What
fits is kept, what does not fit is changed, so a value survives a store exactly
when it is in range.

## Main definitions

* `CInt.wrap` — the value read back after a store to a signed integer of `n` bits
* `CInt.maxVal` — the largest value of a signed integer of `n` bits

## Main results

* `CInt.wrap_eq_self_iff` — exactly the values in range survive a store
-/

namespace Sisop.Foundations.CInt

/-- The value of a signed integer of `n` bits after a store of `z`. -/
@[irreducible] def wrap (n : ℕ) (z : ℤ) : ℤ := z.bmod (2 ^ n)

/-- The largest value of a signed integer of `n` bits. -/
def maxVal (n : ℕ) : ℤ := 2 ^ (n - 1) - 1

variable {n : ℕ} {z : ℤ}

private theorem two_pow_eq (hn : 0 < n) : ((2 ^ n : ℕ) : ℤ) = 2 * 2 ^ (n - 1) := by
  obtain ⟨m, rfl⟩ : ∃ m, n = m + 1 := ⟨n - 1, by omega⟩
  rw [Nat.add_sub_cancel]
  push_cast
  ring

theorem wrap_le_maxVal (hn : 0 < n) (z : ℤ) : wrap n z ≤ maxVal n := by
  have hlt := Int.bmod_lt (x := z) (Nat.two_pow_pos n)
  rw [two_pow_eq hn] at hlt
  rw [wrap, maxVal]
  omega

theorem neg_le_wrap (hn : 0 < n) (z : ℤ) : -maxVal n - 1 ≤ wrap n z := by
  have hle := Int.le_bmod (x := z) (Nat.two_pow_pos n)
  rw [two_pow_eq hn] at hle
  rw [wrap, maxVal]
  omega

/-- Exactly the values in range survive a store. -/
theorem wrap_eq_self_iff (hn : 0 < n) :
    wrap n z = z ↔ -maxVal n - 1 ≤ z ∧ z ≤ maxVal n := by
  constructor
  · intro h
    rw [← h]
    exact ⟨neg_le_wrap hn z, wrap_le_maxVal hn z⟩
  · rintro ⟨hlow, hhigh⟩
    rw [maxVal] at hlow hhigh
    have hhalf := two_pow_eq hn
    rw [wrap]
    -- a value in range is its own balanced remainder
    apply Int.bmod_eq_of_le <;> rw [hhalf] <;> omega

/-- A nonnegative value survives a store exactly when it is at most the largest one. -/
theorem wrap_eq_self_iff_of_nonneg (hn : 0 < n) (hz : 0 ≤ z) :
    wrap n z = z ↔ z ≤ maxVal n := by
  rw [wrap_eq_self_iff hn, and_iff_right_iff_imp]
  intro h
  omega

/-! ### Wrapping around and arithmetic -/

theorem wrap_emod (n : ℕ) (z : ℤ) : wrap n z % 2 ^ n = z % 2 ^ n := by
  rw [wrap]
  exact_mod_cast Int.bmod_emod

/-- Two values are read back as the same one when they differ by whole turns. -/
theorem wrap_eq_wrap_iff {z' : ℤ} : wrap n z = wrap n z' ↔ z % 2 ^ n = z' % 2 ^ n := by
  constructor
  · intro h
    rw [← wrap_emod n z, h, wrap_emod]
  · intro h
    rw [wrap, wrap, ← Int.emod_bmod (x := z), ← Int.emod_bmod (x := z')]
    norm_cast at h ⊢
    rw [h]

/-- Wrapping around in between changes no sum. -/
theorem wrap_wrap_add (n : ℕ) (y z : ℤ) : wrap n (wrap n y + z) = wrap n (y + z) := by
  rw [wrap_eq_wrap_iff, Int.add_emod, wrap_emod, ← Int.add_emod]

/-- Wrapping around in between changes no product. -/
theorem wrap_wrap_mul (n : ℕ) (y z : ℤ) : wrap n (wrap n y * z) = wrap n (y * z) := by
  rw [wrap_eq_wrap_iff, Int.mul_emod, wrap_emod, ← Int.mul_emod]

end Sisop.Foundations.CInt
