import Mathlib.Data.List.TakeWhile
import Sisop.Foundations.CInt

/-!
# Decimal numbers at the start of a text

`atoi` skips blanks, reads a sign and takes the digits that follow for a number. What
stands after the digits is ignored, and without digits the number is zero. Of a number
that is not an `int` the value of `atoi` is not defined, so `atoi` is any function that
is right about the others.

## Main definitions

* `Decimal.value` — the number at the start of a text
* `Decimal.Atoi` — a function that `atoi` may be
* `Decimal.text` — the text of a number

## Main results

* `Decimal.Atoi.eq_of_text` — the text of an `int` is read as that `int`
-/

namespace Sisop.Foundations.Decimal

/-- A blank: a space, or a character from horizontal tab to carriage return. -/
def isSpace (c : Char) : Bool := c = ' ' ∨ 9 ≤ c.toNat ∧ c.toNat ≤ 13

/-- The number that the digits at the start of a text make. -/
def digitsValue (text : List Char) : ℕ :=
  (text.takeWhile Char.isDigit).foldl (fun n c => 10 * n + (c.toNat - 48)) 0

/-- The number at the start of a text. -/
def value (text : List Char) : ℤ :=
  match text.dropWhile isSpace with
  | '-' :: rest => -digitsValue rest
  | '+' :: rest => digitsValue rest
  | rest => digitsValue rest

/-- A function that `atoi` may be, where an `int` has the given bits. -/
structure Atoi (bits : ℕ) where
  fn : List Char → ℤ
  eq_value : ∀ text, -CInt.maxVal bits - 1 ≤ value text → value text ≤ CInt.maxVal bits →
    fn text = value text

variable {bits : ℕ}

instance : CoeFun (Atoi bits) fun _ => List Char → ℤ := ⟨Atoi.fn⟩

/-- The `atoi` that takes the nearest `int` for a number that is not one. -/
def Atoi.saturating (bits : ℕ) : Atoi bits where
  fn text := max (-CInt.maxVal bits - 1) (min (CInt.maxVal bits) (value text))
  eq_value text hlow hhigh := by rw [min_eq_right hhigh, max_eq_right hlow]

/-- A text that starts with no number counts as zero. -/
theorem Atoi.eq_zero (atoi : Atoi bits) {text : List Char} (h : value text = 0) :
    atoi text = 0 := by
  have hmax : 0 ≤ CInt.maxVal bits := by
    have hpow : (0 : ℤ) < 2 ^ (bits - 1) := Int.pow_pos (by decide)
    rw [CInt.maxVal]
    omega
  rw [atoi.eq_value text (by omega) (by omega), h]

/-! ### The text of a number -/

/-- The text that `%d` makes of a number. -/
def text (z : ℤ) : List Char :=
  if z < 0 then '-' :: Nat.toDigits 10 z.natAbs else Nat.toDigits 10 z.natAbs

theorem isDigit_of_mem_toDigits {n : ℕ} {c : Char} (h : c ∈ Nat.toDigits 10 n) :
    c.isDigit = true :=
  Nat.isDigit_of_mem_toDigits (by decide) (by decide) h

theorem digitsValue_toDigits (n : ℕ) : digitsValue (Nat.toDigits 10 n) = n := by
  have hall : (Nat.toDigits 10 n).takeWhile Char.isDigit = Nat.toDigits 10 n :=
    List.takeWhile_eq_self_iff.mpr fun c hc => isDigit_of_mem_toDigits hc
  rw [digitsValue, hall]
  exact Nat.ofDigitChars_ten_toDigits

/-- A digit is no blank and no sign. -/
theorem not_isSpace_of_isDigit {c : Char} (h : c.isDigit = true) :
    isSpace c = false ∧ c ≠ '-' ∧ c ≠ '+' := by
  have hrange : 48 ≤ c.toNat ∧ c.toNat ≤ 57 := Char.isDigit_iff_toNat.mp h
  refine ⟨?_, ?_, ?_⟩
  · have hspace : c ≠ ' ' := by
      rintro rfl
      exact absurd h (by decide)
    simp only [isSpace, hspace, false_or, decide_eq_false_iff_not]
    omega
  · rintro rfl
    exact absurd h (by decide)
  · rintro rfl
    exact absurd h (by decide)

/-- The text of a number starts with that number. -/
theorem value_text (z : ℤ) : value (text z) = z := by
  rw [value, text]
  split_ifs with hneg
  · have hminus : isSpace '-' = false := by decide
    rw [List.dropWhile_cons_of_neg (by simp [hminus])]
    simp only [digitsValue_toDigits]
    omega
  · have hvalue := digitsValue_toDigits z.natAbs
    cases hdigits : Nat.toDigits 10 z.natAbs with
    | nil => exact absurd hdigits Nat.toDigits_ne_nil
    | cons c rest =>
      obtain ⟨hspace, hminus, hplus⟩ :=
        not_isSpace_of_isDigit (isDigit_of_mem_toDigits (hdigits ▸ List.mem_cons_self))
      rw [List.dropWhile_cons_of_neg (by simp [hspace])]
      rw [hdigits] at hvalue
      split
      · rename_i heq
        exact absurd (List.cons.inj heq).1 hminus
      · rename_i heq
        exact absurd (List.cons.inj heq).1 hplus
      · omega

theorem text_ne_nil (z : ℤ) : text z ≠ [] := by
  rw [text]
  split_ifs
  · exact List.cons_ne_nil _ _
  · exact Nat.toDigits_ne_nil

/-- The characters of a number are digits and the sign. -/
theorem mem_text {z : ℤ} {c : Char} (h : c ∈ text z) : c = '-' ∨ c.isDigit = true := by
  rw [text] at h
  split_ifs at h
  · rw [List.mem_cons] at h
    exact h.imp_right isDigit_of_mem_toDigits
  · exact Or.inr (isDigit_of_mem_toDigits h)

/-- The text of an `int` is read as that `int`. -/
theorem Atoi.eq_of_text (atoi : Atoi bits) {z : ℤ} (hlow : -CInt.maxVal bits - 1 ≤ z)
    (hhigh : z ≤ CInt.maxVal bits) : atoi (text z) = z := by
  rw [atoi.eq_value _ (by rwa [value_text]) (by rwa [value_text]), value_text]

end Sisop.Foundations.Decimal
