import Sisop.ThreadRunner.Basic

/-!
# Thread names

A thread is named by a `char`: the letters from `A` to `Z` and then the characters from
`a` on. The name of thread 55 is the largest `char`, and that of thread 56 has wrapped
around to the smallest one, which decodes to a negative index.

## Main definitions

* `getThId` — `get_th_id`
* `NamesDecode` — names tell the threads apart and decode to their ids

## Main results

* `getThId_getThName` — the ids whose names decode
* `namesDecode_iff` — how many threads have such names
-/

namespace Sisop.ThreadRunner

open Foundations

/-- `get_th_id`: its argument is a `char`, and so is the value it is lowered to. -/
def getThId (name : ℤ) : ℤ :=
  let name := if name > 90 then CInt.wrap 8 (name - 7) else name
  name - 65

/-- Among `N` threads a name decodes to the thread that has it. -/
structure NamesDecode (N : ℤ) : Prop where
  decode : ∀ i, 0 ≤ i → i < N → getThId (getThName i) = i
  index : ∀ i, 0 ≤ i → i < N → 0 ≤ getThId (getThName i) ∧ getThId (getThName i) < N
  injective : ∀ i k, 0 ≤ i → i < N → 0 ≤ k → k < N → getThName i = getThName k → i = k

variable {i N : ℤ}

private theorem wrap_char_eq {z : ℤ} (hlow : -128 ≤ z) (hhigh : z ≤ 127) : CInt.wrap 8 z = z :=
  (CInt.wrap_eq_self_iff (by decide)).mpr ⟨hlow, hhigh⟩

/-- The names of the first 56 threads fit into a `char`. -/
theorem getThName_eq (h0 : 0 ≤ i) (h : i < 56) :
    getThName i = if i > 25 then 72 + i else 65 + i := by
  rw [getThName]
  split_ifs
  · rw [wrap_char_eq (by omega) (by omega)]
    ring
  · rw [wrap_char_eq (by omega) (by omega)]

/-- The names of the first 56 threads decode. -/
theorem getThId_getThName (h0 : 0 ≤ i) (h : i < 56) : getThId (getThName i) = i := by
  rw [getThName_eq h0 h, getThId]
  split_ifs with hgap hname hname
  · rw [wrap_char_eq (by omega) (by omega)]
    ring
  · omega
  · omega
  · ring

/-- The name of thread 56 is -128. -/
theorem getThId_getThName_overflow : getThId (getThName 56) = -193 := by decide +kernel

/-- Where all names decode they tell the threads apart and are indices of the tally. -/
theorem NamesDecode.of_decode (h : ∀ i, 0 ≤ i → i < N → getThId (getThName i) = i) :
    NamesDecode N where
  decode := h
  index i h0 hi := by
    rw [h i h0 hi]
    exact ⟨h0, hi⟩
  injective i k hi hiN hk hkN hname := by
    rw [← h i hi hiN, hname, h k hk hkN]

theorem NamesDecode.le (h : NamesDecode N) : N ≤ 56 := by
  by_contra hbig
  have hdecode := h.decode 56 (by decide) (by omega)
  rw [getThId_getThName_overflow] at hdecode
  exact absurd hdecode (by decide)

/-- The names of `N` threads decode exactly when there are at most 56 of them. -/
theorem namesDecode_iff (N : ℤ) : NamesDecode N ↔ N ≤ 56 := by
  constructor
  · exact NamesDecode.le
  · intro h
    exact .of_decode fun i h0 hi => getThId_getThName h0 (by omega)

/-- Of 57 threads the last one has the name -128, which decodes to -193. -/
theorem not_namesDecode_57 :
    getThName 56 = -128 ∧ getThId (getThName 56) = -193 ∧
      ¬ ∀ N : ℤ, 1 ≤ N → NamesDecode N := by
  refine ⟨by decide +kernel, getThId_getThName_overflow, fun h => ?_⟩
  exact absurd (h 57 (by decide)).le (by decide)

end Sisop.ThreadRunner
