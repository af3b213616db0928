import Mathlib.Algebra.Order.BigOperators.Group.Finset
import Mathlib.Data.Fintype.BigOperators

/-!
# Totals over parties

Finitely many parties are each in a place, and a weight is attached to the places a party
may be in. Moving one party changes the total by the difference of the weights, which
counts the parties past a point as well as the steps they have still to take.

## Main definitions

* `Total.total` — the sum of the weights of all parties

## Main results

* `Total.total_update` — the total after one party has moved
* `Total.exists_eq_zero` — a total below the number of parties leaves one out
-/

namespace Sisop.Foundations.Total

variable {T P : Type*} [Fintype T] {weight : T → P → ℕ} {place : T → P} {t : T} {p : P}

/-- The sum of the weights of all parties at their places. -/
def total (weight : T → P → ℕ) (place : T → P) : ℕ := ∑ t, weight t (place t)

/-- One party moves from one place to another. -/
theorem total_update [DecidableEq T] (weight : T → P → ℕ) (place : T → P) (t : T) (p : P) :
    total weight (Function.update place t p) + weight t (place t) =
      total weight place + weight t p := by
  have hafter := Finset.add_sum_erase Finset.univ
    (fun u => weight u (Function.update place t p u)) (Finset.mem_univ t)
  have hbefore := Finset.add_sum_erase Finset.univ (fun u => weight u (place u)) (Finset.mem_univ t)
  have hothers : ∑ u ∈ Finset.univ.erase t, weight u (Function.update place t p u) =
      ∑ u ∈ Finset.univ.erase t, weight u (place u) :=
    Finset.sum_congr rfl fun u hu => by rw [Function.update_of_ne (Finset.ne_of_mem_erase hu)]
  rw [Function.update_self] at hafter
  rw [total, total]
  omega

/-- A move that keeps the weight keeps the total. -/
theorem total_update_of_eq [DecidableEq T] (h : weight t p = weight t (place t)) :
    total weight (Function.update place t p) = total weight place := by
  have hmove := total_update weight place t p
  omega

/-- A move that lowers the weight lowers the total. -/
theorem total_update_lt [DecidableEq T] (h : weight t p < weight t (place t)) :
    total weight (Function.update place t p) < total weight place := by
  have hmove := total_update weight place t p
  omega

theorem total_eq_zero (h : ∀ t, weight t (place t) = 0) : total weight place = 0 :=
  Finset.sum_eq_zero fun t _ => h t

/-- One party adds no more than all of them. -/
theorem le_total (weight : T → P → ℕ) (place : T → P) (t : T) :
    weight t (place t) ≤ total weight place :=
  Finset.single_le_sum (f := fun t => weight t (place t)) (fun _ _ => Nat.zero_le _)
    (Finset.mem_univ t)

/-- Where the total is less than the number of parties, one of them adds nothing. -/
theorem exists_eq_zero (h : total weight place < Fintype.card T) :
    ∃ t, weight t (place t) = 0 := by
  rw [Fintype.card, Finset.card_eq_sum_ones] at h
  obtain ⟨t, -, ht⟩ := Finset.exists_lt_of_sum_lt h
  exact ⟨t, Nat.lt_one_iff.mp ht⟩

/-- Where no party adds more than one and some party adds nothing, the total is less than
the number of parties. -/
theorem total_lt_card (hle : ∀ t, weight t (place t) ≤ 1) (h : weight t (place t) = 0) :
    total weight place < Fintype.card T := by
  rw [Fintype.card, Finset.card_eq_sum_ones]
  exact Finset.sum_lt_sum (fun t _ => hle t) ⟨t, Finset.mem_univ t, by omega⟩

end Sisop.Foundations.Total
