import Mathlib.Data.List.Chain
import Mathlib.Data.List.Infix

/-!
# Runs of equal items

A list is made of maximal runs of equal items, and collapsing it keeps one copy of each
run. The runs of a list grow at its end: one more item extends the last run or starts a
new one.

## Main definitions

* `RunLength.expand` — the list made of runs
* `RunLength.CollapsesTo` — a list and one copy of each of its maximal runs

## Main results

* `CollapsesTo.same`, `CollapsesTo.other` — one more item
-/

namespace Sisop.Foundations.RunLength

variable {α : Type*} {l out : List α} {a : α} {runs runs' : List (α × ℕ)}

/-- The list made of runs: each is an item and the number of further copies of it. -/
def expand (runs : List (α × ℕ)) : List α :=
  runs.flatMap fun run => List.replicate (run.2 + 1) run.1

/-- The list `out` is `l` with every maximal run of equal items replaced by one copy. -/
def CollapsesTo (l out : List α) : Prop :=
  ∃ runs, expand runs = l ∧ runs.map Prod.fst = out ∧ out.IsChain (· ≠ ·)

@[simp] theorem expand_nil : expand ([] : List (α × ℕ)) = [] := rfl

@[simp] theorem expand_cons {n : ℕ} :
    expand ((a, n) :: runs) = List.replicate (n + 1) a ++ expand runs := by
  simp [expand]

@[simp] theorem expand_append : expand (runs ++ runs') = expand runs ++ expand runs' := by
  simp [expand]

namespace CollapsesTo

theorem nil : CollapsesTo ([] : List α) [] := ⟨[], rfl, rfl, .nil⟩

theorem isChain (h : CollapsesTo l out) : out.IsChain (· ≠ ·) := by
  obtain ⟨-, -, -, hchain⟩ := h
  exact hchain

theorem length_le (h : CollapsesTo l out) : out.length ≤ l.length := by
  obtain ⟨runs, rfl, rfl, -⟩ := h
  induction runs with
  | nil => simp
  | cons run runs ih =>
    obtain ⟨b, n⟩ := run
    simp only [List.map_cons, List.length_cons, expand_cons, List.length_append,
      List.length_replicate]
    omega

/-- One more copy of the last item extends the last run. -/
theorem same (h : CollapsesTo l out) (hlast : out.getLast? = some a) :
    CollapsesTo (l ++ [a]) out := by
  obtain ⟨runs, rfl, rfl, hchain⟩ := h
  rcases List.eq_nil_or_concat runs with rfl | ⟨runs, ⟨b, n⟩, rfl⟩
  · simp at hlast
  · obtain rfl : b = a := by simpa using hlast
    refine ⟨runs ++ [(b, n + 1)], ?_, by simp, hchain⟩
    simp [List.replicate_succ' (n := n + 1)]

/-- Any other item starts a new run. -/
theorem other (h : CollapsesTo l out) (hlast : out.getLast? ≠ some a) :
    CollapsesTo (l ++ [a]) (out ++ [a]) := by
  obtain ⟨runs, rfl, rfl, hchain⟩ := h
  refine ⟨runs ++ [(a, 0)], by simp, by simp, ?_⟩
  apply hchain.append (.singleton a)
  intro b hb c hc
  obtain rfl : a = c := by simpa using hc
  rintro rfl
  exact hlast hb

end CollapsesTo

end Sisop.Foundations.RunLength
