import Mathlib.Data.List.Induction

/-!
# Labelled transition systems

A machine says in which states it may start and which labelled steps it may take.
A run records the labels of its steps in order, so a property of runs may speak
about the past of a state as well as about the state. Nothing here is assumed
finite, deterministic or terminating.

## Main definitions

* `Machine` — initial states and labelled steps
* `Machine.Run` — finite runs, extended at their end
* `Machine.Reachable` — states ending a run from an initial state
* `Machine.Deterministic` — labels determine the next state
* `Machine.Simulates` — a step-by-step abstraction into another machine

## Main results

* `Run.invariant`, `Reachable.invariant` — what one step preserves a run preserves
* `Run.history_invariant` — the same for properties of a state and its past
* `Run.length_add_le` — a measure that drops with every step bounds a run
* `Simulates.reachable` — an abstraction maps reachable states to reachable states
* `exists_run_to_goal` — a measure that drops on the way to a goal is a plan
-/

namespace Sisop.Foundations

/-- A labelled transition system: its initial states and its labelled steps. -/
structure Machine (σ α : Type*) where
  initial : σ → Prop
  step : σ → α → σ → Prop

namespace Machine

variable {σ τ α β : Type*} {M : Machine σ α} {N : Machine τ β}
  {s t u : σ} {a : α} {v w : List α}

/-- `M.Run s w t`: from `s` the machine can take steps labelled by `w`, in order,
and be in `t` afterwards. -/
inductive Run (M : Machine σ α) : σ → List α → σ → Prop
  | refl (s : σ) : M.Run s [] s
  | snoc {s t u : σ} {w : List α} {a : α} :
      M.Run s w t → M.step t a u → M.Run s (w ++ [a]) u

/-- A state that ends a run from an initial state. -/
def Reachable (M : Machine σ α) (s : σ) : Prop := ∃ s₀ w, M.initial s₀ ∧ M.Run s₀ w s

theorem Run.single (hstep : M.step s a t) : M.Run s [a] t := by
  simpa using (Run.refl s).snoc hstep

theorem Run.trans (hleft : M.Run s v t) (hright : M.Run t w u) : M.Run s (v ++ w) u := by
  induction hright with
  | refl => simpa using hleft
  | snoc _ hstep ih =>
    rw [← List.append_assoc]
    exact ih.snoc hstep

theorem Run.cons (hstep : M.step s a t) (hrest : M.Run t w u) : M.Run s (a :: w) u :=
  (Run.single hstep).trans hrest

/-- A run without steps stays where it is. -/
theorem Run.eq_of_nil (hrun : M.Run s [] t) : s = t := by
  generalize hnil : ([] : List α) = v at hrun
  cases hrun with
  | refl => rfl
  | snoc => simp at hnil

/-- A run ending in a labelled step takes that step last. -/
theorem Run.of_append_singleton (hrun : M.Run s (w ++ [a]) u) :
    ∃ t, M.Run s w t ∧ M.step t a u := by
  generalize hlabels : w ++ [a] = v at hrun
  cases hrun with
  | refl => simp at hlabels
  | snoc hinit hstep =>
    obtain ⟨rfl, hlast⟩ := List.append_inj' hlabels rfl
    obtain rfl := List.singleton_inj.mp hlast
    exact ⟨_, hinit, hstep⟩

/-- A run over a concatenation splits at the boundary. -/
theorem Run.split (hrun : M.Run s (v ++ w) u) : ∃ t, M.Run s v t ∧ M.Run t w u := by
  induction w using List.reverseRecOn generalizing u with
  | nil => exact ⟨u, by simpa using hrun, .refl u⟩
  | append_singleton w a ih =>
    rw [← List.append_assoc] at hrun
    obtain ⟨t', hinit, hstep⟩ := hrun.of_append_singleton
    obtain ⟨t, hleft, hright⟩ := ih hinit
    exact ⟨t, hleft, hright.snoc hstep⟩

/-- A run over a nonempty list of labels takes its first step first. -/
theorem Run.of_cons (hrun : M.Run s (a :: w) u) : ∃ t, M.step s a t ∧ M.Run t w u := by
  obtain ⟨t, hfirst, hrest⟩ := Run.split (v := [a]) hrun
  obtain ⟨s', hempty, hstep⟩ := Run.of_append_singleton (w := []) hfirst
  obtain rfl := hempty.eq_of_nil
  exact ⟨t, hstep, hrest⟩

/-- A label leads to at most one state. -/
def Deterministic (M : Machine σ α) : Prop :=
  ∀ {s a t u}, M.step s a t → M.step s a u → t = u

/-- The labels of a run of a deterministic machine tell where it ends. -/
theorem Run.unique (hdet : M.Deterministic) (hrun : M.Run s w t) (hrun' : M.Run s w u) :
    t = u := by
  induction hrun generalizing u with
  | refl => exact hrun'.eq_of_nil
  | snoc _ hstep ih =>
    obtain ⟨t', hinit, hstep'⟩ := hrun'.of_append_singleton
    obtain rfl := ih hinit
    exact hdet hstep hstep'

theorem Reachable.of_initial (hs : M.initial s) : M.Reachable s := ⟨s, [], hs, .refl s⟩

theorem Reachable.step (hs : M.Reachable s) (hstep : M.step s a t) : M.Reachable t := by
  obtain ⟨s₀, w, hinit, hrun⟩ := hs
  exact ⟨s₀, w ++ [a], hinit, hrun.snoc hstep⟩

theorem Reachable.run (hs : M.Reachable s) (hrun : M.Run s w t) : M.Reachable t := by
  obtain ⟨s₀, v, hinit, hpast⟩ := hs
  exact ⟨s₀, v ++ w, hinit, hpast.trans hrun⟩

/-! ### Invariants -/

/-- A property that one step preserves holds at the end of a run that starts in it. -/
theorem Run.invariant {I : σ → Prop} (hstep : ∀ {s a t}, M.step s a t → I s → I t)
    (hrun : M.Run s w t) (hs : I s) : I t := by
  induction hrun with
  | refl => exact hs
  | snoc _ hlast ih => exact hstep hlast ih

/-- A property of the labels so far and the current state, preserved whenever one
more step is recorded, holds at the end of every run. -/
theorem Run.history_invariant {I : List α → σ → Prop}
    (hstep : ∀ {w s a t}, M.step s a t → I w s → I (w ++ [a]) t)
    (hrun : M.Run s w t) (hs : I [] s) : I w t := by
  induction hrun with
  | refl => exact hs
  | snoc _ hlast ih => exact hstep hlast ih

/-- An initial property that every step preserves holds in every reachable state. -/
theorem Reachable.invariant {I : σ → Prop} (hinit : ∀ {s}, M.initial s → I s)
    (hstep : ∀ {s a t}, M.step s a t → I s → I t) (hs : M.Reachable s) : I s := by
  obtain ⟨s₀, w, hs₀, hrun⟩ := hs
  exact hrun.invariant hstep (hinit hs₀)

/-- Where a measure drops with every step, a run is no longer than the drop. -/
theorem Run.length_add_le {live : σ → Prop} {measure : σ → ℕ}
    (hlive : ∀ {s a t}, M.step s a t → live t → live s)
    (hless : ∀ {s a t}, M.step s a t → live s → measure t < measure s)
    (hrun : M.Run s w t) (ht : live t) : w.length + measure t ≤ measure s := by
  induction hrun with
  | refl => simp
  | snoc _ hlast ih =>
    have hbefore := ih (hlive hlast ht)
    have hdrop := hless hlast (hlive hlast ht)
    rw [List.length_append, List.length_singleton]
    omega

/-! ### Abstraction -/

/-- `M.Simulates N R`: every initial state of `M` is related to one of `N`, and every
step of `M` from a related state is matched by finitely many steps of `N`, possibly
none. -/
structure Simulates (M : Machine σ α) (N : Machine τ β) (R : σ → τ → Prop) : Prop where
  initial : ∀ {s}, M.initial s → ∃ x, N.initial x ∧ R s x
  step : ∀ {s a t x}, M.step s a t → R s x → ∃ w y, N.Run x w y ∧ R t y

/-- Every reachable state of the concrete machine is related to a reachable state
of the abstract one. -/
theorem Simulates.reachable {R : σ → τ → Prop} (hsim : M.Simulates N R)
    (hs : M.Reachable s) : ∃ x, N.Reachable x ∧ R s x := by
  refine hs.invariant (I := fun s => ∃ x, N.Reachable x ∧ R s x) ?_ ?_
  · intro s hinit
    obtain ⟨x, hx, hrel⟩ := hsim.initial hinit
    exact ⟨x, .of_initial hx, hrel⟩
  · rintro s a t hstep ⟨x, hx, hrel⟩
    obtain ⟨w, y, hrun, hrel'⟩ := hsim.step hstep hrel
    exact ⟨y, hx.run hrun, hrel'⟩

/-! ### Plans -/

/-- If from every state of `I` short of the goal some allowed labels lead either to
the goal or to a state of `I` with a smaller measure, then allowed labels lead to
the goal. -/
theorem exists_run_to_goal {I goal : σ → Prop} {allowed : α → Prop} (measure : σ → ℕ)
    (hplan : ∀ s, I s → ¬ goal s → ∃ w t, M.Run s w t ∧ (∀ a ∈ w, allowed a) ∧
      (goal t ∨ I t ∧ measure t < measure s)) (hs : I s) :
    ∃ w t, M.Run s w t ∧ (∀ a ∈ w, allowed a) ∧ goal t := by
  induction hm : measure s using Nat.strongRecOn generalizing s with
  | ind m ih =>
    by_cases hgoal : goal s
    · exact ⟨[], s, .refl s, by simp, hgoal⟩
    · obtain ⟨v, t, hrun, hallowed, hnext⟩ := hplan s hs hgoal
      rcases hnext with hreached | ⟨ht, hless⟩
      · exact ⟨v, t, hrun, hallowed, hreached⟩
      · obtain ⟨w, u, hrun', hallowed', hu⟩ := ih (measure t) (hm ▸ hless) ht rfl
        refine ⟨v ++ w, u, hrun.trans hrun', ?_, hu⟩
        intro a ha
        rcases List.mem_append.mp ha with ha | ha
        · exact hallowed a ha
        · exact hallowed' a ha

end Machine

end Sisop.Foundations
