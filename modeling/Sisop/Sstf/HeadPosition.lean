import Sisop.Sstf.Conservation

/-!
# The recorded head position

The value `-1` of `prev_sector` stands for a head position that is not known, and then
the head of the queue is taken whatever its sector. A sector above `LONG_MAX` becomes
negative in the cast, so the position is forgotten by the very dispatch that should
record it. Below that bound the position is known from the first dispatch on.

## Main definitions

* `TakesHead` — the branch of `shortest_distance_request` without a head position
* `HeadKnown` — `prev_sector` records the latest dispatch, if there was one

## Main results

* `headKnown_of_run` — sectors up to `LONG_MAX` keep the record in every run
* `headKnown_iff` — no other sectors do
-/

namespace Sisop.Sstf

open Foundations

variable {R : Type*} {pos : R → ℕ} {s : State R} {w : List (Event R)}

/-- The branch that takes the head of the queue. -/
def TakesHead (s : State R) : Prop := ¬ s.prevSector > -1

/-- `prev_sector` is the sector of the latest dispatch, and the head of the queue is
taken exactly while there has been none. -/
structure HeadKnown (pos : R → ℕ) (w : List (Event R)) (s : State R) : Prop where
  latest : ∀ rq, (dispatchedIn w).getLast? = some rq →
    s.prevSector > -1 ∧ s.prevSector = pos rq
  takesHead : TakesHead s ↔ dispatchedIn w = []

theorem HeadKnown.init : HeadKnown pos [] (sstfInitQueue : State R) where
  latest rq h := by cases h
  takesHead := by simp [TakesHead, sstfInitQueue, dispatchedIn]

/-- An operation that dispatches nothing keeps the record. -/
theorem HeadKnown.keep {e : Event R} {t : State R} (h : HeadKnown pos w s)
    (hnone : dispatchedIn [e] = []) (hprev : t.prevSector = s.prevSector) :
    HeadKnown pos (w ++ [e]) t where
  latest := by simpa [hnone, hprev] using h.latest
  takesHead := by simpa [hnone, hprev, TakesHead] using h.takesHead

/-- A dispatch records its sector if this survives the cast. -/
theorem headKnown_dispatched {rq : R} (hrq : (pos rq : ℤ) ≤ longMax) {ret : ℤ} {q : List R} :
    HeadKnown pos (w ++ [.dispatched ret (some rq)]) ⟨toLong (pos rq), q⟩ := by
  have hlast : dispatchedIn (w ++ [.dispatched ret (some rq)]) = dispatchedIn w ++ [rq] :=
    dispatchedIn_append _ _
  rw [toLong_natCast_eq_self_iff.mpr hrq]
  refine ⟨fun rq' h => ?_, ?_⟩
  · rw [hlast, List.getLast?_concat, Option.some.injEq] at h
    subst h
    exact ⟨by simp only; omega, rfl⟩
  · rw [hlast, TakesHead]
    simp only [List.append_eq_nil_iff, List.cons_ne_nil, and_false, iff_false, not_not]
    omega

variable [DecidableEq R]

/-- If all sectors added are at most `LONG_MAX`, the record is kept in every run. -/
theorem headKnown_of_run (hrun : (machine pos).Run sstfInitQueue w s)
    (hsectors : ∀ rq ∈ addedIn w, (pos rq : ℤ) ≤ longMax) : HeadKnown pos w s := by
  have hboth := hrun.history_invariant (I := fun w s => Conserved w s ∧
    ((∀ rq ∈ addedIn w, (pos rq : ℤ) ≤ longMax) → HeadKnown pos w s)) ?_
    ⟨.init, fun _ => .init⟩
  · exact hboth.2 hsectors
  rintro w s e t hstep ⟨hconserved, hknown⟩
  refine ⟨hconserved.step hstep, fun hsectors => ?_⟩
  have hknown := hknown fun rq hrq => hsectors rq (by simp [hrq])
  cases hstep with
  | add | merge => exact hknown.keep rfl rfl
  | dispatch =>
    by_cases hempty : s.queue = []
    · rw [sstfDispatch_of_empty hempty]
      exact hknown.keep rfl rfl
    · obtain ⟨rq, hrq, -, hdispatch⟩ := exists_dispatched pos hempty
      rw [hdispatch] at hsectors ⊢
      refine headKnown_dispatched (hsectors rq ?_)
      rw [addedIn_append]
      exact List.mem_append_left _ (List.mem_dedup.mp (hconserved.order.subset hrq))

/-- A single request above `LONG_MAX` loses the head position. -/
theorem not_headKnown_of_longMax_lt {rq : R} (hrq : longMax < (pos rq : ℤ)) :
    ∃ w s, (machine pos).Run sstfInitQueue w s ∧ addedIn w = [rq] ∧
      ¬ HeadKnown pos w s := by
  have hadd := (Machine.Run.refl (M := machine pos) sstfInitQueue).snoc
    (.add rq (by simp [sstfInitQueue]))
  have hchosen : shortestDistanceRequest pos (sstfAddRequest sstfInitQueue rq) = some rq := by
    rw [shortestDistanceRequest_eq]
    simp [sstfAddRequest, sstfInitQueue]
  have hrun := hadd.snoc .dispatch
  rw [sstfDispatch_of_some hchosen] at hrun
  refine ⟨_, _, hrun, rfl, fun hknown => ?_⟩
  have hsame : toLong (pos rq) = pos rq := (hknown.latest rq rfl).2
  exact absurd (toLong_natCast_eq_self_iff.mp hsame) (not_le.mpr hrq)

/-- A set of requests keeps the record of the head position in every run of adds, merges
and dispatches exactly when all their sectors are at most `LONG_MAX`. -/
theorem headKnown_iff (pos : R → ℕ) (allowed : R → Prop) :
    (∀ w s, (machine pos).Run sstfInitQueue w s → (∀ rq ∈ addedIn w, allowed rq) →
      HeadKnown pos w s) ↔ ∀ rq, allowed rq → (pos rq : ℤ) ≤ longMax := by
  constructor
  · intro hlaw rq hrq
    by_contra hbig
    obtain ⟨w, s, hrun, hadded, hlost⟩ := not_headKnown_of_longMax_lt (not_le.mp hbig)
    exact hlost (hlaw w s hrun (by simpa [hadded] using hrq))
  · intro hall w s hrun hadded
    exact headKnown_of_run hrun fun rq hrq => hall rq (hadded rq hrq)

/-- After sector `2 ^ 31` the elevator takes the head of the queue, sector 5, although
sector `2 ^ 31 + 1` is pending. -/
theorem head_position_lost :
    ∃ (w : List (Event ℕ)) (s : State ℕ), (machine id).Run sstfInitQueue w s ∧
      dispatchedIn w = [2147483648] ∧ s = ⟨-2147483648, [5, 2147483649]⟩ ∧
      (sstfDispatch id s).sorted = some 5 ∧ ¬ HeadKnown id w s := by
  have hrun := ((((Machine.Run.refl (M := machine (id : ℕ → ℕ)) sstfInitQueue).snoc
    (.add 2147483648 (by decide))).snoc .dispatch).snoc
    (.add 5 (by decide +kernel))).snoc (.add 2147483649 (by decide +kernel))
  refine ⟨_, _, hrun, by decide +kernel, by decide +kernel, by decide +kernel, fun h => ?_⟩
  have hknown := (h.latest 2147483648 (by decide +kernel)).1
  revert hknown
  decide +kernel

end Sisop.Sstf
