import Sisop.Pmutex.Refinement

/-!
# At most `N - j` threads past level `j`

A thread counts as past level `j` from the moment it leaves the waiting loop of
`lock` for level `j` until the store of `unlock`. Through the abstraction this is
being past level `j` of the filter lock, so at most `N - j` of `N` registered threads
are, at any moment of any interleaving, and at most one is between `lock` and `unlock`.
-/

namespace Sisop.Pmutex

open Foundations FilterLock

/-- A thread in `lock` has left the waiting loop for level `j`. -/
def LockPc.hasLeft (j : ℕ) : LockPc → Bool
  | .storeLevel i | .storeOnhold i | .loadOnhold i _ | .scan i _ => j < i
  | .returned => true

/-- A thread has left the waiting loop of `lock` for level `j` and has not yet done
the store of `unlock`. -/
def Phase.hasLeft (j : ℕ) : Phase → Bool
  | .outside | .searching | .exited => false
  | .inLock _ pc => pc.hasLeft j
  | .critical => true

variable {T : Type} [DecidableEq T] [Fintype T] {r : Roster T} {s : State T} {j : ℕ}

theorem le_passed_of_hasLeft {t : T} {phase : Phase} (hj : j ≤ Fintype.card T - 1)
    (h : phase.hasLeft j) : j ≤ (phase.control r t).passed := by
  cases phase with
  | outside | searching | exited => simp [Phase.hasLeft] at h
  | critical => exact hj
  | inLock my pc =>
    cases pc with
    | loadOnhold i flg =>
      simp only [Phase.hasLeft, LockPc.hasLeft, decide_eq_true_eq] at h
      cases flg <;> simp only [Phase.control, LockPc.control, Control.passed] <;> omega
    | storeLevel i | storeOnhold i | scan i k =>
      simp only [Phase.hasLeft, LockPc.hasLeft, decide_eq_true_eq] at h
      simp only [Phase.control, LockPc.control, Control.passed]
      omega
    | returned => exact hj

/-- At most one thread is between the return of `lock` and the store of `unlock`. -/
theorem critical_unique (hs : (system r).Reachable s) {t u : T}
    (ht : s.phase t = .critical) (hu : s.phase u = .critical) : t = u := by
  obtain ⟨x, habs, hinv⟩ := exists_abstract hs
  exact hinv.inside_unique (habs.inside_iff.mpr ht) (habs.inside_iff.mpr hu)

/-- At most `N - j` threads are past level `j`. -/
theorem card_hasLeft_le (hs : (system r).Reachable s) (hj : 1 ≤ j)
    (hcard : j ≤ Fintype.card T - 1) :
    (Finset.univ.filter fun t => (s.phase t).hasLeft j).card ≤ Fintype.card T - j := by
  obtain ⟨x, habs, hinv⟩ := exists_abstract hs
  refine le_trans (Finset.card_le_card ?_) (hinv.card_passed_le (j := j) (by omega))
  intro t ht
  rw [Finset.mem_filter] at ht ⊢
  refine ⟨ht.1, ?_⟩
  rw [Passed, habs.control t]
  exact le_passed_of_hasLeft hcard ht.2

/-- Safety of `pmutex`: in every reachable state at most `N - j` of the `N` threads
have left the waiting loop for level `j` and not yet unlocked, for `1 ≤ j ≤ N - 1`,
and at most one is between the return of `lock` and the store of `unlock`. -/
theorem pmutex_filter_safety (r : Roster T) {s : State T} (hs : (system r).Reachable s) :
    (∀ j, 1 ≤ j → j ≤ Fintype.card T - 1 →
      (Finset.univ.filter fun t => (s.phase t).hasLeft j).card ≤ Fintype.card T - j) ∧
    ∀ t u, s.phase t = .critical → s.phase u = .critical → t = u :=
  ⟨fun _ hj hcard => card_hasLeft_le hs hj hcard, fun _ _ ht hu => critical_unique hs ht hu⟩

/-- Two threads, registered in the order of their numbers. -/
def twoThreads : Roster (Fin 2) where
  ths := [0, 1]
  nodup := by decide
  mem := by decide

/-- Two threads right after registration, with thread 0 then running alone into its
critical section and thread 1 waiting as the victim of level 1. -/
theorem pmutex_filter_safety_two_threads :
    ∃ s, (system twoThreads).Reachable s ∧ s.phase 0 = .critical ∧
      s.phase 1 = .inLock (some 0) (.scan 1 1) ∧
      (Finset.univ.filter fun t => (s.phase t).hasLeft 1).card ≤ 1 := by
  have hinit : (system twoThreads).Reachable ⟨twoThreads.registered, fun _ => .outside⟩ :=
    .of_initial ⟨rfl, fun _ => rfl⟩
  -- thread 0 scans past thread 1 and returns from `lock`
  have h0 := ((((hinit.step (a := 0) (.lock rfl)).step (a := 0) (.search rfl)).step (a := 0)
    (.access rfl rfl)).step (a := 0) (.access rfl rfl)).step (a := 0) (.access rfl rfl)
  have h0 := (((h0.step (a := 0) (.access rfl rfl)).step (a := 0) (.access rfl rfl)).step (a := 0)
    (.access rfl rfl)).step (a := 0) (.access rfl rfl)
  -- thread 1 becomes the victim, finds itself so, and skips its own node
  have h1 := ((((h0.step (a := 1) (.lock rfl)).step (a := 1) (.search rfl)).step (a := 1)
    (.access rfl rfl)).step (a := 1) (.access rfl rfl)).step (a := 1) (.access rfl rfl)
  have h1 := h1.step (a := 1) (.access rfl rfl)
  exact ⟨_, h1, rfl, rfl, (pmutex_filter_safety twoThreads h1).1 1 le_rfl le_rfl⟩

end Sisop.Pmutex
