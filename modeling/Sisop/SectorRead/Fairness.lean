import Sisop.Foundations.Behavior
import Sisop.SectorRead.Barrier

/-!
# Every fair run comes to rest

Every step leaves fewer steps to come, so all that fairness has to ask for is that the
program does not stand still while it can move. Then it comes to rest, and where it does
is decided by the threads whose `open` fails, not by the order of the steps: without one it
ends, and with one it is stuck for good.

## Main results

* `Fair.comes_to_rest` — a fair behaviour comes to rest
* `generator_ends_iff` — it ends, or is stuck for good, according to the failing threads
-/

namespace Sisop.SectorRead

open Foundations Machine

variable {procs : ℕ} {fails : Finset (Fin procs)} {s u : State procs} {a : Actor procs}

/-- The program does not stand still for ever while it can move. -/
def Fair (b : (generator fails).Behavior) : Prop :=
  b.WeaklyFair (fun _ => True) ((generator fails).Enabled fun _ => True)

theorem exists_fair (fails : Finset (Fin procs)) (s : State procs) :
    ∃ b : (generator fails).Behavior, b.state 0 = s ∧ Fair b := by
  obtain ⟨b, hstart, hfair⟩ := (generator fails).exists_fair_behavior (fun (_ : Unit) _ => True) s
  exact ⟨b, hstart, hfair ()⟩

theorem Stuck.no_step (h : Stuck s) : ¬ Step fails s a u := by
  obtain ⟨⟨i, hmain⟩, hs1, hthreads⟩ := h
  -- a thread that has not exited can only wait for `s0`
  have hwaits : ∀ t, s.th t ≠ .absent → s.th t ≠ .exited → s.th t = .waitBegin ∧ s.s0 = 0 :=
    hthreads
  intro hstep
  cases hstep with
  | create at_main | letBegin at_main => simp [hmain] at at_main
  | waitReady at_main positive => omega
  | @openFails t at_th _ | @openDevice t at_th _ | @postReady t at_th | @write t i at_th =>
    have hwait := (hwaits t (by simp [at_th]) (by simp [at_th])).1
    simp [at_th] at hwait
  | @waitBegin t at_th positive =>
    have hwait := (hwaits t (by simp [at_th]) (by simp [at_th])).2
    omega

theorem Finished.no_step (h : Finished s) : ¬ Step fails s a u := by
  intro hstep
  cases hstep with
  | create at_main | waitReady at_main | letBegin at_main => simp [h.main] at at_main
  | @openFails t at_th _ | @openDevice t at_th _ | @postReady t at_th | @waitBegin t at_th _
  | @write t i at_th => simp [h.threads] at at_th

/-- A fair behaviour comes to rest. -/
theorem Fair.comes_to_rest {b : (generator fails).Behavior} (hfair : Fair b)
    (hreach : (generator fails).Reachable (b.state 0)) :
    ∃ n, Stuck (b.state n) ∨ Finished (b.state n) := by
  have hbal : ∀ n, Balanced fails (b.state n) := fun n =>
    balanced_of_reachable (b.reachable hreach n)
  by_cases hrest : Stuck (b.state 0) ∨ Finished (b.state 0)
  · exact ⟨0, hrest⟩
  · obtain ⟨n, -, hn⟩ := Behavior.leadsTo_of_fair (P := fun s => ¬(Stuck s ∨ Finished s))
      (Q := fun s => Stuck s ∨ Finished s) work hbal hfair
      (fun s hs hrest => by
        rw [not_or] at hrest
        obtain ⟨a, u, hstep⟩ := hs.exists_step hrest.1 hrest.2
        exact ⟨a, u, trivial, hstep⟩)
      (fun s a u hs _ _ hstep => by
        by_cases hu : Stuck u ∨ Finished u
        · exact Or.inl hu
        · exact Or.inr ⟨hu, Or.inl (hs.work_lt hstep)⟩) 0 hrest
    exact ⟨n, hn⟩

/-- From a state at rest on nothing happens. -/
theorem state_of_rest {b : (generator fails).Behavior} {n m : ℕ}
    (hrest : Stuck (b.state n) ∨ Finished (b.state n)) (hnm : n ≤ m) :
    b.state m = b.state n := by
  refine b.invariant_from (I := fun s => s = b.state n) ?_ rfl hnm
  rintro s a u hstep rfl
  exact absurd hstep (hrest.elim (fun h => h.no_step) fun h => h.no_step)

/-- Every fair behaviour of the generator ends for good, in every order of the steps, if and
only if no thread fails to open the device; and it is stuck for good, with `main` and the
threads that have opened the device waiting for ever, if and only if one does. -/
theorem generator_ends_iff (fails : Finset (Fin procs)) (b : (generator fails).Behavior)
    (hreach : (generator fails).Reachable (b.state 0)) (hfair : Fair b) :
    ((∃ n, ∀ m, n ≤ m → Finished (b.state m)) ↔ fails = ∅) ∧
      ((∃ n, ∀ m, n ≤ m → Stuck (b.state m)) ↔ fails.Nonempty) := by
  obtain ⟨n, hrest⟩ := hfair.comes_to_rest hreach
  have hbal : ∀ m, Balanced fails (b.state m) := fun m =>
    balanced_of_reachable (b.reachable hreach m)
  have hends : Finished (b.state n) → fails = ∅ := fun hend =>
    Finset.not_nonempty_iff_eq_empty.mp fun hne => (hbal n).not_finished hne hend
  have hstuck : Stuck (b.state n) → fails.Nonempty := by
    intro hstuck
    by_contra hne
    rw [Finset.not_nonempty_iff_eq_empty] at hne
    subst hne
    exact (hbal n).not_stuck hstuck
  refine ⟨⟨?_, fun hempty => ⟨n, fun m hm => ?_⟩⟩, ⟨?_, fun hne => ⟨n, fun m hm => ?_⟩⟩⟩
  · rintro ⟨k, hk⟩
    exact Finset.not_nonempty_iff_eq_empty.mp fun hne => (hbal k).not_finished hne (hk k le_rfl)
  · rw [state_of_rest hrest hm]
    exact hrest.resolve_left fun h => (hstuck h).ne_empty hempty
  · rintro ⟨k, hk⟩
    by_contra hne
    rw [Finset.not_nonempty_iff_eq_empty] at hne
    subst hne
    exact (hbal k).not_stuck (hk k le_rfl)
  · rw [state_of_rest hrest hm]
    exact hrest.resolve_right fun h => hne.ne_empty (hends h)

/-- Three threads of which one fails. -/
theorem generator_ends_three_threads :
    ∃ b : (generator ({1} : Finset (Fin 3))).Behavior, b.state 0 = initState 3 ∧ Fair b ∧
      ∃ n, ∀ m, n ≤ m → Stuck (b.state m) := by
  obtain ⟨b, hstart, hfair⟩ := exists_fair ({1} : Finset (Fin 3)) (initState 3)
  have hreach : (generator ({1} : Finset (Fin 3))).Reachable (b.state 0) := .of_initial hstart
  exact ⟨b, hstart, hfair, (generator_ends_iff {1} b hreach hfair).2.mpr ⟨1, by simp⟩⟩

end Sisop.SectorRead
