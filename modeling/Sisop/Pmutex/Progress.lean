import Mathlib.Algebra.BigOperators.Group.Finset.Basic
import Mathlib.Algebra.Order.BigOperators.Group.Finset
import Sisop.Pmutex.Exclusion

/-!
# `pmutex` never deadlocks

While some thread is in `lock` and none is between `lock` and `unlock`, the abstract
lock names a thread that is not held back. Left to run alone, that thread does its
store, or finishes the scan it is in, scans once more if it must, and leaves the
waiting loop. Either way it gets further in `lock`, so repeating this brings some
thread out of `lock`, by steps of threads that were in `lock` from the start.

## Main results

* `leaves_waiting` — a thread that is not held back leaves its waiting loop alone
* `pmutex_deadlock_free` — some thread in `lock` can be made to return from it
-/

namespace Sisop.Pmutex

open Foundations FilterLock

/-- A thread is inside `lock`. -/
def Phase.insideLock : Phase → Bool
  | .searching | .inLock _ _ => true
  | .outside | .critical | .exited => false

variable {T : Type} [DecidableEq T] [Fintype T] {r : Roster T} {p : PmutexT T}
  {level : T → ℕ} {victim : ℕ → Option T} {s : State T} {x : FilterLock.State T}
  {t v : T} {i j : ℕ}

/-! ### A thread running alone -/

/-- One access of `lock` that leaves the mutex unchanged. -/
def LocalStep (p : PmutexT T) (my : Option ℕ) (pc pc' : LockPc) : Prop :=
  lockStep p my pc = some (p, pc')

omit [Fintype T] in
/-- Accesses of one thread that leave the mutex unchanged are steps of the system. -/
theorem exists_run_of_localStep {my : Option ℕ} {pc pc' : LockPc}
    (hlocal : Relation.ReflTransGen (LocalStep s.p my) pc pc')
    (hphase : s.phase t = .ofLock my pc) :
    ∃ w, (system r).Run s w (s.enter s.p t (.ofLock my pc')) ∧ ∀ a ∈ w, a = t := by
  induction hlocal with
  | refl =>
    refine ⟨[], ?_, by simp⟩
    have hsame : s.enter s.p t (.ofLock my pc) = s := by
      simp [State.enter, ← hphase]
    rw [hsame]
    exact .refl s
  | @tail mid last _ hlast ih =>
    obtain ⟨w, hrun, hlabels⟩ := ih
    have hmid : Phase.ofLock my mid = .inLock my mid := by
      cases mid with
      | returned => cases hlast
      | _ => rfl
    have hstep : Step (s.enter s.p t (.ofLock my mid)) t
        ((s.enter s.p t (.ofLock my mid)).enter s.p t (.ofLock my last)) :=
      .access (by rw [enter_phase_self, hmid]) hlast
    refine ⟨w ++ [t], ?_, fun a ha => ?_⟩
    swap
    · rcases List.mem_append.mp ha with ha | ha
      · exact hlabels a ha
      · exact List.mem_singleton.mp ha
    have hjoin : (s.enter s.p t (.ofLock my mid)).enter s.p t (.ofLock my last) =
        s.enter s.p t (.ofLock my last) := by
      simp [State.enter]
    exact hjoin ▸ hrun.snoc hstep

/-- A scan comes to the condition of the waiting loop again, with `flg = 0` when all
other threads are below the level: by induction on the nodes left. -/
theorem scan_ends (hrep : Represents r p level victim) (i j : ℕ) :
    ∃ flg, Relation.ReflTransGen (LocalStep p (some (r.slot t))) (.scan i j)
        (.loadOnhold i flg) ∧
      ((∀ u, u ≠ t → level u < i) → flg = false) := by
  induction hleft : Fintype.card T - j generalizing j with
  | zero =>
    have hj : r.owners[j]? = none := by
      rw [List.getElem?_eq_none_iff, r.length_owners]
      omega
    exact ⟨false, .single (hrep.lockStep_scan_end hj), fun _ => rfl⟩
  | succ n ih =>
    obtain ⟨u, hu⟩ : ∃ u, r.owners[j]? = some u := by
      have hlt : j < r.owners.length := by
        rw [r.length_owners]
        omega
      exact ⟨_, List.getElem?_eq_getElem hlt⟩
    obtain ⟨flg, hrest, hflg⟩ := ih (j + 1) (by omega)
    have hstep := hrep.lockStep_scan (t := t) (i := i) hu
    by_cases hself : u = t
    · rw [if_pos hself] at hstep
      exact ⟨flg, .head hstep hrest, hflg⟩
    · rw [if_neg hself] at hstep
      by_cases hlevel : i ≤ level u
      · -- the scan breaks off here, and not when all others are below
        rw [if_pos hlevel] at hstep
        exact ⟨true, .single hstep, fun hbelow => absurd (hbelow u hself) (not_lt.mpr hlevel)⟩
      · rw [if_neg hlevel] at hstep
        exact ⟨flg, .head hstep hrest, hflg⟩

/-- From the condition of the waiting loop a thread that is not held back leaves the
loop: it is not the victim, or one more scan finds all others below the level. -/
theorem load_leaves (hrep : Represents r p level victim) (hi : 1 ≤ i)
    (hcard : i < Fintype.card T) (hv : victim i = some v)
    (hfree : v ≠ t ∨ ∀ u, u ≠ t → level u < i) (flg : Bool) :
    Relation.ReflTransGen (LocalStep p (some (r.slot t))) (.loadOnhold i flg)
      (forLevel p (i + 1)) := by
  have hload : ∀ flg, lockStep p (some (r.slot t)) (.loadOnhold i flg) =
      some (if v = t ∧ flg then (p, .scan i 0) else (p, forLevel p (i + 1))) := by
    intro flg
    rw [hrep.lockStep_loadOnhold hi hcard, hv, Option.map_some]
  have hout : Relation.ReflTransGen (LocalStep p (some (r.slot t))) (.loadOnhold i false)
      (forLevel p (i + 1)) := .single (by simp [LocalStep, hload])
  by_cases hstay : v = t ∧ flg
  · -- the victim goes through one more scan, which clears `flg`
    have hbelow := hfree.resolve_left fun h => h hstay.1
    obtain ⟨flg', hscan, hflg⟩ := scan_ends (t := t) hrep i 0
    rw [hflg hbelow] at hscan
    exact .head (by rw [LocalStep, hload, if_pos hstay]) (hscan.trans hout)
  · exact .single (by rw [LocalStep, hload, if_neg hstay])

/-- A thread that waits at level `i` is in the waiting loop of that level. -/
theorem Abstracts.exists_inLock (habs : Abstracts r s x) (hwaits : WaitsAt x i t) :
    ∃ pc, s.phase t = .inLock (some (r.slot t)) pc ∧
      ((∃ flg, pc = .loadOnhold i flg) ∨ ∃ j, pc = .scan i j) := by
  rw [WaitsAt, habs.control t] at hwaits
  cases hphase : s.phase t with
  | outside | searching | exited | critical => simp [hphase, Phase.control] at hwaits
  | inLock my pc =>
    obtain ⟨rfl, -⟩ := habs.mypnode t my pc hphase
    refine ⟨pc, rfl, ?_⟩
    rw [hphase, Phase.control] at hwaits
    cases pc with
    | storeLevel k | storeOnhold k | returned => simp [LockPc.control] at hwaits
    | loadOnhold k flg =>
      left
      cases flg <;> simp [LockPc.control] at hwaits <;> exact ⟨_, by rw [hwaits]⟩
    | scan k j =>
      right
      simp only [LockPc.control, reduceCtorEq, false_or, Control.scan.injEq] at hwaits
      obtain ⟨-, rfl, -⟩ := hwaits
      exact ⟨j, rfl⟩

/-- A thread in the waiting loop of level `i` that is not held back leaves the loop by
steps of its own, leaving the mutex as it is. -/
theorem leaves_waiting (habs : Abstracts r s x) (hinv : Invariant x)
    (hwaits : WaitsAt x i t) (hfree : x.victim i ≠ some t ∨ ∀ u, u ≠ t → x.level u < i) :
    ∃ w, (system r).Run s w (s.enter s.p t (.ofLock (some (r.slot t)) (forLevel s.p (i + 1)))) ∧
      ∀ a ∈ w, a = t := by
  obtain ⟨hi, hcard, v, hv⟩ := hinv.exists_victim hwaits
  have hfree' : v ≠ t ∨ ∀ u, u ≠ t → x.level u < i := by
    rcases hfree with hne | hbelow
    · exact Or.inl fun h => hne (h ▸ hv)
    · exact Or.inr hbelow
  have hload := load_leaves habs.memory hi hcard hv hfree'
  obtain ⟨pc, hphase, ⟨flg, rfl⟩ | ⟨j, rfl⟩⟩ := habs.exists_inLock hwaits
  · exact exists_run_of_localStep (hload flg) hphase
  · -- the scan under way is finished first
    obtain ⟨flg, hscan, -⟩ := scan_ends (t := t) habs.memory i j
    exact exists_run_of_localStep (hscan.trans (hload flg)) hphase

/-! ### The measure -/

/-- How far a thread has come in `lock`. -/
def LockPc.rank : LockPc → ℕ
  | .storeLevel i => 3 * i + 1
  | .storeOnhold i => 3 * i + 2
  | .loadOnhold i _ | .scan i _ => 3 * i + 3
  | .returned => 0

/-- How far a thread has come in `lock`; 0 outside of it. -/
def Phase.rank : Phase → ℕ
  | .inLock _ pc => pc.rank
  | .outside | .searching | .critical | .exited => 0

/-- What all threads together have still to do in `lock`. -/
def work (s : State T) : ℕ := ∑ t, (3 * Fintype.card T + 4 - (s.phase t).rank)

theorem work_enter_lt {p : PmutexT T} {phase : Phase} (hless : (s.phase t).rank < phase.rank)
    (hbound : phase.rank ≤ 3 * Fintype.card T + 4) : work (s.enter p t phase) < work s := by
  refine Finset.sum_lt_sum ?_ ⟨t, Finset.mem_univ t, ?_⟩
  · intro u _
    by_cases hu : u = t
    · subst hu
      rw [enter_phase_self]
      omega
    · rw [enter_phase_of_ne hu]
  · rw [enter_phase_self]
    omega

/-! ### Deadlock freedom -/

/-- What a plan that brings a thread out of `lock` keeps: the state stands for one of
the filter lock, nobody owns it, and the same threads are in `lock`. -/
structure Pending (r : Roster T) (s₀ s : State T) : Prop where
  abstract : ∃ x, Abstracts r s x ∧ Invariant x
  unowned : ∀ t, s.phase t ≠ .critical
  contenders : ∀ t, (s.phase t).insideLock = (s₀.phase t).insideLock

/-- Some thread that was in `lock` has returned from it. -/
def Returned (s₀ s : State T) : Prop :=
  ∃ t, (s₀.phase t).insideLock ∧ s.phase t = .critical

/-- Steps of threads that were in `lock` bring one of them out of it, or leave less to do. -/
def HasStage (r : Roster T) (s₀ s : State T) : Prop :=
  ∃ w s', (system r).Run s w s' ∧ (∀ a ∈ w, (s₀.phase a).insideLock) ∧
    (Returned s₀ s' ∨ Pending r s₀ s' ∧ work s' < work s)

variable {s₀ : State T}

/-- A run of one thread in `lock` that ends it in a further place in `lock`, or out of
it, is a stage of the plan. -/
theorem Pending.stage (hp : Pending r s₀ s) (hin : (s.phase t).insideLock)
    {w : List T} {p : PmutexT T} {my : Option ℕ} {pc : LockPc}
    (hrun : (system r).Run s w (s.enter p t (.ofLock my pc))) (hlabels : ∀ a ∈ w, a = t)
    (hless : pc ≠ .returned → (s.phase t).rank < pc.rank ∧ pc.rank ≤ 3 * Fintype.card T + 4) :
    HasStage r s₀ s := by
  have hin₀ : (s₀.phase t).insideLock := hp.contenders t ▸ hin
  refine ⟨w, _, hrun, fun a ha => by rw [hlabels a ha]; exact hin₀, ?_⟩
  by_cases hret : pc = .returned
  · subst hret
    exact Or.inl ⟨t, hin₀, by simp [Phase.ofLock]⟩
  · have hphase : Phase.ofLock my pc = .inLock my pc := by
      cases pc with
      | returned => exact absurd rfl hret
      | _ => rfl
    rw [hphase] at hrun ⊢
    refine Or.inr ⟨⟨exists_abstract_of_run hrun hp.abstract, ?_, ?_⟩, ?_⟩
    · intro u
      by_cases hu : u = t
      · subst hu
        simp
      · rw [enter_phase_of_ne hu]
        exact hp.unowned u
    · intro u
      by_cases hu : u = t
      · subst hu
        rw [enter_phase_self, hin₀]
        rfl
      · rw [enter_phase_of_ne hu]
        exact hp.contenders u
    · exact work_enter_lt (hless hret).1 (hless hret).2

omit [DecidableEq T] in
theorem forLevel_rank (hsize : p.size = Fintype.card T) (h : forLevel p i ≠ .returned) :
    (forLevel p i).rank = 3 * i + 1 ∧ i < Fintype.card T := by
  rw [forLevel, hsize] at h ⊢
  split_ifs at h ⊢ with hi
  · exact ⟨rfl, hi⟩
  · exact absurd rfl h

/-- A thread that is not held back takes one stage of the plan: it does its store, or it
leaves its waiting loop. -/
theorem Pending.stage_of_ready (hp : Pending r s₀ s) (habs : Abstracts r s x)
    (hinv : Invariant x) (hready : Ready x t) : HasStage r s₀ s := by
  have hmem := habs.memory
  have hcontrol := habs.control t
  have hrange := hinv.range t
  cases hphase : s.phase t with
  | outside | searching | exited | critical =>
    rw [hphase, Phase.control] at hcontrol
    simp [Ready, hcontrol] at hready
  | inLock my pc =>
    obtain ⟨rfl, hne⟩ := habs.mypnode t my pc hphase
    rw [hphase, Phase.control] at hcontrol
    rw [hcontrol] at hrange
    have hin : (s.phase t).insideLock := by rw [hphase]; rfl
    have hleave : ∀ k, WaitsAt x k t → pc.rank = 3 * k + 3 → HasStage r s₀ s := by
      intro k hk hrank
      have hfree : x.victim k ≠ some t ∨ ∀ u, u ≠ t → x.level u < k := by
        rcases hk with hc | ⟨seen, hc⟩ <;> simpa only [Ready, hc] using hready
      obtain ⟨w, hrun, hlabels⟩ := leaves_waiting habs hinv hk hfree
      apply hp.stage hin hrun hlabels
      intro hlast
      obtain ⟨hrank', hlt⟩ := forLevel_rank hmem.size hlast
      rw [hphase, Phase.rank, hrank, hrank']
      omega
    cases pc with
    | storeLevel k =>
      have hlt := hrange.2
      refine hp.stage hin
        (Machine.Run.single (.access hphase hmem.lockStep_storeLevel)) (by simp) fun _ => ?_
      rw [hphase]
      simp only [Phase.rank, LockPc.rank]
      omega
    | storeOnhold k =>
      have hlt := hrange.2
      refine hp.stage hin
        (Machine.Run.single (.access hphase (hmem.lockStep_storeOnhold hrange.1 hlt)))
        (by simp) fun _ => ?_
      rw [hphase]
      simp only [Phase.rank, LockPc.rank]
      omega
    | loadOnhold k flg =>
      refine hleave k ?_ rfl
      cases flg
      · exact Or.inr ⟨_, hcontrol⟩
      · exact Or.inl hcontrol
    | scan k j => exact hleave k (Or.inr ⟨_, hcontrol⟩) rfl
    | returned => exact absurd rfl hne

/-- From a pending state that has a thread in `lock` one stage of the plan follows. -/
theorem Pending.exists_stage (hp : Pending r s₀ s) (hin : (s.phase t).insideLock) :
    HasStage r s₀ s := by
  obtain ⟨x, habs, hinv⟩ := hp.abstract
  by_cases hsearch : ∃ u, s.phase u = .searching
  · -- a thread in the search finds its node
    obtain ⟨u, hu⟩ := hsearch
    apply hp.stage (by rw [hu]; rfl) (Machine.Run.single (.search hu)) (by simp)
    intro hne
    obtain ⟨hrank, hlt⟩ := forLevel_rank habs.memory.size hne
    rw [hu, hrank, Phase.rank]
    omega
  · -- otherwise somebody competes for the abstract lock and nobody owns it
    push Not at hsearch
    have hnone : ∀ u, x.control u ≠ .inside := by
      intro u hu
      exact hp.unowned u (habs.inside_iff.mp hu)
    have hsome : x.control t ≠ .outside := by
      intro ht
      rcases habs.outside_iff.mp ht with hphase | hphase | hphase
      · rw [hphase] at hin; cases hin
      · exact hsearch t hphase
      · rw [hphase] at hin; cases hin
    obtain ⟨q, hready⟩ := hinv.exists_ready hnone hsome
    exact hp.stage_of_ready habs hinv hready

/-- Deadlock freedom of `pmutex`: from every reachable state in which a thread is in
`lock` and none is between `lock` and `unlock`, steps of threads that are in `lock` in
that state alone can make one of them return from `lock`. -/
theorem pmutex_deadlock_free (r : Roster T) {s : State T} (hs : (system r).Reachable s)
    {t : T} (hin : (s.phase t).insideLock) (hunowned : ∀ u, s.phase u ≠ .critical) :
    ∃ w s', (system r).Run s w s' ∧ (∀ a ∈ w, (s.phase a).insideLock) ∧
      ∃ u, (s.phase u).insideLock ∧ s'.phase u = .critical := by
  refine Machine.exists_run_to_goal (I := Pending r s) work ?_
    ⟨exists_abstract hs, hunowned, fun _ => rfl⟩
  intro s' hp _
  exact hp.exists_stage (t := t) (by rw [hp.contenders t]; exact hin)

/-- Both threads in `lock` and thread 1 about to become the victim of level 1. -/
theorem pmutex_deadlock_free_two_threads :
    ∃ s, (system twoThreads).Reachable s ∧ s.phase 0 = .inLock (some 1) (.scan 1 0) ∧
      s.phase 1 = .inLock (some 0) (.storeOnhold 1) ∧
      ∃ w s', (system twoThreads).Run s w s' ∧ ∃ u, s'.phase u = .critical := by
  have hinit : (system twoThreads).Reachable ⟨twoThreads.registered, fun _ => .outside⟩ :=
    .of_initial ⟨rfl, fun _ => rfl⟩
  have h0 := ((((hinit.step (a := 0) (.lock rfl)).step (a := 0) (.search rfl)).step (a := 0)
    (.access rfl rfl)).step (a := 0) (.access rfl rfl)).step (a := 0) (.access rfl rfl)
  have h1 := ((h0.step (a := 1) (.lock rfl)).step (a := 1) (.search rfl)).step (a := 1)
    (.access rfl rfl)
  refine ⟨_, h1, rfl, rfl, ?_⟩
  obtain ⟨w, s', hrun, -, u, -, hu⟩ :=
    pmutex_deadlock_free twoThreads h1 (t := 0) rfl (by decide)
  exact ⟨w, s', hrun, u, hu⟩

end Sisop.Pmutex
