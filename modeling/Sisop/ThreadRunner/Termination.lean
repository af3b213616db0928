import Mathlib.Order.OrderIsoNat
import Sisop.Pmutex.Starvation
import Sisop.ThreadRunner.Progress

/-!
# `thread_runner` always comes to its end

In a fair behaviour `main` creates all threads and opens the gate. What is left to do
is then lowered again and again: if it stayed the same from some moment on, nobody
would hold the lock from some later moment on, and yet no thread could come by it.
In the semaphore build that is impossible because the semaphore is free while nobody
holds it, in the `PMUTEX_H2` build because no thread starves in `lock`. So all threads
exit, and `main` joins them.

## Main results

* `Quiet.exited` — where nobody ever holds the lock all threads have exited
* `thread_runner_terminates` — fair behaviours of both builds come to their end
* `thread_runner_never_stuck` — every reachable state leads there
-/

namespace Sisop.ThreadRunner

open Foundations Machine

variable {N B c : ℕ} {build : Build} {s t : State N} {i k : Fin N} {pc : ThPc} {e : Event N}

/-! ### Steps of one thread -/

/-- How a thread goes on in `th_gen`. -/
inductive ThPc.Next : ThPc → ThPc → Prop
  | gate : Next .gate .acquire
  | trywait : Next .acquire .test
  | lock : Next .acquire .searching
  | search (my : Option ℕ) (lpc : Pmutex.LockPc) : Next .searching (.ofLock my lpc)
  | access (my : Option ℕ) (lpc lpc' : Pmutex.LockPc) : Next (.inLock my lpc) (.ofLock my lpc')
  | full : Next .test (.release true)
  | room : Next .test .store
  | store : Next .store .advance
  | advance : Next .advance (.release false)
  | release (full : Bool) : Next (.release full) (if full then .exited else .acquire)

theorem Step.th_self (hstep : Step build B s e t) (hactor : e.actor = some i) :
    (s.th i).Next (t.th i) := by
  cases hstep with
  | initLock _ | create _ | add _ | openGate _ | join _ _ => cases hactor
  | gate hat _ | trywait _ hat _ | lock _ hat | search hat | access hat _ | full hat _
  | room hat _ | store hat | advance hat | release hat =>
    obtain rfl := Option.some.inj hactor
    rw [hat, goto_th_self]
    constructor

/-- Only after the step of `buffer_ptr` is the lock released for another round. -/
theorem ThPc.Next.of_release_false (h : pc.Next (.release false)) : pc = .advance := by
  generalize hto : ThPc.release false = pc' at h
  cases h with
  | advance => rfl
  | search my lpc | access my _ lpc => cases lpc <;> cases hto
  | release full => cases full <;> cases hto
  | gate | trywait | lock | full | room | store => cases hto

/-- Behind the open gate a step moves no thread but its own. -/
theorem Step.th_other (hstep : Step build B s e t) (hopen : s.main.opened = true)
    (hactor : e.actor ≠ some i) : t.th i = s.th i := by
  cases hstep with
  | initLock hat | create hat | add hat | openGate hat => simp [hat, MainPc.opened] at hopen
  | join _ _ => rfl
  | gate _ _ | trywait _ _ _ | lock _ _ | search _ | access _ _ | full _ _ | room _ _ | store _
  | advance _ =>
    exact goto_th_of_ne fun h => hactor (by rw [h]; rfl)
  | release _ =>
    rw [goto_th_of_ne fun h => hactor (by rw [h]; rfl), release_th]

/-- Behind the open gate a thread that has not exited can go on, unless it waits for the
semaphore. -/
theorem enabled_of_th (hs : (system build N B).Reachable s) (hopen : s.main.opened = true)
    (hexited : s.th i ≠ .exited)
    (hsem : s.th i = .acquire → build = .semaphore → 0 < s.sem) :
    (system build N B).Enabled (fun e => e.actor = some i) s := by
  have horder := Orderly.of_reachable hs
  cases hat : s.th i with
  | absent => exact absurd hat (horder.ne_absent hopen i)
  | gate =>
    cases build with
    | semaphore => exact absurd hat (horder.plain rfl i)
    | pmutexH2 => exact ⟨_, _, rfl, .gate hat (horder.started rfl hopen)⟩
  | acquire =>
    cases build with
    | semaphore => exact ⟨_, _, rfl, .trywait rfl hat (hsem hat rfl)⟩
    | pmutexH2 => exact ⟨_, _, rfl, .lock rfl hat⟩
  | searching => exact ⟨_, _, rfl, .search hat⟩
  | inLock my lpc =>
    cases build with
    | semaphore =>
      have hplain := (SemInvariant.of_reachable hs).plain i
      simp [hat, ThPc.inLockCode] at hplain
    | pmutexH2 =>
      obtain ⟨mutex', lpc', hnext⟩ := exists_access hs hat
      exact ⟨_, _, rfl, .access hat hnext⟩
  | test =>
    by_cases hlast : s.bufferPtr = B
    · exact ⟨_, _, rfl, .full hat hlast⟩
    · exact ⟨_, _, rfl, .room hat hlast⟩
  | store => exact ⟨_, _, rfl, .store hat⟩
  | advance => exact ⟨_, _, rfl, .advance hat⟩
  | release full => exact ⟨_, _, rfl, .release hat⟩
  | exited => exact absurd hat hexited

/-! ### Behaviours in which nothing gets done -/

/-- The gate is open and `c` is left to do. -/
structure Idle (build : Build) (B c : ℕ) (s : State N) : Prop where
  reachable : (system build N B).Reachable s
  opened : s.main.opened = true
  left : left B s = c

/-- A thread's step that leaves as much to do. -/
theorem Idle.th_self (hs : Idle build B c s) (ht : Idle build B c t)
    (hstep : Step build B s e t) (hactor : e.actor = some i) :
    (s.th i).Next (t.th i) ∧ s.th i ≠ .advance ∧ s.th i ≠ .release true := by
  refine ⟨hstep.th_self hactor, ?_⟩
  rcases left_step hs.reachable hstep with hless | ⟨-, hat⟩
  · rw [hs.left, ht.left] at hless
    exact absurd hless (lt_irrefl c)
  · exact hat i hactor

section Idle

variable {b : (system build N B).Behavior} {I : State N → Prop} {P Q : ThPc → Prop}

/-- The rule for one thread. -/
theorem Fair.leadsTo (hfair : Fair b) (i : Fin N) (measure : ThPc → ℕ)
    (hI : ∀ n, I (b.state n)) (hidle : ∀ s, I s → Idle build B c s)
    (henabled : ∀ s, I s → P (s.th i) → s.th i ≠ .exited ∧
      (s.th i = .acquire → build = .semaphore → 0 < s.sem))
    (hself : ∀ t pc pc', I t → t.th i = pc' → P pc → pc.Next pc' → pc ≠ .advance →
      pc ≠ .release true → Q pc' ∨ P pc' ∧ measure pc' < measure pc) :
    LeadsTo (fun n => P ((b.state n).th i)) fun n => Q ((b.state n).th i) := by
  refine Behavior.leadsTo_of_fair (P := fun s => P (s.th i)) (Q := fun s => Q (s.th i))
    (fun s => measure (s.th i)) hI (hfair (some i)) ?_ ?_
  · intro s hs hp
    obtain ⟨hexited, hsem⟩ := henabled s hs hp
    exact enabled_of_th (hidle s hs).reachable (hidle s hs).opened hexited hsem
  · intro s e t hs ht hp hstep
    have hstep : Step build B s e t := hstep
    by_cases hactor : e.actor = some i
    · obtain ⟨hnext, hadvance, hrelease⟩ := (hidle s hs).th_self (hidle t ht) hstep hactor
      exact (hself t _ _ ht rfl hp hnext hadvance hrelease).imp_right fun ⟨hp', hless⟩ =>
        ⟨hp', Or.inl hless⟩
    · rw [hstep.th_other (hidle s hs).opened hactor]
      exact Or.inr ⟨hp, Or.inr ⟨hactor, rfl⟩⟩

/-- The thread holds the lock, and its next round of the loop is not the next thing it does. -/
def ThPc.works : ThPc → Prop
  | .test | .store | .advance | .release true => True
  | _ => False

/-- How far a working thread is from having done something. -/
def ThPc.steps : ThPc → ℕ
  | .test => 2
  | .store => 1
  | _ => 0

/-- Where nothing gets done nobody works. -/
theorem Fair.nobody_works (hfair : Fair b) (hidle : ∀ n, Idle build B c (b.state n)) (n : ℕ)
    (i : Fin N) : ¬ ((b.state n).th i).works := by
  have hfalse : LeadsTo (fun n => ((b.state n).th i).works) fun _ => False := by
    refine hfair.leadsTo (P := ThPc.works) (Q := fun _ => False) i ThPc.steps
      hidle (fun _ h => h) ?_ ?_
    · intro s _ hw
      cases hat : s.th i <;> simp_all [ThPc.works]
    · intro _ pc pc' _ _ hw hnext hadvance hrelease
      right
      cases hnext with
      | full | room | store => exact ⟨trivial, by simp [ThPc.steps]⟩
      | advance => exact absurd rfl hadvance
      | release full =>
        cases full
        · cases hw
        · exact absurd rfl hrelease
      | gate | trywait | lock | search my lpc | access my lpc lpc' => cases hw
  intro hworks
  obtain ⟨-, -, hnever⟩ := hfalse n hworks
  exact hnever

/-- Nobody holds the lock and nothing gets done. -/
structure Quiet (build : Build) (B c : ℕ) (s : State N) : Prop extends Idle build B c s where
  unheld : ∀ i, (s.th i).holds = false

/-- Where nothing gets done nobody is about to release the lock any more. -/
theorem Fair.eventually_released (hfair : Fair b) (hidle : ∀ n, Idle build B c (b.state n))
    (i : Fin N) : ∃ n, ∀ m, n ≤ m → (b.state m).th i ≠ .release false := by
  obtain ⟨n, hn⟩ : ∃ n, (b.state n).th i ≠ .release false := by
    by_contra hstays
    push Not at hstays
    have hacquires : LeadsTo (fun n => (b.state n).th i = .release false)
        fun n => (b.state n).th i = .acquire := by
      refine hfair.leadsTo (P := fun pc => pc = .release false) (Q := fun pc => pc = .acquire) i
        (fun _ => 0) hidle (fun _ h => h) (fun s _ hat => by simp [hat]) ?_
      rintro _ pc pc' _ _ rfl hnext _ _
      cases hnext
      exact Or.inl rfl
    obtain ⟨m, -, hm⟩ := hacquires 0 (hstays 0)
    rw [hstays m] at hm
    cases hm
  refine ⟨n, fun m hm => ?_⟩
  induction m, hm using Nat.le_induction with
  | base => exact hn
  | succ m _ ih =>
    intro hlast
    rcases b.next_cases m with ⟨-, hsame⟩ | ⟨e, -, hstep⟩
    · exact ih (hsame ▸ hlast)
    · have hstep : Step build B (b.state m) e (b.state (m + 1)) := hstep
      by_cases hactor : e.actor = some i
      · obtain ⟨hnext, hadvance, -⟩ := (hidle m).th_self (hidle (m + 1)) hstep hactor
        rw [hlast] at hnext
        exact hadvance hnext.of_release_false
      · rw [hstep.th_other (hidle m).opened hactor] at hlast
        exact ih hlast

/-- Where nothing gets done nobody holds the lock from some moment on. -/
theorem Fair.eventually_quiet (hfair : Fair b) (hidle : ∀ n, Idle build B c (b.state n)) :
    ∃ n, ∀ m, n ≤ m → Quiet build B c (b.state m) := by
  have hall : ∀ᶠ m in Filter.atTop, ∀ i, (b.state m).th i ≠ .release false := by
    rw [Filter.eventually_all]
    intro i
    rw [Filter.eventually_atTop]
    exact hfair.eventually_released hidle i
  obtain ⟨n, hn⟩ := Filter.eventually_atTop.mp hall
  refine ⟨n, fun m hm => ⟨hidle m, fun i => ?_⟩⟩
  have hworks := hfair.nobody_works hidle m i
  have hreleased := hn m hm i
  cases hat : (b.state m).th i with
  | test | store | advance => simp [hat, ThPc.works] at hworks
  | release full =>
    cases full
    · exact absurd hat hreleased
    · simp [hat, ThPc.works] at hworks
  | absent | gate | acquire | searching | inLock my lpc | exited => rfl

end Idle

/-! ### Waiting for the semaphore -/

/-- In the semaphore build nobody waits for a lock that nobody ever holds. -/
theorem Fair.exited_of_semaphore {b : (system .semaphore N B).Behavior} (hfair : Fair b)
    (hquiet : ∀ n, Quiet .semaphore B c (b.state n)) (n : ℕ) (i : Fin N) :
    (b.state n).th i = .exited := by
  have horder := fun n => Orderly.of_reachable (hquiet n).reachable
  have hfalse : LeadsTo (fun n => (b.state n).th i = .acquire) fun _ => False := by
    refine hfair.leadsTo (P := fun pc => pc = .acquire) (Q := fun _ => False) i (fun _ => 0) hquiet
      (fun _ h => h.toIdle) ?_ ?_
    · intro s hs hat
      have hfree := (Orderly.of_reachable hs.reachable).free rfl hs.opened hs.unheld
      exact ⟨by simp [hat], fun _ _ => hfree⟩
    · rintro t pc pc' ht hat rfl hnext - -
      exfalso
      cases hnext with
      | trywait =>
        have hunheld := ht.unheld i
        simp [hat, ThPc.holds] at hunheld
      | lock =>
        have hplain := (SemInvariant.of_reachable ht.reachable).plain i
        simp [hat, ThPc.inLockCode] at hplain
  have hunheld := (hquiet n).unheld i
  have hplain := (SemInvariant.of_reachable (hquiet n).reachable).plain i
  cases hat : (b.state n).th i with
  | absent => exact absurd hat ((horder n).ne_absent (hquiet n).opened i)
  | gate => exact absurd hat ((horder n).plain rfl i)
  | acquire => exact (hfalse n hat).elim fun _ h => h.2.elim
  | searching | inLock my lpc => simp [hat, ThPc.inLockCode] at hplain
  | test | store | advance | release full => simp [hat, ThPc.holds] at hunheld
  | exited => rfl

/-! ### Waiting in `lock` -/

/-- The next step of the thread is one of the `pmutex` system. -/
def ThPc.locks : ThPc → Bool
  | .acquire | .searching | .inLock _ _ | .release _ => true
  | .absent | .gate | .test | .store | .advance | .exited => false

/-- The thread whose step is seen by the `pmutex` system. -/
def lockLabel (s : State N) (e : Option (Event N)) : Option (Fin N) :=
  (e.bind Event.actor).filter fun i => (s.th i).locks

theorem lockLabel_of_actor (h : e.actor = some i) :
    lockLabel s (some e) = if (s.th i).locks then some i else none := by
  simp [lockLabel, h, Option.filter]

/-- Behind the open gate a step of the program is one of the `pmutex` system or changes
nothing there, unless a thread exits. -/
theorem locks_step (hopen : s.main.opened = true) (hstep : Step .pmutexH2 B s e t)
    (hstay : ∀ i, e.actor = some i → s.th i ≠ .release true) :
    (Pmutex.system (roster N)).StepOrStay s.locks (lockLabel s (some e)) t.locks := by
  cases hstep with
  | initLock hat | create hat | add hat | openGate hat => simp [hat, MainPc.opened] at hopen
  | join _ _ => rfl
  | trywait hbuild _ _ => cases hbuild
  | @gate i hat _ | @full i hat _ | @room i hat _ | @store i hat | @advance i hat =>
    rw [lockLabel_of_actor (i := i) rfl, hat]
    exact locks_goto_of_phase (by rw [hat]; rfl)
  | @lock i _ hat =>
    rw [lockLabel_of_actor (i := i) rfl, hat, locks_goto]
    exact Pmutex.Step.lock (by simp [State.locks, hat, ThPc.phase])
  | @search i hat =>
    rw [lockLabel_of_actor (i := i) rfl, hat, locks_goto, phase_ofLock]
    exact Pmutex.Step.search (by simp [State.locks, hat, ThPc.phase])
  | @access i my lpc lpc' mutex' hat hnext =>
    rw [lockLabel_of_actor (i := i) rfl, hat, locks_goto, phase_ofLock]
    exact Pmutex.Step.access (by simp only [State.locks, hat, ThPc.phase]) hnext
  | @release i full hat =>
    cases full with
    | true => exact absurd hat (hstay i rfl)
    | false =>
      rw [lockLabel_of_actor (i := i) rfl, hat, locks_goto]
      exact Pmutex.Step.unlock (by simp [State.locks, hat, ThPc.phase])

section Lock

variable {b : (system .pmutexH2 N B).Behavior}

/-- What the `pmutex` system sees of a behaviour in which nothing gets done. -/
def locksBehavior (b : (system .pmutexH2 N B).Behavior)
    (hidle : ∀ n, Idle .pmutexH2 B c (b.state n)) :
    (Pmutex.system (roster N)).Behavior where
  state n := (b.state n).locks
  label n := lockLabel (b.state n) (b.label n)
  next n := by
    rcases b.next_cases n with ⟨hlabel, hsame⟩ | ⟨e, hlabel, hstep⟩
    · rw [hlabel, hsame]
      rfl
    · rw [hlabel]
      exact locks_step (hidle n).opened hstep fun i hi =>
        ((hidle n).th_self (hidle (n + 1)) hstep hi).2.2

/-- The place in `th_gen` of a thread that is in `lock`. -/
theorem insideLock_iff : ((s.locks.phase i).insideLock = true) ↔ (s.th i).inLockCode = true := by
  change (s.th i).phase.insideLock = true ↔ _
  cases s.th i <;> simp [ThPc.phase, Pmutex.Phase.insideLock, ThPc.inLockCode]

theorem critical_iff : s.locks.phase i = .critical ↔ (s.th i).holds = true := by
  change (s.th i).phase = .critical ↔ _
  cases s.th i <;> simp [ThPc.phase, ThPc.holds]

/-- To the `pmutex` system the behaviour is fair where nobody holds the lock. -/
theorem Fair.locks (hfair : Fair b) (hquiet : ∀ n, Quiet .pmutexH2 B c (b.state n)) :
    Pmutex.Fair (locksBehavior b fun n => (hquiet n).toIdle) := by
  intro i n
  obtain ⟨m, hnm, hm⟩ := hfair (some i) n
  refine ⟨m, hnm, ?_⟩
  by_cases hcode : ((b.state m).th i).inLockCode = true
  · left
    have henabled : (system .pmutexH2 N B).Enabled (fun e => e.actor = some i) (b.state m) := by
      refine enabled_of_th (hquiet m).reachable (hquiet m).opened ?_ fun _ h => by cases h
      intro hexited
      simp [hexited, ThPc.inLockCode] at hcode
    obtain ⟨e, hlabel, hactor⟩ := hm.resolve_right (not_not_intro henabled)
    refine ⟨i, ?_, rfl⟩
    change lockLabel (b.state m) (b.label m) = some i
    rw [hlabel, lockLabel_of_actor hactor, if_pos]
    cases hat : (b.state m).th i <;> simp [hat, ThPc.inLockCode, ThPc.locks] at hcode ⊢
  · right
    rintro (hin | hcritical)
    · exact hcode (insideLock_iff.mp hin)
    · have hunheld := (hquiet m).unheld i
      rw [critical_iff.mp hcritical] at hunheld
      cases hunheld

/-- In the `PMUTEX_H2` build no thread waits for a lock that nobody ever holds. -/
theorem Fair.exited_of_pmutexH2 (hfair : Fair b) (hquiet : ∀ n, Quiet .pmutexH2 B c (b.state n))
    (n : ℕ) (i : Fin N) : (b.state n).th i = .exited := by
  have hnever : ∀ n, (b.state n).th i ≠ .searching ∧ ((b.state n).th i).inLockCode = false := by
    intro n
    have hcode : ((b.state n).th i).inLockCode = false := by
      by_contra hin
      rw [Bool.not_eq_false] at hin
      -- no thread starves in `lock`, so thread `i` would come to hold it
      obtain ⟨m, -, hm⟩ := (hfair.locks hquiet).acquires (fun m => Pmutex.exists_abstract
        (locks_reachable (hquiet m).reachable (hquiet m).opened)) i n (insideLock_iff.mpr hin)
      have hunheld := (hquiet m).unheld i
      rw [critical_iff.mp hm] at hunheld
      cases hunheld
    refine ⟨fun hat => ?_, hcode⟩
    simp [hat, ThPc.inLockCode] at hcode
  have hlock : LeadsTo (fun n => (b.state n).th i = .acquire)
      fun n => (b.state n).th i = .searching := by
    refine hfair.leadsTo (P := fun pc => pc = .acquire) (Q := fun pc => pc = .searching) i
      (fun _ => 0) hquiet (fun _ h => h.toIdle) (fun s _ hat => by simp [hat]) ?_
    rintro t pc pc' ht hat rfl hnext - -
    cases hnext with
    | lock => exact Or.inl rfl
    | trywait =>
      have hunheld := ht.unheld i
      simp [hat, ThPc.holds] at hunheld
  have hgate : LeadsTo (fun n => (b.state n).th i = .gate)
      fun n => (b.state n).th i = .acquire := by
    refine hfair.leadsTo (P := fun pc => pc = .gate) (Q := fun pc => pc = .acquire) i
      (fun _ => 0) hquiet (fun _ h => h.toIdle) (fun s _ hat => by simp [hat]) ?_
    rintro _ pc pc' - - rfl hnext - -
    cases hnext
    exact Or.inl rfl
  have hunheld := (hquiet n).unheld i
  have hcode := (hnever n).2
  cases hat : (b.state n).th i with
  | absent =>
    exact absurd hat ((Orderly.of_reachable (hquiet n).reachable).ne_absent (hquiet n).opened i)
  | gate =>
    obtain ⟨m, -, hm⟩ := (hgate.trans hlock) n hat
    exact absurd hm (hnever m).1
  | acquire =>
    obtain ⟨m, -, hm⟩ := hlock n hat
    exact absurd hm (hnever m).1
  | searching | inLock my lpc => simp [hat, ThPc.inLockCode] at hcode
  | test | store | advance | release full => simp [hat, ThPc.holds] at hunheld
  | exited => rfl

end Lock

/-! ### The whole program -/

section Program

variable {b : (system build N B).Behavior}

/-- What `main` has still to do before it opens the gate. -/
def MainPc.toOpen (N : ℕ) : MainPc → ℕ
  | .start => 2 * N + 3
  | .create i => 2 * (N - i) + 2
  | .add i => 2 * (N - i) + 1
  | .openGate => 1
  | .join _ => 0

theorem toOpen_forCreate {n : ℕ} : (forCreate N n).toOpen N ≤ 2 * (N - n) + 2 := by
  unfold forCreate
  split_ifs with h
  · exact le_rfl
  · simp [MainPc.toOpen]

/-- Before the gate opens `main` can go on. -/
theorem enabled_of_closed (hs : (system build N B).Reachable s) (hclosed : s.main.opened = false) :
    (system build N B).Enabled (fun e => e.actor = none) s := by
  have hrange := (Orderly.of_reachable hs).range
  cases hmain : s.main with
  | start => exact ⟨_, _, rfl, .initLock hmain⟩
  | create i =>
    rw [hmain] at hrange
    exact ⟨_, _, rfl, .create (i := ⟨i, hrange⟩) hmain⟩
  | add i =>
    rw [hmain] at hrange
    exact ⟨_, _, rfl, .add (i := ⟨i, hrange⟩) hmain⟩
  | openGate => exact ⟨_, _, rfl, .openGate hmain⟩
  | join i => simp [hmain, MainPc.opened] at hclosed

/-- A step of `main` before the gate opens brings the opening nearer. It moves threads only
to where they start. -/
theorem main_step_of_closed (hstep : Step build B s e t) (hactor : e.actor = none)
    (hclosed : s.main.opened = false) :
    (t.main.opened = true ∨ t.main.opened = false ∧ t.main.toOpen N < s.main.toOpen N) ∧
      t.bufferPtr = s.bufferPtr ∧ ∀ k, t.th k = s.th k ∨ t.th k = .fresh build := by
  cases hstep with
  | initLock hat =>
    have hle := toOpen_forCreate (N := N) (n := 0)
    refine ⟨Or.inr ⟨opened_forCreate 0, ?_⟩, ?_, fun k => Or.inl ?_⟩
    · rw [hat]
      simp only [MainPc.toOpen] at hle ⊢
      omega
    · cases build <;> rfl
    · cases build <;> rfl
  | @create i hat =>
    have hle := toOpen_forCreate (N := N) (n := i + 1)
    have hlt := i.isLt
    refine ⟨Or.inr ⟨opened_afterCreate _, ?_⟩, rfl, fun k => ?_⟩
    · rw [hat, goto_main]
      cases build with
      | semaphore =>
        simp only [afterCreate, MainPc.toOpen] at hle ⊢
        omega
      | pmutexH2 =>
        simp only [afterCreate, MainPc.toOpen]
        omega
    · by_cases hk : k = i
      · subst hk
        exact Or.inr goto_th_self
      · exact Or.inl (goto_th_of_ne hk)
  | @add i hat =>
    have hle := toOpen_forCreate (N := N) (n := i + 1)
    have hlt := i.isLt
    refine ⟨Or.inr ⟨opened_forCreate _, ?_⟩, rfl, fun k => Or.inl rfl⟩
    rw [hat]
    simp only [MainPc.toOpen] at hle ⊢
    omega
  | openGate _ =>
    refine ⟨Or.inl rfl, ?_, fun k => Or.inl ?_⟩ <;> cases build <;> rfl
  | join hat _ => simp [hat, MainPc.opened] at hclosed
  | gate _ _ | trywait _ _ _ | lock _ _ | search _ | access _ _ | full _ _ | room _ _ | store _
  | advance _ | release _ => cases hactor

/-- A thread's step leaves `main` where it is. -/
theorem main_of_actor (hstep : Step build B s e t) (hactor : e.actor ≠ none) :
    t.main = s.main := by
  cases hstep with
  | initLock _ | create _ | add _ | openGate _ | join _ _ => exact absurd rfl hactor
  | gate _ _ | trywait _ _ _ | lock _ _ | search _ | access _ _ | full _ _ | room _ _ | store _
  | advance _ => rfl
  | release _ => rw [goto_main, release_main]

/-- `main` opens the gate. -/
theorem Fair.opens (hfair : Fair b) (hreach : ∀ n, (system build N B).Reachable (b.state n)) :
    LeadsTo (fun n => (b.state n).main.opened = false)
      fun n => (b.state n).main.opened = true := by
  refine Behavior.leadsTo_of_fair (P := fun s : State N => s.main.opened = false)
    (Q := fun s => s.main.opened = true) (fun s => s.main.toOpen N) hreach (hfair none)
    (fun s hs hclosed => enabled_of_closed hs hclosed) ?_
  intro s e t _ _ hclosed hstep
  have hstep : Step build B s e t := hstep
  by_cases hactor : e.actor = none
  · exact (main_step_of_closed hstep hactor hclosed).1.imp_right fun h => ⟨h.1, Or.inl h.2⟩
  · rw [main_of_actor hstep hactor]
    exact Or.inr ⟨hclosed, Or.inr ⟨hactor, rfl⟩⟩

/-- The gate stays open. -/
theorem opened_step (hstep : Step build B s e t) (hopen : s.main.opened = true) :
    t.main.opened = true := by
  cases hstep with
  | initLock hat | create hat | add hat | openGate hat => simp [hat, MainPc.opened] at hopen
  | join _ _ => rfl
  | gate _ _ | trywait _ _ _ | lock _ _ | search _ | access _ _ | full _ _ | room _ _ | store _
  | advance _ => exact hopen
  | release _ => rwa [goto_main, release_main]

/-- All threads exit. -/
theorem Fair.exits (hfair : Fair b) (hreach : ∀ n, (system build N B).Reachable (b.state n))
    (hopen : ∀ n, (b.state n).main.opened = true) : ∃ n, ∀ i, (b.state n).th i = .exited := by
  have hdown : Antitone fun n => left B (b.state n) := by
    refine antitone_nat_of_succ_le fun n => ?_
    rcases b.next_cases n with ⟨-, hsame⟩ | ⟨e, -, hstep⟩
    · rw [hsame]
    · rcases left_step (hreach n) hstep with hless | ⟨heq, -⟩
      · exact hless.le
      · exact heq.le
  obtain ⟨n, hn⟩ := WellFoundedLT.antitone_chain_condition hdown
  -- from moment `n` on nothing gets done
  have hidle : ∀ m, Idle build B (left B (b.state n)) ((b.drop n).state m) := fun m =>
    ⟨hreach _, hopen _, (hn _ (Nat.le_add_right n m)).symm⟩
  have hfair' : Fair (b.drop n) := fun a => (hfair a).drop n
  obtain ⟨k, hk⟩ := hfair'.eventually_quiet hidle
  have hquiet : ∀ m, Quiet build B (left B (b.state n)) (((b.drop n).drop k).state m) :=
    fun m => hk _ (Nat.le_add_right k m)
  have hfair'' : Fair ((b.drop n).drop k) := fun a => (hfair' a).drop k
  refine ⟨n + (k + 0), fun i => ?_⟩
  cases build with
  | semaphore => exact hfair''.exited_of_semaphore hquiet 0 i
  | pmutexH2 => exact hfair''.exited_of_pmutexH2 hquiet 0 i

/-- A thread that has exited stays so. -/
theorem exited_step (hopen : s.main.opened = true) (hstep : Step build B s e t)
    (hi : s.th i = .exited) : t.th i = .exited := by
  by_cases hactor : e.actor = some i
  · have hnext := hstep.th_self hactor
    rw [hi] at hnext
    cases hnext
  · rwa [hstep.th_other hopen hactor]

/-- `main` joins the threads once they have exited. -/
theorem Fair.joins (hfair : Fair b) (hreach : ∀ n, (system build N B).Reachable (b.state n))
    (hopen : ∀ n, (b.state n).main.opened = true) (hexited : ∀ n i, (b.state n).th i = .exited) :
    ∃ n, (b.state n).main = .join N := by
  have hjoins : LeadsTo (fun n => (b.state n).main ≠ .join N)
      fun n => (b.state n).main = .join N := by
    refine Behavior.leadsTo_of_fair (I := fun s => (system build N B).Reachable s ∧
        s.main.opened = true ∧ ∀ i, s.th i = .exited) (P := fun s => s.main ≠ .join N)
      (Q := fun s => s.main = .join N) (fun s => N - s.main.joined)
      (fun n => ⟨hreach n, hopen n, hexited n⟩) (hfair none) ?_ ?_
    · rintro s ⟨hs, hopen, hexited⟩ hne
      have hrange := (Orderly.of_reachable hs).range
      cases hmain : s.main with
      | join j =>
        rw [hmain] at hrange hne
        have hlt : j < N := lt_of_le_of_ne hrange fun h => hne (by rw [h])
        exact ⟨_, _, rfl, .join (i := ⟨j, hlt⟩) hmain (hexited _)⟩
      | start | create _ | add _ | openGate => simp [hmain, MainPc.opened] at hopen
    · rintro s e t ⟨hs, hopen, hexited⟩ - hne hstep
      have hstep : Step build B s e t := hstep
      by_cases hactor : e.actor = none
      · cases hstep with
        | initLock hat | create hat | add hat | openGate hat =>
          simp [hat, MainPc.opened] at hopen
        | @join i hat _ =>
          by_cases hlast : i.val + 1 = N
          · exact Or.inl (by rw [hlast])
          · refine Or.inr ⟨fun h => hlast (MainPc.join.inj h), Or.inl ?_⟩
            have hlt := i.isLt
            rw [hat]
            simp only [MainPc.joined]
            omega
        | gate _ _ | trywait _ _ _ | lock _ _ | search _ | access _ _ | full _ _ | room _ _
        | store _ | advance _ | release _ => cases hactor
      · -- no thread can go on
        obtain ⟨i, hi⟩ := Option.ne_none_iff_exists'.mp hactor
        have hnext := hstep.th_self hi
        rw [hexited i] at hnext
        cases hnext
  by_cases hmain : (b.state 0).main = .join N
  · exact ⟨0, hmain⟩
  · obtain ⟨n, -, hn⟩ := hjoins 0 hmain
    exact ⟨n, hn⟩

/-- `main` has joined all threads, which have exited, and every slot of the buffer holds
the name of a thread, with the terminator behind them. -/
structure Finished (B : ℕ) (s : State N) : Prop where
  joined : s.main = .join N
  exited : ∀ i, s.th i = .exited
  filled : 1 ≤ N → ∀ k < B, ∃ i : Fin N, s.buffer[k]? = some (getThName i)
  terminated : s.buffer[B]? = some 0

theorem Finished.of_reachable (hs : (system build N B).Reachable s) (hmain : s.main = .join N)
    (hexited : ∀ i, s.th i = .exited) : Finished B s where
  joined := hmain
  exited := hexited
  filled := by
    intro hN k hk
    obtain ⟨s₀, w, rfl, hrun⟩ := hs
    have hslots := SlotInvariant.of_run hrun
    have hptr : s.bufferPtr = B := hslots.full ⟨0, hN⟩ (Or.inl (hexited _))
    obtain ⟨i, -, hi⟩ := hslots.below k (hptr ▸ hk)
    exact ⟨i, hi⟩
  terminated := by
    obtain ⟨s₀, w, rfl, hrun⟩ := hs
    have hslots := SlotInvariant.of_run hrun
    rcases hslots.le.eq_or_lt with heq | hlt
    · exact heq ▸ (hslots.clean fun i => by simp [hexited i]).2
    · exact (hslots.above B hlt).2 le_rfl

/-- A fair behaviour comes to the end of the program. -/
theorem Fair.finishes (hfair : Fair b) (hreach : (system build N B).Reachable (b.state 0)) :
    ∃ n, Finished B (b.state n) := by
  have hall := b.reachable hreach
  obtain ⟨n, hn⟩ : ∃ n, (b.state n).main.opened = true := by
    by_cases hopen : (b.state 0).main.opened = true
    · exact ⟨0, hopen⟩
    · obtain ⟨n, -, hn⟩ := hfair.opens hall 0 (by simpa using hopen)
      exact ⟨n, hn⟩
  have hopened : ∀ m, ((b.drop n).state m).main.opened = true := fun m =>
    b.invariant_from (I := fun s => s.main.opened = true) (fun hstep h => opened_step hstep h) hn
      (Nat.le_add_right n m)
  have hfair' : Fair (b.drop n) := fun a => (hfair a).drop n
  obtain ⟨k, hk⟩ := hfair'.exits (fun m => hall _) hopened
  have hexited : ∀ m i, (((b.drop n).drop k).state m).th i = .exited := by
    intro m i
    exact ((b.drop n).invariant_from
      (I := fun s => s.main.opened = true ∧ s.th i = .exited)
      (fun hstep h => ⟨opened_step hstep h.1, exited_step h.1 hstep h.2⟩)
      ⟨hopened k, hk i⟩ (Nat.le_add_right k m)).2
  have hfair'' : Fair ((b.drop n).drop k) := fun a => (hfair' a).drop k
  obtain ⟨l, hl⟩ := hfair''.joins (fun m => hall _) (fun m => hopened _) hexited
  exact ⟨n + (k + l), .of_reachable (hall _) hl (hexited l)⟩

/-- From every reachable state some further steps lead to the end of the program. -/
theorem exists_run_to_end (hs : (system build N B).Reachable s) :
    ∃ w t, (system build N B).Run s w t ∧ Finished B t := by
  obtain ⟨b, hstart, hfair⟩ := exists_fair build B s
  obtain ⟨n, hn⟩ := hfair.finishes (hstart ▸ hs)
  obtain ⟨w, hrun⟩ := b.exists_run (Nat.zero_le n)
  exact ⟨w, _, hstart ▸ hrun, hn⟩

/-- At the end no step is left. -/
theorem Finished.no_step (h : Finished B s) : ¬ Step build B s e t := by
  intro hstep
  have hopen : s.main.opened = true := by rw [h.joined]; rfl
  cases hactor : e.actor with
  | some i =>
    have hnext := hstep.th_self hactor
    rw [h.exited i] at hnext
    cases hnext
  | none =>
    cases hstep with
    | initLock hat | create hat | add hat | openGate hat => simp [hat, MainPc.opened] at hopen
    | @join i hat _ =>
      have hlast : i.val = N := MainPc.join.inj (hat.symm.trans h.joined)
      exact absurd i.isLt hlast.ge.not_gt
    | gate _ _ | trywait _ _ _ | lock _ _ | search _ | access _ _ | full _ _ | room _ _
    | store _ | advance _ | release _ => cases hactor

/-- Both builds terminate under fair scheduling, for every number of threads and every size
of the buffer: whatever happened before, a behaviour that holds up neither `main` nor a
thread for ever comes to the end, with the buffer filled if there is a thread. -/
theorem thread_runner_terminates (build : Build) (N B : ℕ) (b : (system build N B).Behavior)
    (hreach : (system build N B).Reachable (b.state 0)) (hfair : Fair b) :
    ∃ n, Finished B (b.state n) :=
  hfair.finishes hreach

/-- Three threads of the `PMUTEX_H2` build over four bytes. -/
theorem thread_runner_terminates_three_threads :
    ∃ b : (system .pmutexH2 3 4).Behavior, b.state 0 = initState 3 4 ∧ Fair b ∧
      ∃ n, Finished 4 (b.state n) := by
  obtain ⟨b, hstart, hfair⟩ := exists_fair .pmutexH2 4 (initState 3 4)
  have hreach : (system .pmutexH2 3 4).Reachable (b.state 0) := .of_initial hstart
  exact ⟨b, hstart, hfair, thread_runner_terminates .pmutexH2 3 4 b hreach hfair⟩

/-- Neither build can get stuck: from every reachable state the end of the program can be
reached, and it is the only kind of reachable state in which no step is possible. -/
theorem thread_runner_never_stuck (build : Build) (N B : ℕ) {s : State N}
    (hs : (system build N B).Reachable s) :
    (∃ w t, (system build N B).Run s w t ∧ Finished B t) ∧
      ((∀ e t, ¬ Step build B s e t) ↔ Finished B s) := by
  obtain ⟨w, t, hrun, hend⟩ := exists_run_to_end hs
  refine ⟨⟨w, t, hrun, hend⟩, fun hstuck => ?_, fun h _ _ => h.no_step⟩
  cases w with
  | nil => exact hrun.eq_of_nil ▸ hend
  | cons e w =>
    obtain ⟨u, hstep, -⟩ := hrun.of_cons
    exact absurd hstep (hstuck e u)

/-- From the start, with three threads and four bytes. -/
theorem thread_runner_never_stuck_three_threads :
    (∃ w t, (system .semaphore 3 4).Run (initState 3 4) w t ∧ Finished 4 t) ∧
      ((∀ e t, ¬ Step .semaphore 4 (initState 3 4) e t) ↔ Finished 4 (initState 3 4)) :=
  thread_runner_never_stuck .semaphore 3 4 (.of_initial rfl)

end Program

end Sisop.ThreadRunner
