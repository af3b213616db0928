import Sisop.Pmutex.Exclusion
import Sisop.ThreadRunner.Basic

/-!
# One thread at a time works on the buffer

In both builds the part of a round between acquiring and releasing the lock excludes
itself, and nobody enters it before `main` opens the gate. In the semaphore build the
count of the semaphore carries this. In the `PMUTEX_H2` build the threads of the
program, once the gate is open, are threads of a registered `pmutex`: their rounds
refine the system whose exclusion the `pmutex` module establishes.

## Main results

* `locks_reachable` — behind the open gate the program refines the `pmutex` system
* `exists_access` — no access of `lock` is undefined
* `Exclusive.of_reachable` — exclusion and gate, in both builds
-/

namespace Sisop.ThreadRunner

open Foundations Pmutex

variable {N B : ℕ} {build : Build} {s t : State N} {i k : Fin N} {pc : ThPc} {e : Event N}

/-- The thread is between acquiring and releasing the lock. -/
def ThPc.holds : ThPc → Bool
  | .test | .store | .advance | .release _ => true
  | .absent | .gate | .acquire | .searching | .inLock _ _ | .exited => false

/-- `main` has opened the gate. -/
def MainPc.opened : MainPc → Bool
  | .join _ => true
  | .start | .create _ | .add _ | .openGate => false

theorem opened_forCreate (n : ℕ) : (forCreate N n).opened = false := by
  unfold forCreate
  split_ifs <;> rfl

theorem opened_afterCreate (n : ℕ) : (afterCreate N n build).opened = false := by
  cases build
  · exact opened_forCreate _
  · rfl

/-! ### The semaphore build -/

/-- The thread is in the code of `lock`. -/
def ThPc.inLockCode : ThPc → Bool
  | .searching | .inLock _ _ => true
  | _ => false

/-- The count is positive only behind the open gate and while nobody holds the lock. -/
structure SemInvariant (s : State N) : Prop where
  closed : s.main.opened = false → s.sem = 0 ∧ ∀ i, (s.th i).holds = false
  le_one : s.sem ≤ 1
  free : 0 < s.sem → ∀ i, (s.th i).holds = false
  unique : ∀ i k, (s.th i).holds → (s.th k).holds → i = k
  plain : ∀ i, (s.th i).inLockCode = false

/-- A thread's move that neither acquires nor releases keeps the invariant. -/
theorem SemInvariant.goto (hinv : SemInvariant s) (hmain : t.main = s.main)
    (hsem : t.sem = s.sem) (hth : t.th = (s.goto i pc).th)
    (hholds : pc.holds = (s.th i).holds) (hplain : pc.inLockCode = false) :
    SemInvariant t := by
  have hsame : ∀ k, (t.th k).holds = (s.th k).holds := by
    intro k
    rw [hth]
    by_cases hk : k = i
    · subst hk
      rw [goto_th_self, hholds]
    · rw [goto_th_of_ne hk]
  refine ⟨?_, hsem ▸ hinv.le_one, ?_, ?_, ?_⟩
  · rw [hmain, hsem]
    simpa only [hsame] using hinv.closed
  · rw [hsem]
    simpa only [hsame] using hinv.free
  · simpa only [hsame] using hinv.unique
  · rw [hth]
    exact forall_goto_th (I := fun pc => pc.inLockCode = false) hplain hinv.plain

/-- A move of `main` that keeps the count and the gate keeps the invariant. -/
theorem SemInvariant.main (hinv : SemInvariant s) (hmain : t.main.opened = s.main.opened)
    (hsem : t.sem = s.sem) (hth : t.th = s.th) : SemInvariant t where
  closed := by rw [hmain, hsem, hth]; exact hinv.closed
  le_one := hsem ▸ hinv.le_one
  free := by rw [hsem, hth]; exact hinv.free
  unique := by rw [hth]; exact hinv.unique
  plain := by rw [hth]; exact hinv.plain

/-- While a thread holds the lock, the count is 0 and the gate is open. -/
theorem SemInvariant.of_holds (hinv : SemInvariant s) (hi : (s.th i).holds = true) :
    s.sem = 0 ∧ s.main.opened = true := by
  constructor
  · by_contra hne
    rw [hinv.free (Nat.pos_of_ne_zero hne) i] at hi
    cases hi
  · by_contra hclosed
    rw [(hinv.closed (by simpa using hclosed)).2 i] at hi
    cases hi

theorem SemInvariant.step (hinv : SemInvariant s) (hstep : Step .semaphore B s e t) :
    SemInvariant t := by
  cases hstep with
  | initLock hat =>
    have hclosed := hinv.closed (by rw [hat]; rfl)
    exact hinv.main (by rw [hat]; exact opened_forCreate 0) hclosed.1.symm rfl
  | @create i hat =>
    have hclosed := hinv.closed (by rw [hat]; rfl)
    have hmain : (afterCreate N i .semaphore).opened = s.main.opened := by
      rw [opened_afterCreate, hat]
      rfl
    have hmid : SemInvariant { s with main := afterCreate N i .semaphore } :=
      hinv.main hmain rfl rfl
    exact hmid.goto rfl rfl rfl (hclosed.2 i).symm rfl
  | @add i hat => exact hinv.main (by rw [hat]; exact opened_forCreate _) rfl rfl
  | openGate hat =>
    have hclosed := hinv.closed (by rw [hat]; rfl)
    refine ⟨?_, ?_, fun _ => hclosed.2, hinv.unique, hinv.plain⟩
    · intro h
      cases h
    · simp [State.openGate, hclosed.1]
  | join hat _ => exact hinv.main (by rw [hat]; rfl) rfl rfl
  | gate hat _ => exact hinv.goto rfl rfl rfl (by rw [hat]; rfl) rfl
  | @trywait i _ hat hpositive =>
    have hfree := hinv.free hpositive
    have hone : s.sem = 1 := le_antisymm hinv.le_one hpositive
    -- the only count goes to thread `i`, which is then the only one to hold the lock
    refine ⟨?_, ?_, ?_, ?_, ?_⟩
    · intro hclosed
      have := (hinv.closed hclosed).1
      omega
    · simp [hone]
    · simp [hone]
    · intro j k hj hk
      have honly : ∀ l, ((State.goto { s with sem := s.sem - 1 } i .test).th l).holds → l = i := by
        intro l hl
        by_contra hne
        rw [goto_th_of_ne hne] at hl
        rw [hfree l] at hl
        cases hl
      rw [honly j hj, honly k hk]
    · exact forall_goto_th (I := fun pc => pc.inLockCode = false) rfl hinv.plain
  | lock hbuild _ => cases hbuild
  | @search i hat | @access i _ _ _ _ hat _ =>
    have := hinv.plain i
    rw [hat] at this
    cases this
  | full hat _ | room hat _ | store hat | advance hat =>
    exact hinv.goto rfl rfl rfl (by rw [hat]; rfl) rfl
  | @release i full hat =>
    have hheld : (s.th i).holds = true := by rw [hat]; rfl
    obtain ⟨hzero, hopen⟩ := hinv.of_holds hheld
    have hnone : ∀ k, (((s.release i .semaphore).goto i
        (if full then .exited else .acquire)).th k).holds = false := by
      intro k
      by_cases hk : k = i
      · subst hk
        rw [goto_th_self]
        cases full <;> rfl
      · rw [goto_th_of_ne hk, release_th]
        by_contra hheld'
        exact hk (hinv.unique k i (by simpa using hheld') hheld)
    refine ⟨?_, ?_, fun _ => hnone, ?_, ?_⟩
    · intro hclosed
      exact absurd hclosed (by simp [State.release, hopen])
    · simp [State.release, hzero]
    · intro j k hj
      rw [hnone j] at hj
      cases hj
    · apply forall_goto_th (I := fun pc => pc.inLockCode = false)
      · cases full <;> rfl
      · exact hinv.plain

theorem SemInvariant.init : SemInvariant (initState N B) where
  closed _ := ⟨rfl, fun _ => rfl⟩
  le_one := Nat.zero_le 1
  free h := absurd h (lt_irrefl 0)
  unique i _ h := by cases h
  plain _ := rfl

theorem SemInvariant.of_reachable (hs : (system .semaphore N B).Reachable s) : SemInvariant s :=
  hs.invariant (fun h => by rw [h]; exact .init) fun hstep hinv => hinv.step hstep

/-! ### The `PMUTEX_H2` build -/

/-- The threads in the order in which `main` registers them. -/
def roster (N : ℕ) : Roster (Fin N) where
  ths := List.finRange N
  nodup := List.nodup_finRange N
  mem := List.mem_finRange

/-- The mutex after `main` has registered the first `n` threads. -/
def registeredUpTo (N n : ℕ) : PmutexT (Fin N) :=
  ((List.finRange N).take n).foldl pmutexAdd pmutexCreate

theorem registeredUpTo_succ (i : Fin N) :
    registeredUpTo N (i + 1) = pmutexAdd (registeredUpTo N i) i := by
  have hi : (List.finRange N)[i.val]? = some i := by simp
  rw [registeredUpTo, List.take_add_one, hi, List.foldl_append]
  rfl

theorem registeredUpTo_of_le {n : ℕ} (h : N ≤ n) : registeredUpTo N n = (roster N).registered := by
  rw [registeredUpTo, List.take_of_length_le (by simpa using h)]
  rfl

/-- How many threads `main` has registered, before it opens the gate. -/
def MainPc.registered (N : ℕ) : MainPc → Option ℕ
  | .create i | .add i => some i
  | .openGate => some N
  | .start | .join _ => none

theorem registeredUpTo_forCreate {i n : ℕ} (h : (forCreate N i).registered N = some n) :
    registeredUpTo N n = registeredUpTo N i := by
  rw [forCreate] at h
  split_ifs at h with hi
  · obtain rfl : i = n := by simpa [MainPc.registered] using h
    rfl
  · obtain rfl : N = n := by simpa [MainPc.registered] using h
    rw [registeredUpTo_of_le le_rfl, registeredUpTo_of_le (not_lt.mp hi)]

/-- What a place in `th_gen` is to the mutex. -/
def ThPc.phase : ThPc → Phase
  | .absent | .gate | .acquire => .outside
  | .searching => .searching
  | .inLock my pc => .inLock my pc
  | .test | .store | .advance | .release _ => .critical
  | .exited => .exited

/-- The mutex and the phases of the threads. -/
def State.locks (s : State N) : Pmutex.State (Fin N) where
  p := s.mutex
  phase i := (s.th i).phase

theorem phase_ofLock (my : Option ℕ) (pc : LockPc) :
    (ThPc.ofLock my pc).phase = Phase.ofLock my pc := by
  cases pc <;> rfl

theorem locks_goto : (s.goto i pc).locks = s.locks.enter s.mutex i pc.phase := by
  simp only [State.locks, Pmutex.State.enter, goto_mutex, Pmutex.State.mk.injEq, true_and]
  funext k
  by_cases hk : k = i
  · subst hk
    simp
  · simp [hk, goto_th_of_ne hk]

theorem locks_goto_of_phase (h : pc.phase = (s.th i).phase) : (s.goto i pc).locks = s.locks := by
  rw [locks_goto, h]
  simp [State.locks, Pmutex.State.enter]

/-- Before the gate opens no thread is past it and the mutex holds the threads
registered so far; afterwards mutex and threads are a reachable state of the
`pmutex` system. -/
structure MutexInvariant (s : State N) : Prop where
  closed : s.main.opened = false → s.startThs = false ∧ ∀ i, s.th i = .absent ∨ s.th i = .gate
  registered : ∀ n, s.main.registered N = some n → s.mutex = registeredUpTo N n
  refines : s.main.opened = true → (Pmutex.system (roster N)).Reachable s.locks

/-- A step behind the open gate keeps the invariant when it keeps the refinement. -/
theorem MutexInvariant.of_opened (hmain : s.main.opened = true)
    (hreach : (Pmutex.system (roster N)).Reachable s.locks) : MutexInvariant s where
  closed h := by rw [hmain] at h; cases h
  registered n h := by
    cases hc : s.main with
    | join i => rw [hc] at h; cases h
    | start | create _ | add _ | openGate => rw [hc] at hmain; cases hmain
  refines _ := hreach

theorem MutexInvariant.opened_of_th (hinv : MutexInvariant s) (hth : s.th i = pc)
    (habsent : pc ≠ .absent) (hgate : pc ≠ .gate) : s.main.opened = true := by
  by_contra hclosed
  rcases (hinv.closed (by simpa using hclosed)).2 i with h | h
  · exact habsent (hth.symm.trans h)
  · exact hgate (hth.symm.trans h)

theorem MutexInvariant.step (hinv : MutexInvariant s) (hstep : Step .pmutexH2 B s e t) :
    MutexInvariant t := by
  -- a thread past the gate moves: it is enough to keep the refinement
  have hmoved : ∀ {s' : State N} {i : Fin N} {pc : ThPc}, s.th i = pc → pc ≠ .absent →
      pc ≠ .gate → s'.main = s.main → (s.main.opened = true →
        (Pmutex.system (roster N)).Reachable s'.locks) → MutexInvariant s' := by
    intro s' i pc hth habsent hgate hmain hreach
    have hopen := hinv.opened_of_th hth habsent hgate
    exact .of_opened (by rw [hmain, hopen]) (hreach hopen)
  cases hstep with
  | initLock hat =>
    have hclosed := hinv.closed (by rw [hat]; rfl)
    refine ⟨fun _ => hclosed, ?_, fun h => ?_⟩
    · intro n hn
      rw [registeredUpTo_forCreate hn]
      rfl
    · rw [opened_forCreate] at h
      cases h
  | @create i hat =>
    have hclosed := hinv.closed (by rw [hat]; rfl)
    refine ⟨fun _ => ⟨hclosed.1, ?_⟩, ?_, fun h => by cases h⟩
    · exact forall_goto_th (I := fun pc => pc = .absent ∨ pc = .gate) (Or.inr rfl) hclosed.2
    · intro n hn
      exact hinv.registered n (by rw [hat]; exact hn)
  | @add i hat =>
    have hclosed := hinv.closed (by rw [hat]; rfl)
    refine ⟨fun _ => hclosed, ?_, fun h => ?_⟩
    · intro n hn
      rw [registeredUpTo_forCreate hn, registeredUpTo_succ,
        hinv.registered i (by rw [hat]; rfl)]
    · rw [opened_forCreate] at h
      cases h
  | openGate hat =>
    have hclosed := hinv.closed (by rw [hat]; rfl)
    -- all threads are registered and none has called `lock`: the `pmutex` system starts
    refine .of_opened rfl (.of_initial ⟨?_, fun i => ?_⟩)
    · rw [← registeredUpTo_of_le le_rfl, ← hinv.registered N (by rw [hat]; rfl)]
      rfl
    · change (s.th i).phase = .outside
      rcases hclosed.2 i with h | h <;> rw [h] <;> rfl
  | join hat _ =>
    exact .of_opened rfl (hinv.refines (by rw [hat]; rfl))
  | @gate i hat hstart =>
    have hopen : s.main.opened = true := by
      by_contra hclosed
      rw [(hinv.closed (by simpa using hclosed)).1] at hstart
      cases hstart
    refine .of_opened hopen ?_
    rw [locks_goto_of_phase (by rw [hat]; rfl)]
    exact hinv.refines hopen
  | trywait hbuild _ _ => cases hbuild
  | @lock i _ hat =>
    refine hmoved hat (by simp) (by simp) rfl fun hopen => ?_
    rw [locks_goto]
    exact (hinv.refines hopen).step (a := i) (.lock (by simp [State.locks, hat, ThPc.phase]))
  | @search i hat =>
    refine hmoved hat (by simp) (by simp) rfl fun hopen => ?_
    rw [locks_goto, phase_ofLock]
    exact (hinv.refines hopen).step (a := i) (.search (by simp [State.locks, hat, ThPc.phase]))
  | @access i my lpc lpc' mutex' hat hnext =>
    refine hmoved hat (by simp) (by simp) rfl fun hopen => ?_
    rw [locks_goto, phase_ofLock]
    exact (hinv.refines hopen).step (a := i)
      (.access (by simp only [State.locks, hat, ThPc.phase]) hnext)
  | full hat _ | room hat _ | store hat | advance hat =>
    refine hmoved hat (by simp) (by simp) rfl fun hopen => ?_
    rw [locks_goto_of_phase (by rw [hat]; rfl)]
    exact hinv.refines hopen
  | @release i full hat =>
    refine hmoved hat (by simp) (by simp) rfl fun hopen => ?_
    have howns : s.locks.phase i = .critical := by simp [State.locks, hat, ThPc.phase]
    have hout := (hinv.refines hopen).step (a := i) (.unlock howns)
    cases full with
    | false => rw [locks_goto]; exact hout
    | true =>
      -- `pthread_exit` right after the release is a step of its own there
      have hexit := hout.step (a := i) (.exit enter_phase_self)
      rw [locks_goto]
      simpa [Pmutex.State.enter, State.locks, State.release, ThPc.phase] using hexit

theorem MutexInvariant.init : MutexInvariant (initState N B) where
  closed _ := ⟨rfl, fun _ => Or.inl rfl⟩
  registered n h := by cases h
  refines h := by cases h

theorem MutexInvariant.of_reachable (hs : (system .pmutexH2 N B).Reachable s) :
    MutexInvariant s :=
  hs.invariant (fun h => by rw [h]; exact .init) fun hstep hinv => hinv.step hstep

/-- Behind the open gate the `PMUTEX_H2` build refines the `pmutex` system. -/
theorem locks_reachable (hs : (system .pmutexH2 N B).Reachable s)
    (hopen : s.main.opened = true) : (Pmutex.system (roster N)).Reachable s.locks :=
  (MutexInvariant.of_reachable hs).refines hopen

/-- No thread in `lock` comes to an undefined access. -/
theorem exists_access (hs : (system .pmutexH2 N B).Reachable s) {my : Option ℕ} {lpc : LockPc}
    (hat : s.th i = .inLock my lpc) :
    ∃ mutex' lpc', lockStep s.mutex my lpc = some (mutex', lpc') := by
  have hopen := (MutexInvariant.of_reachable hs).opened_of_th hat (by simp) (by simp)
  have hphase : s.locks.phase i = .inLock my lpc := by simp only [State.locks, hat, ThPc.phase]
  exact exists_lockStep (locks_reachable hs hopen) hphase

/-! ### Both builds -/

/-- At most one thread is between acquiring and releasing the lock, and nobody is
before the gate opens. -/
structure Exclusive (s : State N) : Prop where
  unique : ∀ i k, (s.th i).holds → (s.th k).holds → i = k
  gated : ∀ i, (s.th i).holds → s.main.opened = true

theorem Exclusive.of_reachable (hs : (system build N B).Reachable s) : Exclusive s := by
  cases build with
  | semaphore =>
    have hinv := SemInvariant.of_reachable hs
    refine ⟨hinv.unique, fun i hi => ?_⟩
    by_contra hclosed
    rw [(hinv.closed (by simpa using hclosed)).2 i] at hi
    cases hi
  | pmutexH2 =>
    have hinv := MutexInvariant.of_reachable hs
    have hgated : ∀ i, (s.th i).holds → s.main.opened = true := by
      intro i hi
      refine hinv.opened_of_th (i := i) rfl ?_ ?_ <;> intro h <;> rw [h] at hi <;> cases hi
    refine ⟨fun i k hi hk => ?_, hgated⟩
    have hcritical : ∀ l, (s.th l).holds → s.locks.phase l = .critical := by
      intro l hl
      cases hpc : s.th l <;> simp_all [ThPc.holds, State.locks, ThPc.phase]
    exact critical_unique (hinv.refines (hgated i hi)) (hcritical i hi) (hcritical k hk)

/-- While one thread holds the lock, no other is at the buffer. -/
theorem Exclusive.others_away (hexcl : Exclusive s) (hi : (s.th i).holds) (hk : k ≠ i) :
    s.th k ≠ .store ∧ s.th k ≠ .advance := by
  constructor <;> intro h <;> exact hk (hexcl.unique k i (by rw [h]; rfl) hi)

end Sisop.ThreadRunner
