import Mathlib.Data.Fintype.Basic
import Sisop.Foundations.Transition

/-!
# The I/O generator

`main` creates threads, waits on the semaphore `s1` once for each, and then posts the
semaphore `s0` once for each. A thread opens the device, posts `s1`, waits on `s0`, writes
a hundred times and exits. A thread whose `open` fails exits at once. `sem_wait` blocks
while the count of its semaphore is 0: it can take no step then.

The writes, what is written and where to, and what the program prints are left out. Each
call is one step.

## Main definitions

* `State`, `Step` — the semaphores, `main` and the threads
* `generator` — all interleavings, for the threads whose `open` fails
* `Stuck` — `main` and all threads that have not exited are blocked
-/

namespace Sisop.SectorRead

open Foundations

/-- Where `main` is. -/
inductive MainPc
  /-- About to create thread `i`. -/
  | create (i : ℕ)
  /-- About to wait on `s1` for the time `i`. -/
  | waitReady (i : ℕ)
  /-- About to post `s0` for the time `i`. -/
  | letBegin (i : ℕ)
  | exited
  deriving DecidableEq

/-- Where a thread is in `write_task`. -/
inductive ThPc
  /-- Not created yet. -/
  | absent
  /-- About to open the device. -/
  | openDevice
  /-- About to post `s1`. -/
  | postReady
  /-- About to wait on `s0`. -/
  | waitBegin
  /-- In turn `i` of the loop. -/
  | write (i : ℕ)
  | exited
  deriving DecidableEq

/-- The semaphores, `main` and the threads. -/
structure State (procs : ℕ) where
  s0 : ℕ
  s1 : ℕ
  main : MainPc
  th : Fin procs → ThPc

/-- Who takes a step. -/
inductive Actor (procs : ℕ)
  | main
  | thread (t : Fin procs)
  deriving DecidableEq

variable {procs : ℕ}

/-- Put one thread at a place in `write_task`. -/
def State.goto (s : State procs) (t : Fin procs) (pc : ThPc) : State procs :=
  { s with th := Function.update s.th t pc }

/-- The test of the third loop of `main`. -/
def forBegin (procs i : ℕ) : MainPc := if i < procs then .letBegin i else .exited

/-- The test of the second loop. -/
def forReady (procs i : ℕ) : MainPc := if i < procs then .waitReady i else forBegin procs 0

/-- The test of the first loop. -/
def forCreate (procs i : ℕ) : MainPc := if i < procs then .create i else forReady procs 0

/-- The test of the loop of a thread. -/
def forWrite (i : ℕ) : ThPc := if i < 100 then .write i else .exited

/-- One step of `main` or of a thread, where the threads of `fails` cannot open the
device. -/
inductive Step (fails : Finset (Fin procs)) : State procs → Actor procs → State procs → Prop
  | create {s : State procs} {t : Fin procs} (at_main : s.main = .create t) :
      Step fails s .main ({ s with main := forCreate procs (t + 1) }.goto t .openDevice)
  | waitReady {s : State procs} {i : ℕ} (at_main : s.main = .waitReady i)
      (positive : 0 < s.s1) :
      Step fails s .main { s with s1 := s.s1 - 1, main := forReady procs (i + 1) }
  | letBegin {s : State procs} {i : ℕ} (at_main : s.main = .letBegin i) :
      Step fails s .main { s with s0 := s.s0 + 1, main := forBegin procs (i + 1) }
  | openFails {s : State procs} {t : Fin procs} (at_th : s.th t = .openDevice)
      (fails_t : t ∈ fails) :
      Step fails s (.thread t) (s.goto t .exited)
  | openDevice {s : State procs} {t : Fin procs} (at_th : s.th t = .openDevice)
      (opens : t ∉ fails) :
      Step fails s (.thread t) (s.goto t .postReady)
  | postReady {s : State procs} {t : Fin procs} (at_th : s.th t = .postReady) :
      Step fails s (.thread t) ({ s with s1 := s.s1 + 1 }.goto t .waitBegin)
  | waitBegin {s : State procs} {t : Fin procs} (at_th : s.th t = .waitBegin)
      (positive : 0 < s.s0) :
      Step fails s (.thread t) ({ s with s0 := s.s0 - 1 }.goto t (forWrite 0))
  | write {s : State procs} {t : Fin procs} {i : ℕ} (at_th : s.th t = .write i) :
      Step fails s (.thread t) (s.goto t (forWrite (i + 1)))

/-- The program after both semaphores have been initialised. -/
def initState (procs : ℕ) : State procs where
  s0 := 0
  s1 := 0
  main := forCreate procs 0
  th _ := .absent

/-- Every interleaving of `main` and the threads. -/
def generator (fails : Finset (Fin procs)) : Machine (State procs) (Actor procs) where
  initial s := s = initState procs
  step := Step fails

/-- A thread is blocked in `sem_wait(&s0)`. -/
def Blocked (s : State procs) (t : Fin procs) : Prop := s.th t = .waitBegin ∧ s.s0 = 0

/-- `main` is blocked in `sem_wait(&s1)`, and every thread there is has exited or is
blocked. -/
structure Stuck (s : State procs) : Prop where
  main : ∃ i, s.main = .waitReady i
  count : s.s1 = 0
  threads : ∀ t, s.th t ≠ .absent → s.th t ≠ .exited → Blocked s t

end Sisop.SectorRead
