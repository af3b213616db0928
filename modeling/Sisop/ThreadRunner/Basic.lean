import Mathlib.Data.List.FinRange
import Sisop.Foundations.CInt
import Sisop.Pmutex.Basic

/-!
# `thread_runner`: threads that fill a shared buffer

`main` creates the threads one after the other, opens the gate and joins them. Each
thread repeats a round: acquire the lock, stop if `buffer_ptr` has reached the last
byte, otherwise store its name and step `buffer_ptr`, release the lock. The program
is built in two ways. With `PMUTEX_H2` the lock is a `pmutex` whose members `main`
registers as it creates them, and the gate is `start_ths`; without it lock and gate
are one semaphore.

The test of `buffer_ptr`, the store through it and its increment are separate steps.
`sem_trywait` and `sem_post` are one step each, and `lock` and `unlock` take the steps
of the `pmutex` module. A failing `sem_trywait` and a turn of the loop on `start_ths`
change nothing and are left out.

## Main definitions

* `getThName` — `get_th_name`
* `State`, `Step` — `main` and the threads, one shared access a step
* `system` — all interleavings of one build
-/

namespace Sisop.ThreadRunner

open Foundations Pmutex

/-- `get_th_name`: the value is narrowed to a `char`. -/
def getThName (id : ℤ) : ℤ :=
  let id := if id > 25 then id + 7 else id
  CInt.wrap 8 (65 + id)

/-- The two ways to build the program. -/
inductive Build
  | semaphore
  | pmutexH2
  deriving DecidableEq

/-- Where `main` is. -/
inductive MainPc
  /-- About to initialise the lock. -/
  | start
  /-- About to create thread `i`. -/
  | create (i : ℕ)
  /-- About to register thread `i` with `pmutex_add`. -/
  | add (i : ℕ)
  /-- About to let the threads start. -/
  | openGate
  /-- About to join thread `i`, or past the last one. -/
  | join (i : ℕ)
  deriving DecidableEq

/-- Where a thread is in `th_gen`. -/
inductive ThPc
  /-- Not created yet. -/
  | absent
  /-- In the loop on `start_ths`. -/
  | gate
  /-- At the head of the round. -/
  | acquire
  /-- In `lock`, searching its node. -/
  | searching
  /-- In `lock`, past the search. -/
  | inLock (mypnode : Option ℕ) (pc : LockPc)
  /-- About to test `buffer_ptr == buffer+buff_size-1`. -/
  | test
  /-- About to store through `buffer_ptr`. -/
  | store
  /-- About to step `buffer_ptr`. -/
  | advance
  /-- About to release the lock, and to exit afterwards if the buffer was full. -/
  | release (full : Bool)
  | exited
  deriving DecidableEq

/-- The shared memory, `main` and the threads. Of `buffer` the state has all bytes,
the terminating one included; `bufferPtr` is the offset of `buffer_ptr` in it. -/
structure State (N : ℕ) where
  main : MainPc
  sem : ℕ
  mutex : PmutexT (Fin N)
  startThs : Bool
  buffer : List ℤ
  bufferPtr : ℕ
  th : Fin N → ThPc

/-- What a step is seen to do. -/
inductive Event (N : ℕ)
  | main
  /-- `main` lets the threads start. -/
  | opened
  | thread (i : Fin N)
  /-- Thread `i` stores through `buffer_ptr` at an offset. -/
  | stored (i : Fin N) (offset : ℕ)
  deriving DecidableEq

variable {N : ℕ}

/-- Put one thread at a place in `th_gen`. -/
def State.goto (s : State N) (i : Fin N) (pc : ThPc) : State N :=
  { s with th := Function.update s.th i pc }

section Goto

variable {s : State N} {i k : Fin N} {pc : ThPc}

@[simp] theorem goto_main : (s.goto i pc).main = s.main := rfl

@[simp] theorem goto_sem : (s.goto i pc).sem = s.sem := rfl

@[simp] theorem goto_mutex : (s.goto i pc).mutex = s.mutex := rfl

@[simp] theorem goto_startThs : (s.goto i pc).startThs = s.startThs := rfl

@[simp] theorem goto_buffer : (s.goto i pc).buffer = s.buffer := rfl

@[simp] theorem goto_bufferPtr : (s.goto i pc).bufferPtr = s.bufferPtr := rfl

@[simp] theorem goto_th_self : (s.goto i pc).th i = pc := by simp [State.goto]

theorem goto_th_of_ne (h : k ≠ i) : (s.goto i pc).th k = s.th k := by simp [State.goto, h]

/-- What holds of every place before and of the place moved to holds of every place. -/
theorem forall_goto_th {I : ThPc → Prop} (hself : I pc) (hother : ∀ k, I (s.th k)) (k : Fin N) :
    I ((s.goto i pc).th k) := by
  by_cases hk : k = i
  · subst hk
    rwa [goto_th_self]
  · rw [goto_th_of_ne hk]
    exact hother k

end Goto

/-- The test of the creation loop. -/
def forCreate (N i : ℕ) : MainPc := if i < N then .create i else .openGate

/-- `sem_init(&sem_buff,0,0)` or `pmutex_create(&sem_buff)`. -/
def State.initLock (s : State N) : Build → State N
  | .semaphore => { s with sem := 0 }
  | .pmutexH2 => { s with mutex := pmutexCreate }

/-- Where a new thread starts. -/
def ThPc.fresh : Build → ThPc
  | .semaphore => .acquire
  | .pmutexH2 => .gate

/-- Where `main` goes after creating thread `i`. -/
def afterCreate (N i : ℕ) : Build → MainPc
  | .semaphore => forCreate N (i + 1)
  | .pmutexH2 => .add i

/-- `sem_post(&sem_buff)` or `start_ths = 1`. -/
def State.openGate (s : State N) : Build → State N
  | .semaphore => { s with sem := s.sem + 1 }
  | .pmutexH2 => { s with startThs := true }

/-- `sem_post(&sem_buff)` or `unlock(&sem_buff)` by thread `i`. -/
def State.release (s : State N) (i : Fin N) : Build → State N
  | .semaphore => { s with sem := s.sem + 1 }
  | .pmutexH2 => { s with mutex := unlock s.mutex i }

section Release

variable {s : State N} {i : Fin N} {build : Build}

@[simp] theorem release_main : (s.release i build).main = s.main := by cases build <;> rfl

@[simp] theorem release_buffer : (s.release i build).buffer = s.buffer := by cases build <;> rfl

@[simp] theorem release_bufferPtr : (s.release i build).bufferPtr = s.bufferPtr := by
  cases build <;> rfl

@[simp] theorem release_th : (s.release i build).th = s.th := by cases build <;> rfl

end Release

/-- The place of a thread whose call of `lock` has come to `pc`. -/
def ThPc.ofLock (mypnode : Option ℕ) : LockPc → ThPc
  | .returned => .test
  | pc => .inLock mypnode pc

/-- One step of `main` or of a thread, with a buffer of `B` bytes and a terminator. -/
inductive Step (build : Build) (B : ℕ) : State N → Event N → State N → Prop
  | initLock {s : State N} (at_main : s.main = .start) :
      Step build B s .main { s.initLock build with main := forCreate N 0 }
  | create {s : State N} {i : Fin N} (at_main : s.main = .create i) :
      Step build B s .main ({ s with main := afterCreate N i build }.goto i (.fresh build))
  | add {s : State N} {i : Fin N} (at_main : s.main = .add i) :
      Step build B s .main
        { s with mutex := pmutexAdd s.mutex i, main := forCreate N (i + 1) }
  | openGate {s : State N} (at_main : s.main = .openGate) :
      Step build B s .opened { s.openGate build with main := .join 0 }
  | join {s : State N} {i : Fin N} (at_main : s.main = .join i) (gone : s.th i = .exited) :
      Step build B s .main { s with main := .join (i + 1) }
  | gate {s : State N} {i : Fin N} (at_th : s.th i = .gate) (start : s.startThs = true) :
      Step build B s (.thread i) (s.goto i .acquire)
  | trywait {s : State N} {i : Fin N} (sem : build = .semaphore) (at_th : s.th i = .acquire)
      (positive : 0 < s.sem) :
      Step build B s (.thread i) ({ s with sem := s.sem - 1 }.goto i .test)
  | lock {s : State N} {i : Fin N} (mutex : build = .pmutexH2) (at_th : s.th i = .acquire) :
      Step build B s (.thread i) (s.goto i .searching)
  | search {s : State N} {i : Fin N} (at_th : s.th i = .searching) :
      Step build B s (.thread i) (s.goto i (.ofLock (findNode s.mutex i) (forLevel s.mutex 1)))
  | access {s : State N} {i : Fin N} {mypnode : Option ℕ} {pc pc' : LockPc}
      {mutex' : PmutexT (Fin N)} (at_th : s.th i = .inLock mypnode pc)
      (next : lockStep s.mutex mypnode pc = some (mutex', pc')) :
      Step build B s (.thread i) ({ s with mutex := mutex' }.goto i (.ofLock mypnode pc'))
  -- `buffer_ptr == buffer+buff_size-1`, where `buff_size` is `B + 1`
  | full {s : State N} {i : Fin N} (at_th : s.th i = .test) (last : s.bufferPtr = B) :
      Step build B s (.thread i) (s.goto i (.release true))
  | room {s : State N} {i : Fin N} (at_th : s.th i = .test) (more : s.bufferPtr ≠ B) :
      Step build B s (.thread i) (s.goto i .store)
  -- `write_to_buffer` is two steps
  | store {s : State N} {i : Fin N} (at_th : s.th i = .store) :
      Step build B s (.stored i s.bufferPtr)
        ({ s with buffer := s.buffer.set s.bufferPtr (getThName i) }.goto i .advance)
  | advance {s : State N} {i : Fin N} (at_th : s.th i = .advance) :
      Step build B s (.thread i)
        ({ s with bufferPtr := s.bufferPtr + 1 }.goto i (.release false))
  -- a thread that has found the buffer full exits, any other starts the next round
  | release {s : State N} {i : Fin N} {full : Bool} (at_th : s.th i = .release full) :
      Step build B s (.thread i)
        ((s.release i build).goto i (if full then .exited else .acquire))

/-- The memory of the program when `main` comes to initialise the lock: `calloc` has
zeroed the buffer, and so is static storage. -/
def initState (N B : ℕ) : State N where
  main := .start
  sem := 0
  mutex := pmutexCreate
  startThs := false
  buffer := List.replicate (B + 1) 0
  bufferPtr := 0
  th _ := .absent

/-- Every interleaving of `main` and `N` threads. -/
def system (build : Build) (N B : ℕ) : Machine (State N) (Event N) where
  initial s := s = initState N B
  step := Step build B

end Sisop.ThreadRunner
