import Mathlib.Data.Finset.Card
import Mathlib.Data.Nat.Digits.Defs
import Sisop.Foundations.Transition

/-!
# The `S90webmonitor` service

The script starts the monitor in the background and writes its process id to a pid file.
It takes the monitor for started while that file exists and is not empty. To stop it the
script pipes the pid file into `kill`, which reads process ids from its arguments only.

One invocation of the script runs at a time. Each of its accesses to the pid file or to
the processes is a step, and a running monitor may die between any two. `restart` is a
`stop` and then a `start`, whatever became of the `stop`. What the script prints, and
the status it exits with, are left out.

## Main definitions

* `Kill` — the `kill` command
* `State`, `Step` — the pid file, the instances and the running invocation
* `service` — every sequence of invocations and deaths
-/

namespace Sisop.WebMonitor.Service

open Foundations

/-- The `kill` command: its exit status and the instances left, from the process ids among
its arguments and the running instances. Without a process id it fails and signals
nothing. -/
structure Kill where
  run : List ℕ → Finset ℕ → ℕ × Finset ℕ
  fails : ∀ live, (run [] live).1 ≠ 0
  signalsNothing : ∀ live, (run [] live).2 = live

/-- What the script is asked to do. `reload` is another word for `restart`. -/
inductive Cmd
  | start
  | stop
  | restart
  deriving DecidableEq

/-- Where an invocation is. -/
inductive Pc
  /-- In `start`, about to test `[ -s ${pidfile} ]`. -/
  | startTest
  /-- About to start the monitor in the background. -/
  | launch
  /-- About to write `$PID` to the pid file. -/
  | record (pid : ℕ)
  /-- In `stop`, about to test `[ -s ${pidfile} ]`. -/
  | stopTest
  /-- About to run `cat ${pidfile} | kill -9`. -/
  | kill
  /-- About to remove the pid file. -/
  | remove
  /-- At the end of the script. -/
  | done
  deriving DecidableEq

/-- The contents of the pid file if it exists, the process ids of the instances running,
and the invocation under way. -/
structure State where
  pidfile : Option (List Char)
  live : Finset ℕ
  shell : Option (Cmd × Pc)

/-- What `echo $PID` writes. -/
def pidText (pid : ℕ) : List Char := (Nat.toDigits 10 pid) ++ ['\n']

/-- `[ -s ${pidfile} ]`: the file exists and is not empty. -/
def State.started (s : State) : Bool := s.pidfile.any (· ≠ [])

/-- Where an invocation begins. -/
def Cmd.entry : Cmd → Pc
  | .start => .startTest
  | .stop | .restart => .stopTest

/-- Where an invocation goes after its `stop` part. -/
def Cmd.afterStop : Cmd → Pc
  | .start | .stop => .done
  | .restart => .startTest

/-- What is seen of a step. -/
inductive Event
  /-- The script has been invoked. -/
  | invoked (c : Cmd)
  /-- An instance has been started. -/
  | launched (pid : ℕ)
  /-- An instance has died by itself. -/
  | died (pid : ℕ)
  /-- The script has taken another step. -/
  | moved
  /-- The invocation has ended. -/
  | returned (c : Cmd)
  deriving DecidableEq

/-- One step of the script, or the death of an instance. -/
inductive Step (kill : Kill) : State → Event → State → Prop
  | invoke {s : State} (c : Cmd) (idle : s.shell = none) :
      Step kill s (.invoked c) { s with shell := some (c, c.entry) }
  -- `start`
  | already {s : State} {c : Cmd} (at_shell : s.shell = some (c, .startTest))
      (started : s.started = true) :
      Step kill s .moved { s with shell := some (c, .done) }
  | absent {s : State} {c : Cmd} (at_shell : s.shell = some (c, .startTest))
      (started : s.started = false) :
      Step kill s .moved { s with shell := some (c, .launch) }
  | launch {s : State} {c : Cmd} (pid : ℕ) (at_shell : s.shell = some (c, .launch))
      (fresh : pid ∉ s.live) :
      Step kill s (.launched pid)
        { s with live := insert pid s.live, shell := some (c, .record pid) }
  | record {s : State} {c : Cmd} {pid : ℕ} (at_shell : s.shell = some (c, .record pid)) :
      Step kill s .moved { s with pidfile := some (pidText pid), shell := some (c, .done) }
  -- `stop`
  | present {s : State} {c : Cmd} (at_shell : s.shell = some (c, .stopTest))
      (started : s.started = true) :
      Step kill s .moved { s with shell := some (c, .kill) }
  | missing {s : State} {c : Cmd} (at_shell : s.shell = some (c, .stopTest))
      (started : s.started = false) :
      Step kill s .moved { s with shell := some (c, c.afterStop) }
  -- the pid file is the input of `kill`, not among its arguments
  | killed {s : State} {c : Cmd} (at_shell : s.shell = some (c, .kill))
      (status : (kill.run [] s.live).1 = 0) :
      Step kill s .moved
        { s with live := (kill.run [] s.live).2, shell := some (c, .remove) }
  | failed {s : State} {c : Cmd} (at_shell : s.shell = some (c, .kill))
      (status : (kill.run [] s.live).1 ≠ 0) :
      Step kill s .moved
        { s with live := (kill.run [] s.live).2, shell := some (c, c.afterStop) }
  | remove {s : State} {c : Cmd} (at_shell : s.shell = some (c, .remove)) :
      Step kill s .moved { s with pidfile := none, shell := some (c, c.afterStop) }
  | ret {s : State} {c : Cmd} (at_shell : s.shell = some (c, .done)) :
      Step kill s (.returned c) { s with shell := none }
  | die {s : State} {pid : ℕ} (running : pid ∈ s.live) :
      Step kill s (.died pid) { s with live := s.live.erase pid }

/-- No pid file, no instance and no invocation. -/
def State.init : State where
  pidfile := none
  live := ∅
  shell := none

/-- Every sequence of invocations, interleaved with deaths of the monitor. -/
def service (kill : Kill) : Machine State Event where
  initial s := s = .init
  step := Step kill

/-- The invocations of a run. -/
def invocations (w : List Event) : List Cmd :=
  w.filterMap fun
    | .invoked c => some c
    | .launched _ | .died _ | .moved | .returned _ => none

/-- The instances started in a run. -/
def launches (w : List Event) : List ℕ :=
  w.filterMap fun
    | .launched pid => some pid
    | .invoked _ | .died _ | .moved | .returned _ => none

/-- The instances that have died by themselves in a run. -/
def deaths (w : List Event) : List ℕ :=
  w.filterMap fun
    | .died pid => some pid
    | .invoked _ | .launched _ | .moved | .returned _ => none

end Sisop.WebMonitor.Service
