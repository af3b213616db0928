import Mathlib.Logic.Function.Basic
import Sisop.Foundations.CString
import Sisop.Foundations.Transition
import Sisop.WebMonitor.Basic

/-!
# The processor table

`getprocinfo.sh` lets three `awk` jobs in the background write the core ids, the model
names and the speeds of the processors into three files of a temporary directory, and
`paste` put the lines of the three files side by side. Two of the files are named pipes.
The third is created by the redirection of its job.

A named pipe is opened when both its ends are, and its reader meets the end only when
its writer has closed it. The reader of the regular file meets the end whenever it has
read what has been written so far. It is a step of a writer to write one character, and
a step of `paste` to take one line, at the moment it has read the last character of it.

The system's `paste` is the one of BusyBox. It goes through its files in rounds, prints
each line with a delimiter as soon as it has read it, and prints nothing at all for a file
that it has closed. It closes a file when there is no line left, and a stream that has met
the end of its file does not look at the file again.

## Main definitions

* `Channel` — the three files
* `Cpuinfo` — what the jobs extract
* `State`, `Step` — the script's processes and their steps
* `machine` — all interleavings of these steps
* `getProcinfo` — the table the page shows
-/

namespace Sisop.WebMonitor.ProcInfo

open Foundations CString

/-- The files `"$tmp/f1"`, `"$tmp/f2"` and `"$tmp/f3"`. -/
inductive Channel
  | f1
  | f2
  | f3
  deriving DecidableEq

/-- The files that `paste` is given, in order. -/
def files : List Channel := [.f1, .f2, .f3]

/-- The files that `mkfifo` has made. -/
def Channel.isFifo : Channel → Bool
  | .f1 | .f2 => true
  | .f3 => false

/-- What the three jobs extract: as many values each, without tabs and newlines. -/
structure Cpuinfo where
  processors : ℕ
  values : Channel → List (List Char)
  length_values : ∀ c, (values c).length = processors
  plain : ∀ c, ∀ v ∈ values c, '\t' ∉ v ∧ '\n' ∉ v

/-- What the job of a file prints. -/
def Cpuinfo.text (info : Cpuinfo) (c : Channel) : List Char := Text.unlines '\n' (info.values c)

/-- A background job: it opens its file, writes to it and exits. -/
inductive Job
  | start
  | writing (rest : List Char)
  | exited

/-- `paste`: it opens its files, then reads a line from each of them again and again, and
exits. -/
inductive Paste
  | opening (todo : List Channel)
  | reading (todo : List Channel)
  | exited

/-- A file in `paste`. -/
inductive Stream
  /-- There may be more to read. -/
  | active
  /-- The end of the file has been met, after a line without a newline. -/
  | atEnd
  | closed
  deriving DecidableEq

/-- The jobs, what is in each file and not read, the files in `paste`, `paste`, what it
has printed, and whether `rm` has removed the directory. -/
structure State where
  job : Channel → Job
  unread : Channel → List Char
  stream : Channel → Stream
  paste : Paste
  out : List Char
  removed : Bool

/-- The script once the jobs have been started. -/
def started : State where
  job _ := .start
  unread _ := []
  stream _ := .active
  paste := .opening files
  out := []
  removed := false

/-- What the job of a file has still to write. -/
def unwritten (info : Cpuinfo) (s : State) (c : Channel) : List Char :=
  match s.job c with
  | .start => info.text c
  | .writing rest => rest
  | .exited => []

/-- What `paste` prints after a line of a file: a newline if it is the last file. -/
def Channel.delim : Channel → Char
  | .f1 | .f2 => '\t'
  | .f3 => '\n'

/-- Where `xmalloc_fgetline` ends a line. -/
def EndsLine (x : Char) : Prop := x = '\n' ∨ x = nul

instance : DecidablePred EndsLine := fun _ => inferInstanceAs (Decidable (_ ∨ _))

/-- What happens in a step. The end of a file comes with what was read after its last
line and what its job has not written yet. -/
inductive Event
  | opened (c : Channel) (found : Bool)
  | created (c : Channel)
  | wrote (c : Channel) (x : Char)
  | exited (c : Channel)
  | began
  | line (c : Channel) (l : List Char)
  | ending (c : Channel) (rest unwritten : List Char)
  | closed (c : Channel)
  | skipped (c : Channel)
  | finished
  | removed
  deriving DecidableEq

/-- One step of a job, of `paste` or of `rm`. -/
inductive Step (info : Cpuinfo) : State → Event → State → Prop
  -- `paste` and the job wait for each other
  | openFifo {s : State} {c : Channel} {todo : List Channel}
      (hpaste : s.paste = .opening (c :: todo)) (hfifo : c.isFifo = true)
      (hjob : s.job c = .start) :
      Step info s (.opened c true) { s with
        job := Function.update s.job c (.writing (info.text c))
        paste := .opening todo }
  -- the job has created the file, whatever it has written to it
  | openFile {s : State} {c : Channel} {todo : List Channel}
      (hpaste : s.paste = .opening (c :: todo)) (hfile : c.isFifo = false)
      (hjob : s.job c ≠ .start) :
      Step info s (.opened c true) { s with paste := .opening todo }
  -- `paste` gives up on a file that does not exist
  | openMissing {s : State} {c : Channel} {todo : List Channel}
      (hpaste : s.paste = .opening (c :: todo)) (hfile : c.isFifo = false)
      (hjob : s.job c = .start) :
      Step info s (.opened c false) { s with paste := .exited }
  | create {s : State} {c : Channel} (hfile : c.isFifo = false) (hjob : s.job c = .start)
      (hdir : s.removed = false) :
      Step info s (.created c) { s with
        job := Function.update s.job c (.writing (info.text c)) }
  -- the directory is gone
  | createFails {s : State} {c : Channel} (hjob : s.job c = .start) (hdir : s.removed = true) :
      Step info s (.exited c) { s with job := Function.update s.job c .exited }
  | write {s : State} {c : Channel} {x : Char} {rest : List Char}
      (hjob : s.job c = .writing (x :: rest)) :
      Step info s (.wrote c x) { s with
        job := Function.update s.job c (.writing rest)
        unread := Function.update s.unread c (s.unread c ++ [x]) }
  | exit {s : State} {c : Channel} (hjob : s.job c = .writing []) :
      Step info s (.exited c) { s with job := Function.update s.job c .exited }
  -- a write to a pipe without a reader ends the job
  | broken {s : State} {c : Channel} (hfifo : c.isFifo = true) (hpaste : s.paste = .exited) :
      Step info s (.exited c) { s with job := Function.update s.job c .exited }
  | begin {s : State} (hpaste : s.paste = .opening []) :
      Step info s .began { s with paste := .reading files }
  | line {s : State} {c : Channel} {todo : List Channel} {l rest : List Char} {x : Char}
      (hpaste : s.paste = .reading (c :: todo)) (hactive : s.stream c = .active)
      (hunread : s.unread c = l ++ x :: rest) (hx : EndsLine x) (hline : ∀ y ∈ l, ¬ EndsLine y) :
      Step info s (.line c l) { s with
        unread := Function.update s.unread c rest
        out := s.out ++ (l ++ [c.delim])
        paste := .reading todo }
  -- a pipe ends when its job has closed it, a regular file when all in it has been read
  | lastLine {s : State} {c : Channel} {todo : List Channel}
      (hpaste : s.paste = .reading (c :: todo)) (hactive : s.stream c = .active)
      (hunread : s.unread c ≠ []) (hline : ∀ y ∈ s.unread c, ¬ EndsLine y)
      (hend : c.isFifo = true → s.job c = .exited) :
      Step info s (.ending c (s.unread c) (unwritten info s c)) { s with
        unread := Function.update s.unread c []
        stream := Function.update s.stream c .atEnd
        out := s.out ++ (s.unread c ++ [c.delim])
        paste := .reading todo }
  | noLine {s : State} {c : Channel} {todo : List Channel}
      (hpaste : s.paste = .reading (c :: todo)) (hactive : s.stream c = .active)
      (hunread : s.unread c = []) (hend : c.isFifo = true → s.job c = .exited) :
      Step info s (.ending c [] (unwritten info s c)) { s with
        stream := Function.update s.stream c .closed
        paste := .reading todo }
  -- the stream remembers that it has met the end, whatever has been written since
  | close {s : State} {c : Channel} {todo : List Channel}
      (hpaste : s.paste = .reading (c :: todo)) (hend : s.stream c = .atEnd) :
      Step info s (.closed c) { s with
        stream := Function.update s.stream c .closed
        paste := .reading todo }
  | skip {s : State} {c : Channel} {todo : List Channel}
      (hpaste : s.paste = .reading (c :: todo)) (hclosed : s.stream c = .closed) :
      Step info s (.skipped c) { s with paste := .reading todo }
  -- the next round, as long as a file is not closed
  | again {s : State} (hpaste : s.paste = .reading []) (hopen : ∃ c, s.stream c ≠ .closed) :
      Step info s .began { s with paste := .reading files }
  | finish {s : State} (hpaste : s.paste = .reading []) (hclosed : ∀ c, s.stream c = .closed) :
      Step info s .finished { s with paste := .exited }
  -- `rm` comes after `paste` in the script
  | remove {s : State} (hpaste : s.paste = .exited) :
      Step info s .removed { s with removed := true }

/-- Every interleaving of the script's processes. -/
def machine (info : Cpuinfo) : Machine State Event where
  initial s := s = started
  step := Step info

/-- `get_procinfo`. -/
def getProcinfo (out : List Char) : List (List (List Char)) := table '\t' (execscript out)

end Sisop.WebMonitor.ProcInfo
