import Sisop.SimpleTracer.Mounts

/-!
# A session of the tracer

`main` finds the mount point once and opens five files below it, one after another. Each
path is put together in a buffer of 256 bytes without a check, and a file that cannot be
opened ends the program. The results of all other calls are ignored.

A session is recorded as its calls, which name a file by its descriptor. What they do to
the files is read off by following the descriptors: a session carries out a plan, all of
it or as far as the first file that cannot be opened.

## Main definitions

* `openTracerFile`, `setFtracePid`, `setTracer`, `main` — the functions of the program
* `acts` — what calls do, with the files by their paths
* `plan` — what a session is to do

## Main results

* `openTracerFile_spec` — a file is opened, or the session ends
* `session_follows_plan` — what a session has done when it ends
-/

namespace Sisop.SimpleTracer

open Foundations CString

/-- A call that the program makes. -/
inductive Call
  /-- `/proc/mounts` is opened, read and closed. -/
  | readMounts
  /-- `open(path, O_WRONLY)`, and the descriptor returned or a negative number. -/
  | opened (path : List Char) (fd : ℤ)
  /-- `write`, with `none` for a null pointer. -/
  | write (fd : ℤ) (data : Option (List Char)) (count : ℕ)
  | close (fd : ℤ)
  | nanosleep (nsec : ℕ)

/-- The files below the mount point. -/
inductive TraceFile
  | setFtracePid
  | currentTracer
  | tracingOn
  | traceMarker
  | trace
  deriving DecidableEq

/-- What comes after the mount point in the path of a file. -/
def TraceFile.name : TraceFile → List Char
  | .setFtracePid => "/set_ftrace_pid".toList
  | .currentTracer => "/current_tracer".toList
  | .tracingOn => "/tracing_on".toList
  | .traceMarker => "/trace_marker".toList
  | .trace => "/trace".toList

/-- The tracer that is chosen. -/
def functionGraph : List Char := "function_graph".toList

/-- What is written before the time that is traced. -/
def beforeNano : List Char := "before nano\n".toList

/-- What is written after it. -/
def afterNano : List Char := "after nano\n".toList

/-- What the program finds: the mount table, what is in the memory of its local variables,
what `open` returns after the calls made so far, and its process id. -/
structure World where
  mounts : List Call → Option (List Char)
  type : List Call → List Char
  path : List Call → List.Vector Char maxPath
  answer : List Call → List Char → ℤ
  pid : ℕ

/-- The calls made so far, and the static variables. -/
structure Process where
  calls : List Call
  found : State

/-- How the program ends. -/
inductive Ending
  | exit (status : ℤ)
  /-- A path is stored past the end of its buffer. -/
  | overrun
  /-- A null pointer is read from. -/
  | nullPath
  deriving DecidableEq

/-- A program that has ended. -/
structure Stopped where
  ending : Ending
  process : Process

/-- One more call. -/
def Process.call (s : Process) (c : Call) : Process := { s with calls := s.calls ++ [c] }

/-- A call of `find_tracefs`. -/
def Process.findTracefs (w : World) (s : Process) : Option (List Char) × Process :=
  let (path, found) := SimpleTracer.findTracefs (w.mounts s.calls) (w.type s.calls) s.found
  (path, { calls := if s.found.tracefsFound then s.calls else s.calls ++ [.readMounts], found })

/-- `open_tracer_file`. -/
def openTracerFile (w : World) (p : Option (List Char)) (file : List Char) (s : Process) :
    Except Stopped (ℤ × Process) :=
  match p with
  | none => .error ⟨.nullPath, s⟩
  | some p =>
    -- `strcpy` and `strcat`, which goes on behind the string that is there
    match (store nul (w.path s.calls) p).bind fun path =>
        store nul path (cString nul path.toList ++ file) with
    | none => .error ⟨.overrun, s⟩
    | some path =>
      let path := cString nul path.toList
      let fd := w.answer s.calls path
      let s := s.call (.opened path fd)
      if fd < 0 then .error ⟨.exit fd, s⟩ else .ok (fd, s)

/-- `set_ftrace_pid`. -/
def setFtracePid (w : World) (s : Process) : Except Stopped Process := do
  let (path, s) := s.findTracefs w
  let (fd, s) ← openTracerFile w path TraceFile.setFtracePid.name s
  let strpid := Nat.toDigits 10 w.pid
  return (s.call (.write fd (some strpid) strpid.length)).call (.close fd)

/-- `set_tracer`. -/
def setTracer (w : World) (t : List Char) (s : Process) : Except Stopped Process := do
  let (path, s) := s.findTracefs w
  let (fd, s) ← openTracerFile w path TraceFile.currentTracer.name s
  return (s.call (.write fd (some t) t.length)).call (.close fd)

/-- `main` up to its `return`. -/
def session (w : World) : Except Stopped Process := do
  let (path, s) := Process.findTracefs w { calls := [], found := init }
  if path = none then throw ⟨.exit 1, s⟩
  let s ← setFtracePid w s
  let s ← setTracer w functionGraph s
  let (traceonFd, s) ← openTracerFile w path TraceFile.tracingOn.name s
  let s := s.call (.write traceonFd (some ['0']) 1)
  let (markerFd, s) ← openTracerFile w path TraceFile.traceMarker.name s
  let (tracefFd, s) ← openTracerFile w path TraceFile.trace.name s
  -- the second argument is the number 0, a null pointer
  let s := s.call (.write tracefFd none 1)
  let s := s.call (.write traceonFd (some ['1']) 1)
  let s := s.call (.write markerFd (some beforeNano) 12)
  let s := s.call (.nanosleep 1000)
  let s := s.call (.write markerFd (some afterNano) 11)
  let s := s.call (.write traceonFd (some ['0']) 1)
  return ((s.call (.close traceonFd)).call (.close markerFd)).call (.close tracefFd)

/-- `main`. -/
def main (w : World) : Stopped :=
  match session w with
  | .ok s => ⟨.exit 0, s⟩
  | .error stopped => stopped

/-! ### What calls do to the files -/

/-- The paths that the descriptors are open on. -/
abbrev Files : Type := ℤ → Option (List Char)

/-- The open files after a call. -/
def Call.files (f : Files) : Call → Files
  | .opened path fd => if fd < 0 then f else Function.update f fd (some path)
  | .close fd => Function.update f fd none
  | .readMounts | .write _ _ _ | .nanosleep _ => f

/-- The files that are open after calls. -/
def openFiles (calls : List Call) : Files := calls.foldl Call.files fun _ => none

/-- What the program does with files by their paths. A write to a descriptor that is not
open goes to no path. -/
inductive Act
  | open (path : List Char)
  | write (path : Option (List Char)) (data : Option (List Char)) (count : ℕ)
  | close (path : Option (List Char))
  | sleep (nsec : ℕ)
  deriving DecidableEq

/-- What a call does. -/
def Call.act (f : Files) : Call → List Act
  | .readMounts => []
  | .opened path fd => if fd < 0 then [] else [.open path]
  | .write fd data count => [.write (f fd) data count]
  | .close fd => [.close (f fd)]
  | .nanosleep nsec => [.sleep nsec]

/-- What calls do, starting with the given files open. -/
def actsFrom : Files → List Call → List Act
  | _, [] => []
  | f, c :: calls => c.act f ++ actsFrom (c.files f) calls

/-- What the calls of a program do. -/
def acts (calls : List Call) : List Act := actsFrom (fun _ => none) calls

theorem actsFrom_append_singleton (f : Files) (calls : List Call) (c : Call) :
    actsFrom f (calls ++ [c]) = actsFrom f calls ++ c.act (calls.foldl Call.files f) := by
  induction calls generalizing f with
  | nil => simp [actsFrom]
  | cons c' calls ih =>
    rw [List.cons_append, actsFrom, ih, actsFrom, List.foldl_cons, List.append_assoc]

theorem acts_append_singleton (calls : List Call) (c : Call) :
    acts (calls ++ [c]) = acts calls ++ c.act (openFiles calls) :=
  actsFrom_append_singleton _ calls c

theorem openFiles_append_singleton (calls : List Call) (c : Call) :
    openFiles (calls ++ [c]) = c.files (openFiles calls) := by
  simp [openFiles]

/-! ### The plan -/

/-- A write of a whole text to a file. -/
def Act.put (path data : List Char) : Act := .write (some path) (some data) data.length

/-- What a session is to do below the mount point `p`. -/
def plan (p : List Char) (pid : ℕ) : List Act :=
  [.open (p ++ TraceFile.setFtracePid.name),
    .put (p ++ TraceFile.setFtracePid.name) (Nat.toDigits 10 pid),
    .close (some (p ++ TraceFile.setFtracePid.name)),
    .open (p ++ TraceFile.currentTracer.name),
    .put (p ++ TraceFile.currentTracer.name) functionGraph,
    .close (some (p ++ TraceFile.currentTracer.name)),
    .open (p ++ TraceFile.tracingOn.name),
    .put (p ++ TraceFile.tracingOn.name) ['0'],
    .open (p ++ TraceFile.traceMarker.name),
    .open (p ++ TraceFile.trace.name),
    .write (some (p ++ TraceFile.trace.name)) none 1,
    .put (p ++ TraceFile.tracingOn.name) ['1'],
    .put (p ++ TraceFile.traceMarker.name) beforeNano,
    .sleep 1000,
    .put (p ++ TraceFile.traceMarker.name) afterNano,
    .put (p ++ TraceFile.tracingOn.name) ['0'],
    .close (some (p ++ TraceFile.tracingOn.name)),
    .close (some (p ++ TraceFile.traceMarker.name)),
    .close (some (p ++ TraceFile.trace.name))]

/-- What is in the switch of the tracer after something has been done. -/
def switchAfter (p : List Char) (old : Option (List Char)) : Act → Option (List Char)
  | .write (some path) data _ => if path = p ++ TraceFile.tracingOn.name then data else old
  | .write none _ _ | .open _ | .close _ | .sleep _ => old

/-- What has been written last to the switch of the tracer. -/
def lastSwitch (p : List Char) (as : List Act) : Option (List Char) :=
  as.foldl (switchAfter p) none

/-- `open` returns descriptors that are not in use. -/
def World.Fresh (w : World) : Prop :=
  ∀ calls path, 0 ≤ w.answer calls path → openFiles calls (w.answer calls path) = none

theorem TraceFile.name_injective : Function.Injective TraceFile.name := by
  intro a b h
  cases a <;> cases b <;> first | rfl | exact absurd h (by decide)

theorem TraceFile.length_name_le (file : TraceFile) : file.name.length ≤ 15 := by
  cases file <;> decide

theorem TraceFile.nul_notMem_name (file : TraceFile) : nul ∉ file.name := by
  cases file <;> decide

@[simp] theorem switchAfter_open (p : List Char) (old : Option (List Char)) (path : List Char) :
    switchAfter p old (.open path) = old := by rw [switchAfter]

@[simp] theorem switchAfter_close (p : List Char) (old path : Option (List Char)) :
    switchAfter p old (.close path) = old := by rw [switchAfter]

@[simp] theorem switchAfter_sleep (p : List Char) (old : Option (List Char)) (nsec : ℕ) :
    switchAfter p old (.sleep nsec) = old := by rw [switchAfter]

/-- Only what is written to the switch changes it. -/
@[simp] theorem switchAfter_write (p : List Char) (old data : Option (List Char)) (file : TraceFile)
    (count : ℕ) : switchAfter p old (.write (some (p ++ file.name)) data count) =
      if file = .tracingOn then data else old := by
  simp only [switchAfter, List.append_cancel_left_eq, TraceFile.name_injective.eq_iff]

@[simp] theorem switchAfter_put (p : List Char) (old : Option (List Char)) (file : TraceFile)
    (data : List Char) : switchAfter p old (.put (p ++ file.name) data) =
      if file = .tracingOn then some data else old :=
  switchAfter_write p old (some data) file data.length

/-! ### One file -/

/-- The mount point `p` has been found, the calls so far have done this, and these files
are open. -/
structure Carried (p : List Char) (done : List Act) (f : Files) (s : Process) : Prop where
  acts_eq : acts s.calls = done
  files_eq : openFiles s.calls = f
  tracefsFound : s.found.tracefsFound = true
  path_eq : cString nul s.found.tracefs = p

variable {w : World} {p file data : List Char} {done : List Act} {f : Files} {s s' : Process}
  {fd : ℤ} {pid : ℕ} {stopped : Stopped}

theorem Carried.call (h : Carried p done f s) (c : Call) :
    Carried p (done ++ c.act f) (c.files f) (s.call c) where
  acts_eq := by rw [Process.call, acts_append_singleton, h.acts_eq, h.files_eq]
  files_eq := by rw [Process.call, openFiles_append_singleton, h.files_eq]
  tracefsFound := h.tracefsFound
  path_eq := h.path_eq

/-- A text is written to an open file. -/
theorem Carried.put (h : Carried p done f s) {path : List Char} (hfd : f fd = some path)
    (data : List Char) : Carried p (done ++ [.put path data]) f
      (s.call (.write fd (some data) data.length)) := by
  have hcall := h.call (.write fd (some data) data.length)
  rw [Call.act, hfd] at hcall
  exact hcall

/-- A write from a null pointer is made like any other. -/
theorem Carried.writeNull (h : Carried p done f s) {path : List Char} (hfd : f fd = some path)
    (count : ℕ) : Carried p (done ++ [.write (some path) none count]) f
      (s.call (.write fd none count)) := by
  have hcall := h.call (.write fd none count)
  rw [Call.act, hfd] at hcall
  exact hcall

theorem Carried.sleep (h : Carried p done f s) (nsec : ℕ) :
    Carried p (done ++ [.sleep nsec]) f (s.call (.nanosleep nsec)) :=
  h.call (.nanosleep nsec)

theorem Carried.close (h : Carried p done f s) {path : List Char} (hfd : f fd = some path) :
    Carried p (done ++ [.close (some path)]) (Function.update f fd none)
      (s.call (.close fd)) := by
  have hcall := h.call (.close fd)
  rw [Call.act, hfd] at hcall
  exact hcall

/-- Once the mount point has been found `find_tracefs` returns it and does nothing else. -/
theorem Carried.findTracefs (h : Carried p done f s) : s.findTracefs w = (some p, s) := by
  have hfind : SimpleTracer.findTracefs (w.mounts s.calls) (w.type s.calls) s.found =
      (some p, s.found) := by
    rw [← h.path_eq]
    exact if_pos h.tracefsFound
  rw [Process.findTracefs, hfind]
  simp only [h.tracefsFound, if_true]

/-- A path that fits is put together. -/
theorem exists_path (buf : List.Vector Char maxPath) (hp : nul ∉ p) (hfile : nul ∉ file)
    (hfits : p.length + file.length < maxPath) :
    ∃ path, ((store nul buf p).bind fun path =>
        store nul path (cString nul path.toList ++ file)) = some path ∧
      cString nul path.toList = p ++ file := by
  obtain ⟨copied, hcopied⟩ := exists_store nul buf (show p.length < maxPath by omega)
  have hcopy : cString nul copied.toList = p := by
    rw [(toList_of_store hcopied).2, cString_append_nul hp]
  obtain ⟨path, hpath⟩ := exists_store nul copied
    (show (p ++ file).length < maxPath by rwa [List.length_append])
  refine ⟨path, by rw [hcopied, Option.bind_some, hcopy, hpath], ?_⟩
  rw [(toList_of_store hpath).2, cString_append_nul]
  exact fun h => (List.mem_append.mp h).elim hp hfile

/-- A path that does not fit is stored past the end of the buffer. -/
theorem openTracerFile_overrun (hp : nul ∉ p) (hlong : maxPath ≤ p.length + file.length) :
    openTracerFile w (some p) file s = .error ⟨.overrun, s⟩ := by
  have hnone : ((store nul (w.path s.calls) p).bind fun path =>
      store nul path (cString nul path.toList ++ file)) = none := by
    cases hcopied : store nul (w.path s.calls) p with
    | none => rfl
    | some copied =>
      have hcopy : cString nul copied.toList = p := by
        rw [(toList_of_store hcopied).2, cString_append_nul hp]
      rw [Option.bind_some, hcopy]
      exact store_of_le (by rwa [List.length_append])
  rw [openTracerFile]
  simp only [hnone]

/-- A session has ended because a file could not be opened before more was done. -/
def GaveUp (file : List Char) (done : List Act) (stopped : Stopped) : Prop :=
  acts stopped.process.calls = done ∧ ∃ fd, fd < 0 ∧ stopped.ending = .exit fd ∧
    .opened file fd ∈ stopped.process.calls

/-- A file below the mount point is opened with a descriptor that is not in use, or the
session ends. -/
theorem openTracerFile_spec (hfresh : w.Fresh) (h : Carried p done f s) (hp : nul ∉ p)
    (hfile : nul ∉ file) (hfits : p.length + file.length < maxPath) :
    (∃ fd s', openTracerFile w (some p) file s = .ok (fd, s') ∧ f fd = none ∧
      Carried p (done ++ [.open (p ++ file)]) (Function.update f fd (some (p ++ file))) s') ∨
    ∃ stopped, openTracerFile w (some p) file s = .error stopped ∧
      GaveUp (p ++ file) done stopped := by
  obtain ⟨path, hbuild, hpath⟩ := exists_path (w.path s.calls) hp hfile hfits
  have hcall := h.call (.opened (p ++ file) (w.answer s.calls (p ++ file)))
  rw [openTracerFile]
  simp only [hbuild, hpath]
  by_cases hneg : w.answer s.calls (p ++ file) < 0
  · rw [if_pos hneg]
    refine Or.inr ⟨_, rfl, ?_, _, hneg, rfl, by simp [Process.call]⟩
    rw [hcall.acts_eq, Call.act, if_pos hneg, List.append_nil]
  · rw [if_neg hneg]
    rw [Call.act, Call.files, if_neg hneg, if_neg hneg] at hcall
    refine Or.inl ⟨_, _, rfl, ?_, hcall⟩
    rw [← h.files_eq]
    exact hfresh _ _ (not_lt.mp hneg)

/-- What `set_ftrace_pid` and `set_tracer` do after they have found the path. -/
theorem put_spec (hfresh : w.Fresh) (h : Carried p done f s) (hp : nul ∉ p)
    (hfile : nul ∉ file) (hfits : p.length + file.length < maxPath) (data : List Char) :
    let result := (openTracerFile w (some p) file s).bind fun (fd, s) =>
      .ok ((s.call (.write fd (some data) data.length)).call (.close fd))
    (∃ s', result = .ok s' ∧ Carried p (done ++ [.open (p ++ file), .put (p ++ file) data,
        .close (some (p ++ file))]) f s') ∨
      ∃ stopped, result = .error stopped ∧ GaveUp (p ++ file) done stopped := by
  intro result
  rcases openTracerFile_spec hfresh h hp hfile hfits with
    ⟨fd, s', hok, hfree, hs'⟩ | ⟨stopped, herr, hgave⟩
  · left
    refine ⟨(s'.call (.write fd (some data) data.length)).call (.close fd),
      by simp only [result, hok]; rfl, ?_⟩
    have hdone := (hs'.put (Function.update_self ..) data).close (Function.update_self ..)
    have hsame : Function.update (Function.update f fd (some (p ++ file))) fd none = f := by
      rw [Function.update_idem, ← hfree, Function.update_eq_self]
    rw [hsame] at hdone
    simpa only [List.append_assoc, List.cons_append, List.nil_append] using hdone
  · exact Or.inr ⟨stopped, by simp only [result, herr]; rfl, hgave⟩

/-! ### The session -/

/-- What is known once the first call of `find_tracefs` has found the mount point. -/
theorem carried_of_found
    (h : (findTracefs (w.mounts []) (w.type []) init).1 = some p) :
    ∃ s, Process.findTracefs w { calls := [], found := init } = (some p, s) ∧
      Carried p [] (fun _ => none) s ∧ nul ∉ p := by
  cases hmounts : w.mounts [] with
  | none => simp [findTracefs, hmounts, init] at h
  | some input =>
    by_cases htype : cString nul (scanMounts init.tracefs (w.type []) input).2 = tracefsType
    · rw [hmounts, findTracefs_of_eq rfl htype] at h
      obtain rfl := Option.some.inj h
      refine ⟨⟨[.readMounts], ⟨(scanMounts init.tracefs (w.type []) input).1, true⟩⟩, ?_,
        ⟨rfl, rfl, rfl, rfl⟩, notMem_cString _ _⟩
      rw [Process.findTracefs, hmounts, findTracefs_of_eq rfl htype]
      rfl
    · rw [hmounts, findTracefs_of_ne rfl htype] at h
      cases h

/-- The session after the mount point has been found. -/
theorem session_of_found {s₀ : Process}
    (h : Process.findTracefs w { calls := [], found := init } = (some p, s₀)) :
    session w = (setFtracePid w s₀).bind fun s =>
      (setTracer w functionGraph s).bind fun s =>
      (openTracerFile w (some p) TraceFile.tracingOn.name s).bind fun (traceonFd, s) =>
      (openTracerFile w (some p) TraceFile.traceMarker.name
        (s.call (.write traceonFd (some ['0']) 1))).bind fun (markerFd, s) =>
      (openTracerFile w (some p) TraceFile.trace.name s).bind fun (tracefFd, s) =>
      .ok (((((((((s.call (.write tracefFd none 1)).call
        (.write traceonFd (some ['1']) 1)).call
        (.write markerFd (some beforeNano) 12)).call (.nanosleep 1000)).call
        (.write markerFd (some afterNano) 11)).call
        (.write traceonFd (some ['0']) 1)).call (.close traceonFd)).call
        (.close markerFd)).call (.close tracefFd)) := by
  rw [session, h]
  rfl

theorem bind_ok {ε α β : Type} (a : α) (next : α → Except ε β) :
    (Except.ok a : Except ε α).bind next = next a := rfl

theorem setFtracePid_of_carried (h : Carried p done f s) : setFtracePid w s =
    (openTracerFile w (some p) TraceFile.setFtracePid.name s).bind fun (fd, s) =>
      .ok ((s.call (.write fd (some (Nat.toDigits 10 w.pid))
        (Nat.toDigits 10 w.pid).length)).call (.close fd)) := by
  rw [setFtracePid, h.findTracefs]
  rfl

theorem setTracer_of_carried (h : Carried p done f s) (t : List Char) : setTracer w t s =
    (openTracerFile w (some p) TraceFile.currentTracer.name s).bind fun (fd, s) =>
      .ok ((s.call (.write fd (some t) t.length)).call (.close fd)) := by
  rw [setTracer, h.findTracefs]
  rfl

/-- The last part of a session, with its three files open: the tracer is switched on and off
again, and the files are closed. -/
theorem Carried.finish {traceonFd markerFd tracefFd : ℤ} (h : Carried p done f s)
    (hon : f traceonFd = some (p ++ TraceFile.tracingOn.name))
    (hmarker : f markerFd = some (p ++ TraceFile.traceMarker.name))
    (htracef : f tracefFd = some (p ++ TraceFile.trace.name))
    (hne : traceonFd ≠ markerFd ∧ traceonFd ≠ tracefFd ∧ markerFd ≠ tracefFd) :
    Carried p (done ++ [.write (some (p ++ TraceFile.trace.name)) none 1,
        .put (p ++ TraceFile.tracingOn.name) ['1'],
        .put (p ++ TraceFile.traceMarker.name) beforeNano, .sleep 1000,
        .put (p ++ TraceFile.traceMarker.name) afterNano,
        .put (p ++ TraceFile.tracingOn.name) ['0'], .close (some (p ++ TraceFile.tracingOn.name)),
        .close (some (p ++ TraceFile.traceMarker.name)), .close (some (p ++ TraceFile.trace.name))])
      (Function.update (Function.update (Function.update f traceonFd none) markerFd none)
        tracefFd none)
      (((((((((s.call (.write tracefFd none 1)).call (.write traceonFd (some ['1']) 1)).call
        (.write markerFd (some beforeNano) 12)).call (.nanosleep 1000)).call
        (.write markerFd (some afterNano) 11)).call (.write traceonFd (some ['0']) 1)).call
        (.close traceonFd)).call (.close markerFd)).call (.close tracefFd)) := by
  have hbefore : beforeNano.length = 12 := by decide
  have hafter : afterNano.length = 11 := by decide
  have h₁ := ((h.writeNull htracef 1).put hon ['1']).put hmarker beforeNano
  have h₂ := (h₁.sleep 1000).put hmarker afterNano
  -- a descriptor stays open until it is closed itself
  have h₃ := (h₂.put hon ['0']).close hon
  have hmarker' : Function.update f traceonFd none markerFd =
      some (p ++ TraceFile.traceMarker.name) := by
    rw [Function.update_of_ne (Ne.symm hne.1), hmarker]
  have htracef' : Function.update (Function.update f traceonFd none) markerFd none tracefFd =
      some (p ++ TraceFile.trace.name) := by
    rw [Function.update_of_ne (Ne.symm hne.2.2), Function.update_of_ne (Ne.symm hne.2.1), htracef]
  have h₄ := (h₃.close hmarker').close htracef'
  simpa only [List.append_assoc, List.cons_append, List.nil_append, hbefore, hafter,
    List.length_singleton] using h₄

/-- What a session has done when it ends, if the mount point is short enough. -/
structure FollowsPlan (p : List Char) (pid : ℕ) (stopped : Stopped) : Prop where
  /-- All of the plan is carried out and every file is closed again, or the session has given
  up at a file of the plan that could not be opened. -/
  done : (acts stopped.process.calls = plan p pid ∧ stopped.ending = .exit 0 ∧
      ∀ fd, openFiles stopped.process.calls fd = none) ∨
    ∃ file after, plan p pid = acts stopped.process.calls ++ .open file :: after ∧
      ∃ fd, fd < 0 ∧ stopped.ending = .exit fd ∧ .opened file fd ∈ stopped.process.calls
  /-- The last thing written to `tracing_on` does not switch the tracer on. -/
  off : lastSwitch p (acts stopped.process.calls) ≠ some ['1']

/-- A session that gives up at a file of the plan follows it. -/
theorem GaveUp.followsPlan {after : List Act} (h : GaveUp file done stopped)
    (hplan : plan p pid = done ++ .open file :: after)
    (hoff : lastSwitch p done ≠ some ['1']) : FollowsPlan p pid stopped := by
  obtain ⟨rfl, hend⟩ := h
  exact ⟨Or.inr ⟨file, after, hplan, hend⟩, hoff⟩

/-- A session with a mount point that is short enough follows the plan. -/
theorem followsPlan_of_carried {s₀ : Process} (hfresh : w.Fresh) (hp : nul ∉ p)
    (hshort : p.length ≤ 240)
    (hfound : Process.findTracefs w { calls := [], found := init } = (some p, s₀))
    (h₀ : Carried p [] (fun _ => none) s₀) : FollowsPlan p w.pid (main w) := by
  have hsession := session_of_found hfound
  rw [setFtracePid_of_carried h₀] at hsession
  have hfits : ∀ file : TraceFile, p.length + file.name.length < maxPath := by
    intro file
    have hlength := file.length_name_le
    rw [maxPath]
    omega
  have hclean := TraceFile.nul_notMem_name
  rcases put_spec hfresh h₀ hp (hclean .setFtracePid) (hfits _) (Nat.toDigits 10 w.pid) with
    ⟨s₁, hok, h₁⟩ | ⟨stopped, herr, hgave⟩
  swap
  · rw [main, hsession, herr]
    exact hgave.followsPlan rfl (by simp [lastSwitch])
  simp only [hok, bind_ok, setTracer_of_carried h₁] at hsession
  rcases put_spec hfresh h₁ hp (hclean .currentTracer) (hfits _) functionGraph with
    ⟨s₂, hok, h₂⟩ | ⟨stopped, herr, hgave⟩
  swap
  · rw [main, hsession, herr]
    exact hgave.followsPlan rfl (by simp [lastSwitch])
  simp only [hok, bind_ok] at hsession
  rcases openTracerFile_spec hfresh h₂ hp (hclean .tracingOn) (hfits _) with
    ⟨traceonFd, s₃, hok, -, h₃⟩ | ⟨stopped, herr, hgave⟩
  swap
  · rw [main, hsession, herr]
    exact hgave.followsPlan rfl (by simp [lastSwitch])
  -- the tracer is switched off as soon as its switch is open
  simp only [hok, bind_ok] at hsession
  have h₃ := h₃.put (Function.update_self ..) ['0']
  rcases openTracerFile_spec hfresh h₃ hp (hclean .traceMarker) (hfits _) with
    ⟨markerFd, s₄, hok, hmarker, h₄⟩ | ⟨stopped, herr, hgave⟩
  swap
  · rw [List.length_singleton] at herr
    rw [main, hsession, herr]
    exact hgave.followsPlan rfl (by simp [lastSwitch])
  rw [List.length_singleton] at hok
  simp only [hok, bind_ok] at hsession
  rcases openTracerFile_spec hfresh h₄ hp (hclean .trace) (hfits _) with
    ⟨tracefFd, s₅, hok, htracef, h₅⟩ | ⟨stopped, herr, hgave⟩
  swap
  · rw [main, hsession, herr]
    exact hgave.followsPlan rfl (by simp [lastSwitch])
  simp only [hok, bind_ok] at hsession
  -- the three descriptors are not the same
  have hon_marker : traceonFd ≠ markerFd := by
    rintro rfl
    rw [Function.update_self] at hmarker
    cases hmarker
  have hon_trace : traceonFd ≠ tracefFd := by
    rintro rfl
    rw [Function.update_of_ne hon_marker, Function.update_self] at htracef
    cases htracef
  have hmarker_trace : markerFd ≠ tracefFd := by
    rintro rfl
    rw [Function.update_self] at htracef
    cases htracef
  have hend := h₅.finish
    (by rw [Function.update_of_ne hon_trace, Function.update_of_ne hon_marker,
      Function.update_self])
    (by rw [Function.update_of_ne hmarker_trace, Function.update_self])
    (Function.update_self ..) ⟨hon_marker, hon_trace, hmarker_trace⟩
  rw [main, hsession]
  refine ⟨Or.inl ⟨hend.acts_eq, rfl, fun fd => ?_⟩, ?_⟩
  · rw [hend.files_eq]
    simp only [Function.update_apply]
    split_ifs <;> rfl
  · rw [hend.acts_eq]
    simp [lastSwitch]

/-- The whole program, for whatever the mount table holds. Without a mount point it exits
before it touches a file. With one of more than 240 characters it stores a path past the
end of a buffer before it touches a file. With any other it carries out the plan, all of
it or as far as the first file that cannot be opened, and the last thing it writes to
`tracing_on` is never 1. -/
theorem session_follows_plan (w : World) (hfresh : w.Fresh) :
    match (findTracefs (w.mounts []) (w.type []) init).1 with
    | none => acts (main w).process.calls = [] ∧ (main w).ending = .exit 1
    | some p =>
      if p.length ≤ 240 then FollowsPlan p w.pid (main w)
      else acts (main w).process.calls = [] ∧ (main w).ending = .overrun := by
  cases hfirst : (findTracefs (w.mounts []) (w.type []) init).1 with
  | none =>
    have hfound : Process.findTracefs w { calls := [], found := init } =
        (none, ⟨[.readMounts], (findTracefs (w.mounts []) (w.type []) init).2⟩) := by
      rw [Process.findTracefs, ← hfirst]
      rfl
    rw [main, session, hfound]
    exact ⟨rfl, rfl⟩
  | some p =>
    obtain ⟨s₀, hfound, h₀, hp⟩ := carried_of_found hfirst
    simp only
    split_ifs with hshort
    · exact followsPlan_of_carried hfresh hp hshort hfound h₀
    · have hlong : maxPath ≤ p.length + TraceFile.setFtracePid.name.length := by
        have hlength : TraceFile.setFtracePid.name.length = 15 := by decide
        rw [hlength, maxPath]
        omega
      have hsession := session_of_found hfound
      rw [setFtracePid_of_carried h₀, openTracerFile_overrun hp hlong] at hsession
      rw [main, hsession]
      exact ⟨h₀.acts_eq, rfl⟩

/-- A line of the tracer's file system. -/
def oneMount : Mount where
  device := "nodev".toList
  mountPoint := "/t".toList
  type := tracefsType
  options := "ro".toList
  dump := ['0']
  pass := ['0']
  isWord_device := by decide +kernel
  isWord_mountPoint := by decide +kernel
  isWord_type := by decide +kernel
  isWord_options := by decide +kernel
  isNumber_dump := by decide +kernel
  isNumber_pass := by decide +kernel

/-- A mount table of that line, and the descriptors 3, 4 and 5. -/
def threeDescriptors : World where
  mounts _ := some (text [oneMount])
  type _ := []
  path _ := List.Vector.replicate maxPath 'x'
  answer calls _ :=
    if openFiles calls 3 = none then 3
    else if openFiles calls 4 = none then 4
    else if openFiles calls 5 = none then 5
    else -24
  pid := 42

/-- The session there. -/
theorem session_follows_plan_three_descriptors :
    threeDescriptors.Fresh ∧ FollowsPlan "/t".toList 42 (main threeDescriptors) := by
  have hfresh : threeDescriptors.Fresh := by
    intro calls path
    simp only [threeDescriptors]
    split_ifs with h3 h4 h5
    · exact fun _ => h3
    · exact fun _ => h4
    · exact fun _ => h5
    · intro h
      exact absurd h (by decide)
  have hplain : oneMount.Fits ∧ oneMount.Plain :=
    ⟨⟨by decide +kernel, by decide +kernel⟩, by decide +kernel, by decide +kernel⟩
  have hreadable : Readable [oneMount] :=
    readable_of_plain (List.cons_ne_nil _ _) fun m hm => List.mem_singleton.mp hm ▸ hplain
  have hfirst : (findTracefs (threeDescriptors.mounts []) (threeDescriptors.type []) init).1 =
      some "/t".toList := by
    have hcorrect := hreadable.inStep.correct_iff.mpr hreadable []
    rwa [show tracefsMount [oneMount] = some "/t".toList by decide +kernel] at hcorrect
  have hspec := session_follows_plan threeDescriptors hfresh
  rw [hfirst] at hspec
  simp only at hspec
  rw [if_pos (by decide)] at hspec
  exact ⟨hfresh, hspec⟩

end Sisop.SimpleTracer
