import Sisop.Foundations.CString
import Sisop.Foundations.Scanf

/-!
# The mount table and the tracer

`find_tracefs` reads `/proc/mounts` with one call of `fscanf` after another, until a call
does not assign two strings or the type is `tracefs`. Whether it has found the file system
is decided by the type read last, which the first call may have left without a value. The
mount point is kept in a static buffer, and later calls do not read the table again.

## Main definitions

* `scanMounts` — the loop
* `findTracefs` — `find_tracefs`
* `Mount`, `text` — a line of the table and a table as text

## Main results

* `findTracefs_again` — later calls return what the first has found
-/

namespace Sisop.SimpleTracer

open Foundations CString Scanf

/-- `MAX_PATH`. -/
def maxPath : ℕ := 256

/-- `"%*s %"STR(MAX_PATH)"s %99s %*s %*d %*d\n"`. -/
def mountFormat : List Directive :=
  [.string none false, .blanks, .string (some maxPath) true, .blanks, .string (some 99) true,
    .blanks, .string none false, .blanks, .number, .blanks, .number, .blanks]

/-- `"tracefs"`. -/
def tracefsType : List Char := "tracefs".toList

/-- The loop: what is in `tracefs` and in `type` when it ends. A call that assigns less
than two strings leaves the others as they were. -/
def scanMounts (tracefs type input : List Char) : List Char × List Char :=
  let call := fscanf mountFormat input
  let tracefs' := call.assigned[0]?.getD tracefs
  let type' := call.assigned[1]?.getD type
  if _hret : call.ret = 2 then
    if cString nul type' = tracefsType then (tracefs', type')
    else scanMounts tracefs' type' call.rest
  else (tracefs', type')
termination_by input.length
decreasing_by
  refine (length_rest_lt false _ input).resolve_left fun hend => ?_
  exact absurd (hend.symm.trans _hret) (by decide)

/-- The static `tracefs` and `tracefs_found`. -/
structure State where
  tracefs : List Char
  tracefsFound : Bool

/-- The state before the first call. -/
def init : State where
  tracefs := []
  tracefsFound := false

/-- `find_tracefs`: the string returned, or nothing for `NULL`. The mount table is there
unless `fopen` fails, and `type` starts with what its memory holds. -/
def findTracefs (mounts : Option (List Char)) (type : List Char) (s : State) :
    Option (List Char) × State :=
  if s.tracefsFound then (some (cString nul s.tracefs), s)
  else
    match mounts with
    | none => (none, s)
    | some input =>
      let (tracefs, type) := scanMounts s.tracefs type input
      -- the loop also ends at the end of the table
      if cString nul type ≠ tracefsType then (none, { s with tracefs })
      else (some (cString nul tracefs), { tracefs, tracefsFound := true })

/-- A line of the mount table: six fields without blanks. -/
structure Mount where
  device : List Char
  mountPoint : List Char
  type : List Char
  options : List Char
  dump : List Char
  pass : List Char
  isWord_device : IsWord device
  isWord_mountPoint : IsWord mountPoint
  isWord_type : IsWord type
  isWord_options : IsWord options
  isNumber_dump : IsNumber dump
  isNumber_pass : IsNumber pass

/-- A line as text. -/
def Mount.line (m : Mount) : List Char :=
  m.device ++ ' ' :: (m.mountPoint ++ ' ' :: (m.type ++ ' ' :: (m.options ++ ' ' ::
    (m.dump ++ ' ' :: (m.pass ++ ['\n'])))))

/-- A table as text. -/
def text (table : List Mount) : List Char := table.flatMap Mount.line

/-- A line of a file system of type `tracefs`. -/
def Mount.IsTracefs (m : Mount) : Prop := m.type = tracefsType

instance : DecidablePred Mount.IsTracefs := fun m =>
  inferInstanceAs (Decidable (m.type = tracefsType))

/-- The mount point of the first line of that type. -/
def tracefsMount (table : List Mount) : Option (List Char) :=
  (table.find? (·.IsTracefs)).map Mount.mountPoint

variable {mounts mounts' : Option (List Char)} {tracefs type type' input : List Char}
  {s : State} {path : List Char}

/-- What the loop does with a call that assigns two strings. -/
theorem scanMounts_of_eq {first second rest : List Char}
    (h : fscanf mountFormat input = ⟨2, [first, second], rest⟩) :
    scanMounts tracefs type input =
      if cString nul second = tracefsType then (first, second)
      else scanMounts first second rest := by
  rw [scanMounts, h]
  rfl

/-- The loop ends at the end of the table. -/
theorem scanMounts_nil : scanMounts tracefs type [] = (tracefs, type) := by
  rw [scanMounts]
  rfl

/-- The call that finds the mount point. -/
theorem findTracefs_of_eq (hs : s.tracefsFound = false)
    (htype : cString nul (scanMounts s.tracefs type input).2 = tracefsType) :
    findTracefs (some input) type s =
      (some (cString nul (scanMounts s.tracefs type input).1),
        ⟨(scanMounts s.tracefs type input).1, true⟩) := by
  simp [findTracefs, hs, htype]

/-- A call that reads the table and does not find it. -/
theorem findTracefs_of_ne (hs : s.tracefsFound = false)
    (htype : cString nul (scanMounts s.tracefs type input).2 ≠ tracefsType) :
    findTracefs (some input) type s =
      (none, { s with tracefs := (scanMounts s.tracefs type input).1 }) := by
  simp [findTracefs, hs, htype]

/-- Once the mount point has been found, a later call returns it again, whatever the table
is then. -/
theorem findTracefs_again (h : (findTracefs mounts type s).1 = some path) :
    findTracefs mounts' type' (findTracefs mounts type s).2 =
      (some path, (findTracefs mounts type s).2) := by
  cases hfound : s.tracefsFound with
  | true =>
    have hcall : ∀ mounts type, findTracefs mounts type s = (some (cString nul s.tracefs), s) :=
      fun mounts type => if_pos hfound
    simp only [hcall] at h ⊢
    rw [h]
  | false =>
    cases mounts with
    | none => simp [findTracefs, hfound] at h
    | some input =>
      by_cases htype : cString nul (scanMounts s.tracefs type input).2 = tracefsType
      · rw [findTracefs_of_eq hfound htype] at h ⊢
        rw [← h]
        exact if_pos rfl
      · rw [findTracefs_of_ne hfound htype] at h
        exact absurd h (Option.some_ne_none path).symm

end Sisop.SimpleTracer
