import Mathlib.Order.ConditionallyCompleteLattice.Basic
import Mathlib.Data.List.MinMax
import Mathlib.Data.Int.ConditionallyCompleteOrder
import Sisop.Foundations.CInt
import Sisop.Foundations.Transition

/-!
# The SSTF elevator

The elevator keeps the pending requests of a queue in a list, in order of arrival,
and hands over a request nearest to the sector of the previous one. The list is per
queue; the sector of the previous request is the global `prev_sector`. The functions
below take and give back both, as `State`. The kernel's list primitives act on the
list of requests, which are told apart by identity: a request is a value of an
arbitrary type, and `pos` gives its sector as `blk_rq_pos` does.

A sector is an unsigned number. It is cast to `long`, which has 32 bits on the target
the module is built for.

## Main definitions

* `shortestDistanceRequest`, `sstfDispatch` — the choice and the handing over
* `sstfAddRequest`, `sstfMergedRequests`, `sstfInitQueue`, `sstfExitQueue`
* `drain` — the block layer's loop that calls the dispatch function until it returns 0
* `dispatches` — a number of consecutive calls of the dispatch function
* `machine` — all runs of adds, merges and dispatches on one queue
-/

namespace Sisop.Sstf

open Foundations

/-- The bits of `long` on the target. -/
def longBits : ℕ := 32

/-- The largest `long`. -/
def longMax : ℤ := CInt.maxVal longBits

/-- The cast of a value to `long`. -/
def toLong (z : ℤ) : ℤ := CInt.wrap longBits z

/-- `prev_sector`, and the `queue` of the `sstf_data` a function works on. -/
structure State (R : Type*) where
  prevSector : ℤ
  queue : List R
  deriving DecidableEq

/-- `sstf_labs_diff`. -/
def sstfLabsDiff (x y : ℤ) : ℤ := if x ≥ y then toLong (x - y) else toLong (y - x)

variable {R : Type*}

/-- The distance that `shortest_distance_request` computes for a request. -/
def distance (pos : R → ℕ) (prevSector : ℤ) (rq : R) : ℤ :=
  sstfLabsDiff prevSector (toLong (pos rq))

/-- One turn of the loop in `shortest_distance_request`: `shortest` and
`shortest_distance` against the request under the cursor. -/
def shorter (pos : R → ℕ) (prevSector : ℤ) (best : R × ℤ) (cursor : R) : R × ℤ :=
  let cursorDistance := distance pos prevSector cursor
  if cursorDistance < best.2 then (cursor, cursorDistance) else best

/-- `shortest_distance_request`. -/
def shortestDistanceRequest (pos : R → ℕ) (s : State R) : Option R :=
  match s.queue.head? with
  | none => none
  | some shortest =>
    -- `-1` stands for a position that is not known
    if s.prevSector > -1 then
      let shortestDistance := distance pos s.prevSector shortest
      some (s.queue.foldl (shorter pos s.prevSector) (shortest, shortestDistance)).1
    else
      some shortest

/-- What a call of `sstf_dispatch` returns, leaves behind, and passes to
`elv_dispatch_sort`. -/
structure Dispatched (R : Type*) where
  ret : ℤ
  state : State R
  sorted : Option R
  deriving DecidableEq

variable [DecidableEq R]

/-- `sstf_dispatch`. -/
def sstfDispatch (pos : R → ℕ) (s : State R) : Dispatched R :=
  match shortestDistanceRequest pos s with
  | some rq => {
      ret := 1
      state := { prevSector := toLong (pos rq), queue := s.queue.erase rq }
      sorted := some rq }
  | none => { ret := 0, state := s, sorted := none }

omit [DecidableEq R] in
/-- `sstf_add_request`. -/
def sstfAddRequest (s : State R) (rq : R) : State R := { s with queue := s.queue ++ [rq] }

/-- `sstf_merged_requests`: `next` has been merged into `_rq`. -/
def sstfMergedRequests (s : State R) (_rq next : R) : State R :=
  { s with queue := s.queue.erase next }

omit [DecidableEq R] in
/-- `sstf_init_queue`, once both allocations have succeeded. -/
def sstfInitQueue : State R where
  prevSector := -1
  queue := []

omit [DecidableEq R] in
/-- `sstf_exit_queue`: the new `prev_sector`, unless `BUG_ON` fires. -/
def sstfExitQueue (s : State R) : Option ℤ := if s.queue = [] then some (-1) else none

/-- `while (elevator_dispatch_fn(q, 1));` with at most `fuel` calls: the requests handed
over and the state at the end, or nothing when the loop is still running. -/
def drain (pos : R → ℕ) : ℕ → State R → Option (List R × State R)
  | 0, _ => none
  | fuel + 1, s =>
    let d := sstfDispatch pos s
    if d.ret = 0 then
      some ([], d.state)
    else
      (drain pos fuel d.state).map fun rest => (d.sorted.toList ++ rest.1, rest.2)

/-- `k` consecutive calls of `sstf_dispatch`: the requests handed over and the state at
the end. -/
def dispatches (pos : R → ℕ) : ℕ → State R → List R × State R
  | 0, s => ([], s)
  | k + 1, s =>
    let d := sstfDispatch pos s
    let rest := dispatches pos k d.state
    (d.sorted.toList ++ rest.1, rest.2)

/-! ### Runs on one queue -/

/-- What the block layer does to a queue. -/
inductive Event (R : Type*)
  | added (rq : R)
  | merged (rq next : R)
  | dispatched (ret : ℤ) (sorted : Option R)
  deriving DecidableEq

/-- One operation on a queue. A request is added while it is not queued, and `next` is
merged away while it is. -/
inductive Step (pos : R → ℕ) : State R → Event R → State R → Prop
  | add {s : State R} (rq : R) (fresh : rq ∉ s.queue) :
      Step pos s (.added rq) (sstfAddRequest s rq)
  | merge {s : State R} (rq next : R) (queued : next ∈ s.queue) :
      Step pos s (.merged rq next) (sstfMergedRequests s rq next)
  | dispatch {s : State R} :
      Step pos s (.dispatched (sstfDispatch pos s).ret (sstfDispatch pos s).sorted)
        (sstfDispatch pos s).state

/-- Every run of adds, merges and dispatches after `sstf_init_queue`. -/
def machine (pos : R → ℕ) : Machine (State R) (Event R) where
  initial s := s = sstfInitQueue
  step := Step pos

/-- The requests added in a run, in order. -/
def addedIn (w : List (Event R)) : List R :=
  w.filterMap fun
    | .added rq => some rq
    | .merged _ _ | .dispatched _ _ => none

/-- The requests merged away in a run, in order. -/
def mergedIn (w : List (Event R)) : List R :=
  w.filterMap fun
    | .merged _ next => some next
    | .added _ | .dispatched _ _ => none

/-- The requests handed over in a run, in order. -/
def dispatchedIn (w : List (Event R)) : List R :=
  w.filterMap fun
    | .dispatched _ sorted => sorted
    | .added _ | .merged _ _ => none

theorem toLong_le (z : ℤ) : toLong z ≤ longMax := CInt.wrap_le_maxVal (by decide) z

/-- Exactly the sectors up to `LONG_MAX` survive the cast. -/
theorem toLong_natCast_eq_self_iff {n : ℕ} : toLong n = n ↔ (n : ℤ) ≤ longMax :=
  CInt.wrap_eq_self_iff_of_nonneg (by decide) (Int.natCast_nonneg n)

/-! ### What a dispatch does -/

section Dispatch

variable {pos : R → ℕ} {s : State R}

omit [DecidableEq R] in
/-- The loop keeps the first request at the least distance so far, and its distance. -/
private theorem foldl_shorter (pos : R → ℕ) (h : ℤ) (l : List R) (best : R) :
    some (l.foldl (shorter pos h) (best, distance pos h best)).1 =
      l.foldl (List.argAux fun b c => distance pos h b < distance pos h c) (some best) := by
  induction l generalizing best with
  | nil => rfl
  | cons cursor l ih =>
    rw [List.foldl_cons, List.foldl_cons]
    by_cases hless : distance pos h cursor < distance pos h best
    · simpa [shorter, List.argAux, hless] using ih cursor
    · simpa [shorter, List.argAux, hless] using ih best

omit [DecidableEq R] in
/-- With a known head position the first request at the least distance is chosen,
without one the head of the queue. -/
theorem shortestDistanceRequest_eq : shortestDistanceRequest pos s =
    if s.prevSector > -1 then s.queue.argmin (distance pos s.prevSector)
    else s.queue.head? := by
  cases hq : s.queue with
  | nil => simp [shortestDistanceRequest, hq]
  | cons head rest =>
    simp only [shortestDistanceRequest, hq, List.head?_cons]
    split_ifs with hknown
    · have hhead : List.argAux (fun b c => distance pos s.prevSector b <
          distance pos s.prevSector c) (some head) head = some head := by
        simp [List.argAux]
      rw [foldl_shorter, List.foldl_cons, hhead]
      rfl
    · rfl

omit [DecidableEq R] in
/-- The chosen request is queued. -/
theorem shortestDistanceRequest_mem {rq : R} (h : shortestDistanceRequest pos s = some rq) :
    rq ∈ s.queue := by
  rw [shortestDistanceRequest_eq] at h
  split_ifs at h
  · exact List.argmin_mem h
  · exact List.mem_of_head? h

omit [DecidableEq R] in
theorem shortestDistanceRequest_eq_none_iff :
    shortestDistanceRequest pos s = none ↔ s.queue = [] := by
  rw [shortestDistanceRequest_eq]
  split_ifs
  · exact List.argmin_eq_none
  · exact List.head?_eq_none_iff

/-- A dispatch from an empty queue returns 0 and changes nothing. -/
theorem sstfDispatch_of_empty (h : s.queue = []) :
    sstfDispatch pos s = { ret := 0, state := s, sorted := none } := by
  rw [sstfDispatch, shortestDistanceRequest_eq_none_iff.mpr h]

theorem sstfDispatch_of_some {rq : R} (h : shortestDistanceRequest pos s = some rq) :
    sstfDispatch pos s = {
      ret := 1
      state := { prevSector := toLong (pos rq), queue := s.queue.erase rq }
      sorted := some rq } := by
  rw [sstfDispatch, h]

/-- A dispatch from any other queue hands over one of its requests. -/
theorem exists_dispatched (pos : R → ℕ) (h : s.queue ≠ []) : ∃ rq ∈ s.queue,
    shortestDistanceRequest pos s = some rq ∧ sstfDispatch pos s = {
      ret := 1
      state := { prevSector := toLong (pos rq), queue := s.queue.erase rq }
      sorted := some rq } := by
  cases hrq : shortestDistanceRequest pos s with
  | none => exact absurd (shortestDistanceRequest_eq_none_iff.mp hrq) h
  | some rq =>
    exact ⟨rq, shortestDistanceRequest_mem hrq, rfl, sstfDispatch_of_some hrq⟩

end Dispatch

end Sisop.Sstf
