import Mathlib.Logic.Function.Basic
import Sisop.Sstf.Basic

/-!
# Several queues under the SSTF elevator

Every queue that the elevator serves has its own `sstf_data`, made by
`sstf_init_queue` and freed by `sstf_exit_queue`. The head position `prev_sector` is
one variable for all of them: the operations of any queue read it and write it.

## Main definitions

* `Queues` — `prev_sector` and the data of each queue
* `Queues.initQueue` — `sstf_init_queue` with its two allocations
* `Queues.machine` — all interleavings of the operations of all queues
* `FirstNearest` — the request a head position asks for

## Main results

* `Queues.machine_deterministic` — an operation and its result fix the next state
* `shortestDistanceRequest_eq_some_iff` — the choice is the first nearest request
-/

namespace Sisop.Sstf

open Foundations

variable {Q R : Type*}

/-- `prev_sector`, and for each queue the `queue` of its `sstf_data` while it has one. -/
structure Queues (Q R : Type*) where
  prevSector : ℤ
  data : Q → Option (List R)

/-- What is done to one queue: the operations of `Event`, and setting up and tearing down
the elevator. The two allocations of `sstf_init_queue` may fail. -/
inductive QueueEvent (R : Type*)
  | init (eq nd : Bool)
  | request (e : Event R)
  | exit
  deriving DecidableEq

/-- `ENOMEM`. -/
def enomem : ℤ := 12

namespace Queues

/-- The module once loaded: `prev_sector` is zero and no queue uses the elevator. -/
def loaded : Queues Q R where
  prevSector := 0
  data _ := none

variable [DecidableEq Q]

/-- What an operation on queue `q` leaves behind. -/
def put (s : Queues Q R) (q : Q) (t : State R) : Queues Q R where
  prevSector := t.prevSector
  data := Function.update s.data q (some t.queue)

/-- `sstf_init_queue`: its result, and the queues afterwards. -/
def initQueue (s : Queues Q R) (q : Q) (eq nd : Bool) : ℤ × Queues Q R :=
  if !eq then (-enomem, s)
  -- the elevator queue is given back
  else if !nd then (-enomem, s)
  else (0, s.put q sstfInitQueue)

/-- What `sstf_exit_queue` leaves behind, with the new `prev_sector`. -/
def exitQueue (s : Queues Q R) (q : Q) (prevSector : ℤ) : Queues Q R where
  prevSector := prevSector
  data := Function.update s.data q none

variable [DecidableEq R]

/-- One operation on one queue. Requests and the tear-down need the elevator's data. -/
inductive Step (pos : R → ℕ) : Queues Q R → Q × QueueEvent R → Queues Q R → Prop
  | init {s : Queues Q R} {q : Q} (eq nd : Bool) :
      Step pos s (q, .init eq nd) (s.initQueue q eq nd).2
  | request {s : Queues Q R} {q : Q} {l : List R} {e : Event R} {t : State R}
      (hdata : s.data q = some l) (hstep : Sstf.Step pos ⟨s.prevSector, l⟩ e t) :
      Step pos s (q, .request e) (s.put q t)
  | exit {s : Queues Q R} {q : Q} {l : List R} {prevSector : ℤ} (hdata : s.data q = some l)
      (hexit : sstfExitQueue ⟨s.prevSector, l⟩ = some prevSector) :
      Step pos s (q, .exit) (s.exitQueue q prevSector)

/-- Every interleaving of operations on all queues after the module is loaded. -/
def machine (Q : Type*) [DecidableEq Q] (pos : R → ℕ) :
    Machine (Queues Q R) (Q × QueueEvent R) where
  initial s := s = loaded
  step := Step pos

end Queues

section Deterministic

variable [DecidableEq R] {pos : R → ℕ}

theorem Step.deterministic {s t u : State R} {e : Event R} (ht : Step pos s e t)
    (hu : Step pos s e u) : t = u := by
  cases ht <;> cases hu <;> rfl

theorem Queues.machine_deterministic [DecidableEq Q] :
    (Queues.machine Q pos).Deterministic := by
  intro s a t u ht hu
  cases ht with
  | init => cases hu; rfl
  | request hdata hstep =>
    cases hu with
    | request hdata' hstep' =>
      rw [hdata, Option.some.injEq] at hdata'
      subst hdata'
      rw [hstep.deterministic hstep']
  | exit hdata hexit =>
    cases hu with
    | exit hdata' hexit' =>
      rw [hdata, Option.some.injEq] at hdata'
      subst hdata'
      rw [hexit, Option.some.injEq] at hexit'
      rw [hexit']

end Deterministic

/-! ### The choice -/

section Choice

variable [DecidableEq R] {pos : R → ℕ}

/-- The request that a head position asks for: of the nearest pending requests the one
that arrived first, and the head of the queue if the position is not known. -/
def FirstNearest (pos : R → ℕ) (h : ℤ) (queue : List R) (rq : R) : Prop :=
  if h > -1 then
    rq ∈ queue ∧ (∀ other ∈ queue, distance pos h rq ≤ distance pos h other) ∧
      ∀ other ∈ queue, distance pos h other ≤ distance pos h rq →
        queue.idxOf rq ≤ queue.idxOf other
  else queue.head? = some rq

/-- What the elevator chooses is what its head position asks for. -/
theorem shortestDistanceRequest_eq_some_iff {h : ℤ} {queue : List R} {rq : R} :
    shortestDistanceRequest pos ⟨h, queue⟩ = some rq ↔ FirstNearest pos h queue rq := by
  rw [shortestDistanceRequest_eq, FirstNearest]
  split_ifs
  · exact List.argmin_eq_some_iff
  · exact Iff.rfl

end Choice

end Sisop.Sstf
