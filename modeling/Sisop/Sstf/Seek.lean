import Mathlib.Data.Finset.Max
import Sisop.Foundations.Sweep
import Sisop.Sstf.Conservation

/-!
# The seek bound of a drained batch

As long as the head position is known and every sector fits into a `long`, the
distances that the elevator compares are the true ones. A drain is then a run of
nearest-first service on the line of sectors, and the head travels at most twice the
span of its start and the pending sectors. No order of service travels less than the
span.

## Main definitions

* `InRange` — a known head position and sectors that survive the cast
* `span` — the length of the interval a drain has to cover

## Main results

* `sweep_of_drain` — a drain is a run of nearest-first service
* `drain_seek_le` — the bound
-/

namespace Sisop.Sstf

open Foundations

variable {R : Type*}

/-- The sector of a request as a position on the line. -/
def sector (pos : R → ℕ) (rq : R) : ℤ := pos rq

/-- The head position is known and the pending sectors are at most `LONG_MAX`. -/
structure InRange (pos : R → ℕ) (s : State R) : Prop where
  known : 0 ≤ s.prevSector
  prevSector_le : s.prevSector ≤ longMax
  sector_le : ∀ rq ∈ s.queue, sector pos rq ≤ longMax

/-- The positions a drain starts from and has to visit. -/
def stops (pos : R → ℕ) (s : State R) : Finset ℤ :=
  insert s.prevSector (s.queue.map (sector pos)).toFinset

theorem stops_nonempty (pos : R → ℕ) (s : State R) : (stops pos s).Nonempty :=
  Finset.insert_nonempty _ _

/-- The span of the head position and the pending sectors. -/
def span (pos : R → ℕ) (s : State R) : ℤ :=
  (stops pos s).max' (stops_nonempty pos s) - (stops pos s).min' (stops_nonempty pos s)

variable {pos : R → ℕ} {s : State R} {rq : R}

theorem mem_stops {z : ℤ} :
    z ∈ stops pos s ↔ z ∈ s.prevSector :: s.queue.map (sector pos) := by
  simp [stops]

/-! ### The distances -/

theorem sector_nonneg (pos : R → ℕ) (rq : R) : 0 ≤ sector pos rq := Int.natCast_nonneg _

theorem toLong_sector (h : sector pos rq ≤ longMax) : toLong (pos rq) = sector pos rq :=
  toLong_natCast_eq_self_iff.mpr h

/-- In range the difference of two positions does not wrap around. -/
theorem sstfLabsDiff_eq_abs {x y : ℤ} (hx : 0 ≤ x ∧ x ≤ longMax) (hy : 0 ≤ y ∧ y ≤ longMax) :
    sstfLabsDiff x y = |y - x| := by
  have hwrap : ∀ {z : ℤ}, 0 ≤ z → z ≤ longMax → toLong z = z := fun h0 h =>
    (CInt.wrap_eq_self_iff_of_nonneg (by decide) h0).mpr h
  rw [sstfLabsDiff]
  split_ifs with hle
  · rw [hwrap (by omega) (by omega), abs_sub_comm, abs_of_nonneg (by omega)]
  · rw [hwrap (by omega) (by omega), abs_of_nonneg (by omega)]

theorem InRange.distance_eq (h : InRange pos s) (hrq : rq ∈ s.queue) :
    distance pos s.prevSector rq = |sector pos rq - s.prevSector| := by
  rw [distance, toLong_sector (h.sector_le rq hrq)]
  exact sstfLabsDiff_eq_abs ⟨h.known, h.prevSector_le⟩
    ⟨sector_nonneg pos rq, h.sector_le rq hrq⟩

/-! ### Nearest-first service -/

/-- The pending positions. -/
def pending (pos : R → ℕ) (s : State R) : Set ℤ := {z | ∃ rq ∈ s.queue, sector pos rq = z}

/-- The request chosen is at a nearest pending position. -/
theorem InRange.nearest (h : InRange pos s) (hrq : shortestDistanceRequest pos s = some rq) :
    Sweep.Nearest s.prevSector (pending pos s) (sector pos rq) := by
  have hmem := shortestDistanceRequest_mem hrq
  refine ⟨⟨rq, hmem, rfl⟩, ?_⟩
  rintro _ ⟨other, hother, rfl⟩
  rw [shortestDistanceRequest_eq, if_pos (by have := h.known; omega)] at hrq
  rw [← h.distance_eq hmem, ← h.distance_eq hother]
  exact List.le_of_mem_argmin hother hrq

variable [DecidableEq R]

/-- After a dispatch the head is known again, at the sector handed over. -/
theorem InRange.dispatched (h : InRange pos s) (hrq : rq ∈ s.queue) :
    InRange pos ⟨toLong (pos rq), s.queue.erase rq⟩ where
  known := by
    rw [toLong_sector (h.sector_le rq hrq)]
    exact sector_nonneg pos rq
  prevSector_le := toLong_le (pos rq)
  sector_le other hother := h.sector_le other (List.mem_of_mem_erase hother)

/-- Calls in range each serve a nearest pending position, as long as there is one. -/
theorem sweep_of_dispatches (h : InRange pos s) (k : ℕ) :
    (Sweep.machine ℤ).Run (s.prevSector, pending pos s)
      ((dispatches pos k s).1.map (sector pos))
      ((dispatches pos k s).2.prevSector, pending pos (dispatches pos k s).2) := by
  induction k generalizing s with
  | zero => exact .refl _
  | succ k ih =>
    by_cases hempty : s.queue = []
    · rw [dispatches, sstfDispatch_of_empty hempty]
      exact ih h
    · obtain ⟨rq, hrq, hshortest, hdispatch⟩ := exists_dispatched pos hempty
      rw [dispatches, hdispatch]
      refine Machine.Run.cons ?_ (ih (h.dispatched hrq))
      have hhead : toLong (pos rq) = sector pos rq := toLong_sector (h.sector_le rq hrq)
      refine ⟨h.nearest hshortest, hhead, ?_⟩
      rintro _ ⟨other, hother, rfl⟩
      exact ⟨other, List.mem_of_mem_erase hother, rfl⟩

/-- Once the queue is empty further calls do nothing. -/
theorem dispatches_of_empty (hempty : s.queue = []) (k : ℕ) : dispatches pos k s = ([], s) := by
  induction k with
  | zero => rfl
  | succ k ih =>
    rw [dispatches, sstfDispatch_of_empty hempty, ih]
    rfl

/-- A drain that ends has made as many calls as it was allowed, or would have done
nothing in the others. -/
theorem dispatches_of_drain {fuel : ℕ} {out : List R} {s' : State R}
    (hdrain : drain pos fuel s = some (out, s')) : dispatches pos fuel s = (out, s') := by
  induction fuel generalizing s out with
  | zero => cases hdrain
  | succ fuel ih =>
    by_cases hempty : s.queue = []
    · simp only [drain, sstfDispatch_of_empty hempty, if_true, Option.some.injEq,
        Prod.mk.injEq] at hdrain
      obtain ⟨rfl, rfl⟩ := hdrain
      exact dispatches_of_empty hempty _
    · obtain ⟨rq, -, -, hdispatch⟩ := exists_dispatched pos hempty
      simp only [drain, hdispatch, one_ne_zero, if_false, Option.map_eq_some_iff,
        Prod.mk.injEq] at hdrain
      obtain ⟨⟨out', s''⟩, hrest, rfl, rfl⟩ := hdrain
      rw [dispatches, hdispatch, ih hrest]

/-- A drain in range serves a nearest pending position in each of its calls. -/
theorem sweep_of_drain {fuel : ℕ} {out : List R} {s' : State R} (h : InRange pos s)
    (hdrain : drain pos fuel s = some (out, s')) :
    (Sweep.machine ℤ).Run (s.prevSector, pending pos s) (out.map (sector pos))
      (s'.prevSector, pending pos s') := by
  have hrun := sweep_of_dispatches h fuel
  rwa [dispatches_of_drain hdrain] at hrun

/-! ### The bound -/

omit [DecidableEq R] in
/-- Any service of all pending requests travels at least the span. -/
theorem span_le_travel {order : List R} (horder : order.Perm s.queue) :
    span pos s ≤ Sweep.travel s.prevSector (order.map (sector pos)) := by
  have hvisited : ∀ z ∈ stops pos s, z ∈ s.prevSector :: order.map (sector pos) := by
    intro z hz
    exact ((horder.map (sector pos)).cons _).mem_iff.mpr (mem_stops.mp hz)
  exact (le_abs_self _).trans (Sweep.abs_sub_le_travel
    (hvisited _ (Finset.max'_mem _ _)) (hvisited _ (Finset.min'_mem _ _)))

/-- A drain from a known head position, of requests whose sectors are at most
`LONG_MAX`, ends with every request handed over, and its head movement is at most twice
the span, which is the least movement of any order of service. -/
theorem drain_seek_le (h : InRange pos s) : ∃ out s', out.Perm s.queue ∧
    (∀ fuel, s.queue.length < fuel → drain pos fuel s = some (out, s')) ∧
    Sweep.travel s.prevSector (out.map (sector pos)) ≤ 2 * span pos s ∧
    ∀ order : List R, order.Perm s.queue →
      span pos s ≤ Sweep.travel s.prevSector (order.map (sector pos)) := by
  obtain ⟨out, s', -, hperm, hfuel⟩ := exists_drained pos s
  have hdrain : ∀ fuel, s.queue.length < fuel → drain pos fuel s = some (out, s') :=
    fun fuel hlt => by rw [hfuel, if_neg (not_le.mpr hlt)]
  refine ⟨out, s', hperm, hdrain, ?_, fun order horder => span_le_travel horder⟩
  apply Sweep.travel_le_of_run (sweep_of_drain h (hdrain _ (Nat.lt_succ_self _)))
  intro z hz
  have hstop : z ∈ stops pos s :=
    mem_stops.mpr (((hperm.map (sector pos)).cons _).mem_iff.mp hz)
  exact ⟨Finset.min'_le _ _ hstop, Finset.le_max' _ _ hstop⟩

/-- Five numbered requests on both sides of the head, two for one sector: the head goes
up, down to 0 and up to 30. -/
theorem drain_seek_le_five_requests :
    let s : State (ℕ × ℕ) := ⟨10, [(0, 12), (1, 7), (2, 30), (3, 12), (4, 0)]⟩
    drain Prod.snd 6 s = some ([(0, 12), (3, 12), (1, 7), (4, 0), (2, 30)], ⟨30, []⟩) ∧
      Sweep.travel 10 [12, 12, 7, 0, 30] ≤ 2 * span Prod.snd s := by
  intro s
  have hdrain : drain Prod.snd 6 s =
      some ([(0, 12), (3, 12), (1, 7), (4, 0), (2, 30)], ⟨30, []⟩) := by decide +kernel
  have hrange : InRange Prod.snd s := ⟨by decide, by decide, by decide⟩
  obtain ⟨out, s', -, hdrain', hseek, -⟩ := drain_seek_le hrange
  rw [hdrain' 6 (by decide), Option.some.injEq, Prod.mk.injEq] at hdrain
  obtain ⟨rfl, rfl⟩ := hdrain
  exact ⟨hdrain' 6 (by decide), hseek⟩

end Sisop.Sstf
