import Sisop.Sstf.Seek

/-!
# The nearest request, the oldest on ties

The loop of `shortest_distance_request` replaces its choice only by a request that is
strictly nearer, so of several nearest requests the one queued first is handed over.
The distances it compares are exact as long as the subtraction in `sstf_labs_diff`
stays in the range of `long`, which it does between positions from 0 to `LONG_MAX`.

## Main definitions

* `labsDiffTerm` — the subtraction that `sstf_labs_diff` evaluates
* `OldestNearest` — a request nearer than all before it and as near as any after it

## Main results

* `InRange.shortestDistanceRequest_oldestNearest` — the choice
* `sstfDispatch_oldestNearest` — the dispatch
-/

namespace Sisop.Sstf

open Foundations

variable {R : Type*}

/-- The subtraction that `sstf_labs_diff` evaluates. -/
def labsDiffTerm (x y : ℤ) : ℤ := if x ≥ y then x - y else y - x

theorem sstfLabsDiff_eq_toLong (x y : ℤ) : sstfLabsDiff x y = toLong (labsDiffTerm x y) := by
  rw [sstfLabsDiff, labsDiffTerm]
  split_ifs <;> rfl

/-- Between positions in range the subtraction stays in range. -/
theorem labsDiffTerm_mem {x y : ℤ} (hx : 0 ≤ x ∧ x ≤ longMax) (hy : 0 ≤ y ∧ y ≤ longMax) :
    0 ≤ labsDiffTerm x y ∧ labsDiffTerm x y ≤ longMax := by
  rw [labsDiffTerm]
  split_ifs <;> omega

/-- No request is nearer to `head` than `rq`, and those queued before it are farther. -/
structure OldestNearest (pos : R → ℕ) (head : ℤ) (before : List R) (rq : R)
    (after : List R) : Prop where
  nearest : ∀ other ∈ before ++ rq :: after,
    |sector pos rq - head| ≤ |sector pos other - head|
  oldest : ∀ other ∈ before, |sector pos rq - head| < |sector pos other - head|

variable {pos : R → ℕ} {s : State R} {rq : R}

theorem OldestNearest.notMem {head : ℤ} {before after : List R}
    (h : OldestNearest pos head before rq after) : rq ∉ before :=
  fun hmem => lt_irrefl _ (h.oldest rq hmem)

variable [DecidableEq R]

/-- A least element that comes first among its equals splits a list at its first
occurrence. -/
private theorem exists_eq_append_of_mem_argmin {f : R → ℤ} {l : List R}
    (h : rq ∈ l.argmin f) : ∃ before after, l = before ++ rq :: after ∧
      ∀ other ∈ before, f rq < f other := by
  obtain ⟨before, after, rfl, hfirst⟩ := List.eq_append_cons_of_mem (List.argmin_mem h)
  refine ⟨before, after, rfl, fun other hother => ?_⟩
  by_contra hle
  have hmem : other ∈ before ++ rq :: after := List.mem_append_left _ hother
  have hidx := List.index_of_argmin h hmem (not_lt.mp hle)
  rw [List.idxOf_append_of_notMem hfirst, List.idxOf_cons_self,
    List.idxOf_append_of_mem hother] at hidx
  exact absurd (List.idxOf_lt_length_iff.mpr hother) (by omega)

/-- With a known head position the oldest of the nearest requests is chosen. -/
theorem InRange.shortestDistanceRequest_oldestNearest (h : InRange pos s)
    (hrq : shortestDistanceRequest pos s = some rq) :
    ∃ before after, s.queue = before ++ rq :: after ∧
      OldestNearest pos s.prevSector before rq after := by
  have hmem := shortestDistanceRequest_mem hrq
  have hnearest := (h.nearest hrq).2
  rw [shortestDistanceRequest_eq, if_pos (by have := h.known; omega)] at hrq
  obtain ⟨before, after, hqueue, holdest⟩ := exists_eq_append_of_mem_argmin hrq
  refine ⟨before, after, hqueue, ⟨?_, ?_⟩⟩
  · intro other hother
    exact hnearest _ ⟨other, hqueue ▸ hother, rfl⟩
  · intro other hother
    have hother' : other ∈ s.queue := hqueue ▸ List.mem_append_left _ hother
    rw [← h.distance_eq hmem, ← h.distance_eq hother']
    exact holdest other hother

/-- From a queue that is not empty, with all sectors at most `LONG_MAX`, a dispatch with
a known head position hands over the oldest of the nearest requests. It leaves the
others in their order and records the sector, and no subtraction leaves the range of
`long`. Without a head position it hands over the head of the queue. -/
theorem sstfDispatch_oldestNearest (hempty : s.queue ≠ [])
    (hsectors : ∀ rq ∈ s.queue, sector pos rq ≤ longMax) :
    (0 ≤ s.prevSector → s.prevSector ≤ longMax →
      (∃ before rq after, s.queue = before ++ rq :: after ∧
        OldestNearest pos s.prevSector before rq after ∧
        sstfDispatch pos s = ⟨1, ⟨sector pos rq, before ++ after⟩, some rq⟩) ∧
      ∀ rq ∈ s.queue, -longMax - 1 ≤ labsDiffTerm s.prevSector (toLong (pos rq)) ∧
        labsDiffTerm s.prevSector (toLong (pos rq)) ≤ longMax ∧
        distance pos s.prevSector rq = labsDiffTerm s.prevSector (toLong (pos rq))) ∧
    (s.prevSector = -1 → ∃ rq rest, s.queue = rq :: rest ∧
      sstfDispatch pos s = ⟨1, ⟨sector pos rq, rest⟩, some rq⟩) := by
  obtain ⟨rq, hmem, hrq, hdispatch⟩ := exists_dispatched pos hempty
  rw [toLong_sector (hsectors rq hmem)] at hdispatch
  constructor
  · intro hknown hle
    have hrange : InRange pos s := ⟨hknown, hle, hsectors⟩
    constructor
    · obtain ⟨before, after, hqueue, hpicked⟩ :=
        hrange.shortestDistanceRequest_oldestNearest hrq
      refine ⟨before, rq, after, hqueue, hpicked, ?_⟩
      rw [hdispatch, hqueue, List.erase_append_right _ hpicked.notMem, List.erase_cons_head]
    · intro rq hrq
      have hterm := labsDiffTerm_mem ⟨hknown, hle⟩ ⟨sector_nonneg pos rq, hsectors rq hrq⟩
      rw [distance, sstfLabsDiff_eq_toLong, toLong_sector (hsectors rq hrq)]
      have hmax : 0 ≤ longMax := hknown.trans hle
      exact ⟨by omega, hterm.2, (CInt.wrap_eq_self_iff_of_nonneg (by decide) hterm.1).mpr hterm.2⟩
  · intro hunknown
    rw [shortestDistanceRequest_eq, if_neg (by omega)] at hrq
    obtain ⟨rest, hqueue⟩ := List.head?_eq_some_iff.mp hrq
    refine ⟨rq, rest, hqueue, ?_⟩
    rw [hdispatch, hqueue, List.erase_cons_head]

/-- Sectors 12 and 8 are both 2 away from sector 10: the older request is handed over.
Without a head position it is the head of the queue. -/
theorem sstfDispatch_oldestNearest_tie :
    let queue : List (ℕ × ℕ) := [(0, 20), (1, 12), (2, 8), (3, 12)]
    (∃ before rq after, queue = before ++ rq :: after ∧
      OldestNearest Prod.snd 10 before rq after ∧
      sstfDispatch Prod.snd ⟨10, queue⟩ =
        ⟨1, ⟨sector Prod.snd rq, before ++ after⟩, some rq⟩) ∧
    ∃ rq rest, queue = rq :: rest ∧
      sstfDispatch Prod.snd ⟨-1, queue⟩ = ⟨1, ⟨sector Prod.snd rq, rest⟩, some rq⟩ := by
  intro queue
  have hempty : queue ≠ [] := by decide
  have hsectors : ∀ rq ∈ queue, sector Prod.snd rq ≤ longMax := by decide
  constructor
  · exact ((sstfDispatch_oldestNearest (s := ⟨10, queue⟩) hempty hsectors).1
      (by decide) (by decide)).1
  · exact (sstfDispatch_oldestNearest (s := ⟨-1, queue⟩) hempty hsectors).2 rfl

end Sisop.Sstf
