import Sisop.Sstf.Seek

/-!
# The swept region

Between the least and the greatest position the head has been at no request is left
behind. Consecutive dispatches are a run of nearest-first service, so the invariant of
the swept interval holds after any number of them: the head is at one end, and nothing
is pending inside or at the other end.

## Main definitions

* `visited` — the head position and the sectors handed over

## Main results

* `dispatches_swept` — the head is at an end of the region, and the region is empty
-/

namespace Sisop.Sstf

open Foundations

variable {R : Type*}

/-- The positions the head has been at: where it started and the sectors handed over. -/
def visited (pos : R → ℕ) (head : ℤ) (out : List R) : Finset ℤ :=
  insert head (out.map (sector pos)).toFinset

theorem visited_nonempty (pos : R → ℕ) (head : ℤ) (out : List R) :
    (visited pos head out).Nonempty :=
  Finset.insert_nonempty _ _

/-- The lower end of the region the head has swept. -/
def sweptFrom (pos : R → ℕ) (head : ℤ) (out : List R) : ℤ :=
  (visited pos head out).min' (visited_nonempty pos head out)

/-- The upper end of the region the head has swept. -/
def sweptTo (pos : R → ℕ) (head : ℤ) (out : List R) : ℤ :=
  (visited pos head out).max' (visited_nonempty pos head out)

variable {pos : R → ℕ} {s : State R} {head far dist : ℤ} {out : List R} {left : Set ℤ}

theorem mem_visited {z : ℤ} :
    z ∈ visited pos head out ↔ z ∈ head :: out.map (sector pos) := by
  simp [visited]

/-- The two ends of a swept interval are the least and the greatest visited position. -/
theorem swept_ends_eq {head' : ℤ}
    (hswept : Sweep.Swept (head :: out.map (sector pos)) head' dist left far) :
    sweptFrom pos head out = min far head' ∧ sweptTo pos head out = max far head' := by
  have hends : min far head' ∈ visited pos head out ∧ max far head' ∈ visited pos head out := by
    have hfar := mem_visited.mpr hswept.far_mem
    have hhead := mem_visited.mpr hswept.head_mem
    rcases le_total far head' with hle | hle
    · rw [min_eq_left hle, max_eq_right hle]
      exact ⟨hfar, hhead⟩
    · rw [min_eq_right hle, max_eq_left hle]
      exact ⟨hhead, hfar⟩
  constructor
  · apply le_antisymm
    · exact Finset.min'_le _ _ hends.1
    · exact Finset.le_min' _ _ _ fun z hz => (hswept.within z (mem_visited.mp hz)).1
  · apply le_antisymm
    · exact Finset.max'_le _ _ _ fun z hz => (hswept.within z (mem_visited.mp hz)).2
    · exact Finset.le_max' _ _ hends.2

variable [DecidableEq R]

/-- Each of the calls hands over a request, as long as there is one. -/
theorem length_dispatches (pos : R → ℕ) (k : ℕ) (s : State R) :
    (dispatches pos k s).1.length = min k s.queue.length := by
  induction k generalizing s with
  | zero => simp [dispatches]
  | succ k ih =>
    by_cases hempty : s.queue = []
    · simp [dispatches_of_empty hempty, hempty]
    · obtain ⟨rq, hrq, -, hdispatch⟩ := exists_dispatched pos hempty
      have hpos := List.length_pos_of_mem hrq
      simp only [dispatches, hdispatch, Option.toList_some, List.length_append,
        List.length_singleton, ih, List.length_erase_of_mem hrq]
      omega

/-- After `k` consecutive dispatches from a known head position, of requests whose
sectors are at most `LONG_MAX`, the head is at the least or the greatest of the
positions it has been at, and no pending request is strictly between these two. -/
theorem dispatches_swept (h : InRange pos s) (k : ℕ) :
    let out := (dispatches pos k s).1
    let s' := (dispatches pos k s).2
    out.length = min k s.queue.length ∧
      (s'.prevSector = sweptFrom pos s.prevSector out ∨
        s'.prevSector = sweptTo pos s.prevSector out) ∧
      ∀ rq ∈ s'.queue, ¬ (sweptFrom pos s.prevSector out < sector pos rq ∧
        sector pos rq < sweptTo pos s.prevSector out) := by
  intro out s'
  obtain ⟨-, far, hswept⟩ := Sweep.swept_of_run (sweep_of_dispatches h k)
  obtain ⟨hfrom, hto⟩ := swept_ends_eq hswept
  rw [hfrom, hto]
  obtain ⟨hhead, hclear⟩ := hswept.ends
  exact ⟨length_dispatches pos k s, hhead, fun rq hrq => hclear _ ⟨rq, hrq, rfl⟩⟩

/-- From sector 10 the head goes to 12 twice and down to 7: it has swept 7 to 12, and
sectors 0 and 30 are pending. -/
theorem dispatches_swept_three :
    let s : State (ℕ × ℕ) := ⟨10, [(0, 12), (1, 7), (2, 30), (3, 12), (4, 0)]⟩
    dispatches Prod.snd 3 s = ([(0, 12), (3, 12), (1, 7)], ⟨7, [(2, 30), (4, 0)]⟩) ∧
      ∀ rq ∈ [((2, 30) : ℕ × ℕ), (4, 0)],
        ¬ (sweptFrom Prod.snd 10 [((0, 12) : ℕ × ℕ), (3, 12), (1, 7)] < sector Prod.snd rq ∧
          sector Prod.snd rq < sweptTo Prod.snd 10 [((0, 12) : ℕ × ℕ), (3, 12), (1, 7)]) := by
  intro s
  have hdispatches : dispatches Prod.snd 3 s =
      ([(0, 12), (3, 12), (1, 7)], ⟨7, [(2, 30), (4, 0)]⟩) := by decide +kernel
  have hrange : InRange Prod.snd s := ⟨by decide, by decide, by decide⟩
  have hswept := (dispatches_swept hrange 3).2.2
  rw [hdispatches] at hswept
  exact ⟨hdispatches, hswept⟩

end Sisop.Sstf
