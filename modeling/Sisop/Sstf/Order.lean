import Mathlib.Data.Nat.Log
import Sisop.Sstf.Seek

/-!
# The order of service

Requests for one sector are equally far from the head wherever it is, and of several
nearest ones the oldest is chosen. So they are handed over in the order of their
arrival, in every run and whatever else is pending, even where sectors do not survive
the cast.

Across sectors a drain need not go back and forth. Pending sectors on one side of the
head are served in one sweep. Between sectors on both sides every turn after the first
doubles the swept interval, so the number of turns is logarithmic in the span.

## Main results

* `fifo_dispatch` — a dispatch takes the oldest request of its sector
* `same_sector_fifo` — one sector's requests are never reordered
* `drain_one_sided` — sectors on one side are served in one sweep
* `drain_turns_le` — the number of turns of a drain
-/

namespace Sisop.Sstf

open Foundations

variable {R : Type*} {pos : R → ℕ} {s : State R} {rq : R}

/-! ### One sector -/

/-- The requests for one sector. -/
def forSector (pos : R → ℕ) (z : ℕ) (l : List R) : List R := l.filter (pos · = z)

theorem forSector_append (z : ℕ) (l l' : List R) :
    forSector pos z (l ++ l') = forSector pos z l ++ forSector pos z l' := List.filter_append ..

theorem forSector_cons (z : ℕ) (l : List R) : forSector pos z (rq :: l) =
    if pos rq = z then rq :: forSector pos z l else forSector pos z l := by
  simp [forSector, List.filter_cons]

@[simp] theorem forSector_nil (z : ℕ) : forSector pos z ([] : List R) = [] := rfl

variable [DecidableEq R]

/-- The chosen request is the oldest one for its sector. -/
theorem exists_eq_append_of_chosen (hrq : shortestDistanceRequest pos s = some rq) :
    ∃ before after, s.queue = before ++ rq :: after ∧ rq ∉ before ∧
      ∀ other ∈ before, pos other ≠ pos rq := by
  obtain ⟨before, after, hqueue, hbefore⟩ :=
    List.eq_append_cons_of_mem (shortestDistanceRequest_mem hrq)
  refine ⟨before, after, hqueue, hbefore, fun other hother hpos => ?_⟩
  have hmem : other ∈ s.queue := hqueue ▸ List.mem_append_left _ hother
  -- an older request at the same distance would have been chosen
  have hle : s.queue.idxOf rq ≤ s.queue.idxOf other := by
    rw [shortestDistanceRequest_eq] at hrq
    split_ifs at hrq
    · refine List.index_of_argmin hrq hmem ?_
      rw [distance, distance, hpos]
    · obtain ⟨rest, hhead⟩ := List.head?_eq_some_iff.mp hrq
      simp [hhead]
  rw [hqueue, List.idxOf_append_of_notMem hbefore, List.idxOf_cons_self,
    List.idxOf_append_of_mem hother] at hle
  exact absurd (List.idxOf_lt_length_iff.mpr hother) (by omega)

/-- A dispatch takes the oldest request of its sector and leaves the other sectors alone. -/
theorem fifo_dispatch (pos : R → ℕ) (s : State R) (z : ℕ) :
    forSector pos z (sstfDispatch pos s).sorted.toList ++
      forSector pos z (sstfDispatch pos s).state.queue = forSector pos z s.queue := by
  by_cases hempty : s.queue = []
  · rw [sstfDispatch_of_empty hempty]
    rfl
  · obtain ⟨rq, -, hrq, hdispatch⟩ := exists_dispatched pos hempty
    obtain ⟨before, after, hqueue, hbefore, hother⟩ := exists_eq_append_of_chosen hrq
    rw [hdispatch]
    simp only [Option.toList_some]
    rw [hqueue, List.erase_append_right _ hbefore, List.erase_cons_head, forSector_append,
      forSector_append, forSector_cons, forSector_cons]
    by_cases hz : pos rq = z
    · subst hz
      have hnone : forSector pos (pos rq) before = [] := by
        rw [forSector, List.filter_eq_nil_iff]
        simpa using hother
      simp [hnone]
    · simp [hz]

/-- What one operation hands over for a sector comes before what stays queued for it. -/
theorem Step.fifo {t : State R} {e : Event R} (hstep : Step pos s e t) (z : ℕ) :
    (forSector pos z (dispatchedIn [e]) ++ forSector pos z t.queue).Sublist
      (forSector pos z s.queue ++ forSector pos z (addedIn [e])) := by
  cases hstep with
  | add rq _ => simp [addedIn, dispatchedIn, sstfAddRequest, forSector_append]
  | merge rq next queued =>
    have hsub : (forSector pos z (s.queue.erase next)).Sublist (forSector pos z s.queue) :=
      List.erase_sublist.filter _
    simpa [addedIn, dispatchedIn, sstfMergedRequests] using hsub
  | dispatch =>
    have hdispatched : dispatchedIn
        [Event.dispatched (sstfDispatch pos s).ret (sstfDispatch pos s).sorted] =
        (sstfDispatch pos s).sorted.toList := by
      cases (sstfDispatch pos s).sorted <;> rfl
    rw [hdispatched, fifo_dispatch]
    exact List.sublist_append_left _ _

/-- One operation keeps what has gone `out` and what is queued in the order of arrival. -/
theorem Step.sublist_append {t : State R} {e : Event R} {out added : List R}
    (hstep : Step pos s e t) (z : ℕ)
    (h : (forSector pos z out ++ forSector pos z s.queue).Sublist (forSector pos z added)) :
    (forSector pos z (out ++ dispatchedIn [e]) ++ forSector pos z t.queue).Sublist
      (forSector pos z (added ++ addedIn [e])) := by
  rw [forSector_append, forSector_append, List.append_assoc]
  refine ((hstep.fifo z).append_left _).trans ?_
  rw [← List.append_assoc]
  exact h.append_right _

/-- Of the requests `added` for one sector those that have gone `out`, and then those in the
`queue`, are in the order of their arrival, and nothing is missing from them but what has been
`removed`. -/
structure SectorFifo (pos : R → ℕ) (z : ℕ) (added out queue removed : List R) : Prop where
  sublist : (forSector pos z out ++ forSector pos z queue).Sublist (forSector pos z added)
  balance : (forSector pos z added).Perm
    (forSector pos z out ++ forSector pos z queue ++ forSector pos z removed)

omit [DecidableEq R] in
/-- The balance of a sector is that of all requests. -/
theorem SectorFifo.of_perm {z : ℕ} {added out queue removed : List R}
    (hsublist : (forSector pos z out ++ forSector pos z queue).Sublist (forSector pos z added))
    (hperm : added.Perm (queue ++ out ++ removed)) :
    SectorFifo pos z added out queue removed := by
  refine ⟨hsublist, ?_⟩
  have hbalance := hperm.filter (pos · = z)
  rw [List.filter_append, List.filter_append] at hbalance
  exact hbalance.trans (List.perm_append_comm.append_right _)

omit [DecidableEq R] in
/-- If nothing has been removed, all requests for the sector are there in order. -/
theorem SectorFifo.eq_of_removed {z : ℕ} {added out queue removed : List R}
    (h : SectorFifo pos z added out queue removed) (hnone : forSector pos z removed = []) :
    forSector pos z out ++ forSector pos z queue = forSector pos z added := by
  have hlength := h.balance.length_eq
  rw [hnone, List.append_nil] at hlength
  exact h.sublist.eq_of_length hlength.symm

/-- What a run hands over for a sector, and then what is queued for it, was added in this
order. -/
theorem sublist_of_run {w : List (Event R)} (hrun : (machine pos).Run sstfInitQueue w s)
    (z : ℕ) :
    (forSector pos z (dispatchedIn w) ++ forSector pos z s.queue).Sublist
      (forSector pos z (addedIn w)) := by
  refine hrun.history_invariant (I := fun w s =>
    (forSector pos z (dispatchedIn w) ++ forSector pos z s.queue).Sublist
      (forSector pos z (addedIn w))) ?_ (List.Sublist.refl _)
  intro w s e t hstep ih
  rw [dispatchedIn_append, addedIn_append]
  exact Step.sublist_append hstep z ih

/-- In every run the requests for one sector are handed over in the order in which they were
added, whatever is done to other sectors: those handed over and those still queued make up
what was added for the sector, in order, without the requests merged away. -/
theorem same_sector_fifo {w : List (Event R)} (hrun : (machine pos).Run sstfInitQueue w s)
    (z : ℕ) :
    SectorFifo pos z (addedIn w) (dispatchedIn w) s.queue (mergedIn w) ∧
      (forSector pos z (mergedIn w) = [] →
        forSector pos z (dispatchedIn w) ++ forSector pos z s.queue =
          forSector pos z (addedIn w)) := by
  have hfifo : SectorFifo pos z (addedIn w) (dispatchedIn w) s.queue (mergedIn w) :=
    .of_perm (sublist_of_run hrun z) (conserved_of_run hrun).balance
  exact ⟨hfifo, hfifo.eq_of_removed⟩

/-- Three numbered requests for sector 12 are added around one for sector 40. One of them is
handed over and another merged away. -/
theorem same_sector_fifo_three_requests :
    ∃ w s, (machine Prod.snd).Run sstfInitQueue w s ∧
      dispatchedIn w = [((0 : ℕ), 12)] ∧ mergedIn w = [(2, 12)] ∧
        forSector Prod.snd 12 s.queue = [(3, 12)] ∧
        SectorFifo Prod.snd 12 (addedIn w) (dispatchedIn w) s.queue (mergedIn w) := by
  have hrun : (machine Prod.snd).Run (sstfInitQueue : State (ℕ × ℕ)) _ _ :=
    .cons (.add (0, 12) (by decide)) (.cons (.add (1, 40) (by decide))
      (.cons (.add (2, 12) (by decide)) (.cons (.add (3, 12) (by decide))
        (.cons .dispatch (.single (.merge (3, 12) (2, 12) (by decide)))))))
  exact ⟨_, _, hrun, by decide, by decide, by decide, (same_sector_fifo hrun 12).1⟩

/-- The requests for one sector leave a drain in the order of the queue. -/
theorem fifo_dispatches (pos : R → ℕ) (s : State R) (z k : ℕ) :
    forSector pos z (dispatches pos k s).1 ++ forSector pos z (dispatches pos k s).2.queue =
      forSector pos z s.queue := by
  induction k generalizing s with
  | zero => rfl
  | succ k ih =>
    rw [dispatches, ← fifo_dispatch pos s z, forSector_append, List.append_assoc, ih]

/-! ### Many sectors -/

omit [DecidableEq R] in
/-- Whatever the order of service, the head stays between the outermost stops. -/
theorem stops_of_perm (pos : R → ℕ) {order : List R} (horder : order.Perm s.queue) :
    ∀ z ∈ s.prevSector :: order.map (sector pos),
      (stops pos s).min' (stops_nonempty pos s) ≤ z ∧
        z ≤ (stops pos s).max' (stops_nonempty pos s) := by
  intro z hz
  have hmem : z ∈ stops pos s :=
    mem_stops.mpr (((horder.map (sector pos)).cons _).mem_iff.mp hz)
  exact ⟨Finset.min'_le _ _ hmem, Finset.le_max' _ _ hmem⟩

/-- A drain from a known head position, of sectors that are `long`s, serves each sector in the
order of the queue. If all sectors are ahead of the head it serves them upwards, if all are
behind it downwards, and in both cases the head travels no more than it has to. -/
theorem drain_one_sided (h : InRange pos s) : ∃ out s', s'.queue = [] ∧
    (∀ fuel, s.queue.length < fuel → drain pos fuel s = some (out, s')) ∧
    (∀ z, forSector pos z out = forSector pos z s.queue) ∧
    ((∀ rq ∈ s.queue, s.prevSector ≤ sector pos rq) →
      (out.map (sector pos)).Pairwise (· ≤ ·) ∧
        Sweep.travel s.prevSector (out.map (sector pos)) = span pos s) ∧
    ((∀ rq ∈ s.queue, sector pos rq ≤ s.prevSector) →
      (out.map (sector pos)).Pairwise (· ≥ ·) ∧
        Sweep.travel s.prevSector (out.map (sector pos)) = span pos s) := by
  obtain ⟨out, s', hempty, hperm, hfuel⟩ := exists_drained pos s
  have hdrain : ∀ fuel, s.queue.length < fuel → drain pos fuel s = some (out, s') :=
    fun fuel hlt => by rw [hfuel, if_neg (not_le.mpr hlt)]
  have hlast := hdrain _ (Nat.lt_succ_self _)
  have hrun := sweep_of_drain h hlast
  have hleast : span pos s ≤ Sweep.travel s.prevSector (out.map (sector pos)) :=
    span_le_travel hperm
  -- where the way ends is one of the stops
  have hstop := stops_of_perm pos hperm
  have hstart := hstop s.prevSector (by simp)
  have hend := hstop _ (List.getLast_mem (List.cons_ne_nil s.prevSector (out.map (sector pos))))
  refine ⟨out, s', hempty, hdrain, fun z => ?_, fun hahead => ?_, fun hbehind => ?_⟩
  · have hfifo := fifo_dispatches pos s z (s.queue.length + 1)
    rw [dispatches_of_drain hlast, hempty, forSector_nil, List.append_nil] at hfifo
    exact hfifo
  · obtain ⟨hsorted, htravel⟩ := Sweep.sorted_of_ahead hrun (by
      rintro _ ⟨rq, hrq, rfl⟩
      exact hahead rq hrq)
    refine ⟨(List.pairwise_cons.mp hsorted).2, le_antisymm ?_ hleast⟩
    rw [htravel, span]
    omega
  · obtain ⟨hsorted, htravel⟩ := Sweep.sorted_of_behind hrun (by
      rintro _ ⟨rq, hrq, rfl⟩
      exact hbehind rq hrq)
    refine ⟨(List.pairwise_cons.mp hsorted).2, le_antisymm ?_ hleast⟩
    rw [htravel, span]
    omega

/-- Four numbered requests ahead of the head, two of them for one sector. -/
theorem drain_one_sided_four_requests :
    ∃ out s', drain Prod.snd 5 (⟨10, [(0, 30), (1, 12), (2, 40), (3, 12)]⟩ : State (ℕ × ℕ)) =
        some (out, s') ∧ forSector Prod.snd 12 out = [(1, 12), (3, 12)] ∧
      Sweep.travel 10 (out.map (sector Prod.snd)) = 30 := by
  have hrange : InRange Prod.snd
      (⟨10, [(0, 30), (1, 12), (2, 40), (3, 12)]⟩ : State (ℕ × ℕ)) :=
    ⟨by decide, by decide, by decide⟩
  obtain ⟨out, s', -, hdrain, hfifo, hahead, -⟩ := drain_one_sided hrange
  refine ⟨out, s', hdrain 5 (by decide), hfifo 12, ?_⟩
  rw [(hahead (by decide)).2]
  decide

/-- A drain from a known head position, of sectors that are `long`s, turns at most once more
than the binary logarithm of the span says. -/
theorem drain_turns_le (h : InRange pos s) : ∃ out s', s'.queue = [] ∧
    (∀ fuel, s.queue.length < fuel → drain pos fuel s = some (out, s')) ∧
    Sweep.turns s.prevSector (out.map (sector pos)) ≤ Nat.log 2 (span pos s).toNat + 1 := by
  obtain ⟨out, s', hempty, hperm, hfuel⟩ := exists_drained pos s
  have hdrain : ∀ fuel, s.queue.length < fuel → drain pos fuel s = some (out, s') :=
    fun fuel hlt => by rw [hfuel, if_neg (not_le.mpr hlt)]
  refine ⟨out, s', hempty, hdrain, ?_⟩
  cases hk : Sweep.turns s.prevSector (out.map (sector pos)) with
  | zero => exact Nat.zero_le _
  | succ k =>
    have hpow := Sweep.two_pow_mul_le_of_run (e := (1 : ℤ)) (by decide)
      (sweep_of_drain h (hdrain _ (Nat.lt_succ_self _))) (stops_of_perm pos hperm)
      (fun v _ v' _ hlt => by omega) hk
    rw [mul_one] at hpow
    have hspan : 2 ^ k ≤ (span pos s).toNat := by
      have hcast : ((2 ^ k : ℕ) : ℤ) ≤ span pos s := by
        push_cast
        exact hpow
      omega
    exact Nat.succ_le_succ (Nat.le_log_of_pow_le one_lt_two hspan)

/-- Five requests around the head. -/
theorem drain_turns_le_five_requests :
    ∃ out s', drain id 6 (⟨100, [99, 102, 95, 110, 70]⟩ : State ℕ) = some (out, s') ∧
      Sweep.turns 100 (out.map (sector id)) ≤ 6 := by
  have hrange : InRange id (⟨100, [99, 102, 95, 110, 70]⟩ : State ℕ) :=
    ⟨by decide, by decide, by decide⟩
  obtain ⟨out, s', -, hdrain, hturns⟩ := drain_turns_le hrange
  have hspan : span id (⟨100, [99, 102, 95, 110, 70]⟩ : State ℕ) = 40 := by decide
  rw [hspan] at hturns
  exact ⟨out, s', hdrain 6 (by decide), hturns⟩

end Sisop.Sstf
