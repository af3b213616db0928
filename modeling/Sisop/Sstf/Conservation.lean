import Mathlib.Data.List.Dedup
import Mathlib.Data.List.Perm.Basic
import Sisop.Sstf.Basic

/-!
# No request is lost or handed over twice

After any run on one queue the requests added are those still queued, those handed
over and those merged away, with multiplicity when a request comes back. The queue
holds each of its requests once, ordered by its latest arrival. A dispatch removes
the one request it hands over. The block layer's drain therefore takes one call more
than there are pending requests, and the assertion in `sstf_exit_queue` holds
after it.

## Main results

* `conserved_of_run` — the balance of requests in a run
* `exists_drained` — the drain of any queue
* `requests_conserved` — both, together with the effect of one dispatch
-/

namespace Sisop.Sstf

open Foundations

variable {R : Type*} [DecidableEq R] {pos : R → ℕ} {s : State R} {w : List (Event R)}

/-- What a run has added is accounted for, and the queue is in order of arrival. -/
structure Conserved (w : List (Event R)) (s : State R) : Prop where
  balance : (addedIn w).Perm (s.queue ++ dispatchedIn w ++ mergedIn w)
  order : s.queue.Sublist (addedIn w).dedup

theorem Conserved.init : Conserved [] (sstfInitQueue : State R) where
  balance := .refl _
  order := List.nil_sublist _

theorem Conserved.nodup (h : Conserved w s) : s.queue.Nodup :=
  h.order.nodup (List.nodup_dedup _)

/-- A request that is not among the earlier ones arrives after all of them. -/
private theorem sublist_dedup_append_singleton {q l : List R} {rq : R}
    (hq : q.Sublist l.dedup) (hrq : rq ∉ q) : (q ++ [rq]).Sublist (l ++ [rq]).dedup := by
  induction l generalizing q with
  | nil =>
    obtain rfl : q = [] := by simpa using hq
    simp
  | cons a l ih =>
    by_cases ha : a ∈ l
    · -- `dedup` keeps the last arrival of `a`
      rw [List.dedup_cons_of_mem ha] at hq
      rw [List.cons_append, List.dedup_cons_of_mem (List.mem_append_left _ ha)]
      exact ih hq hrq
    · rw [List.dedup_cons_of_notMem ha] at hq
      by_cases hlast : a = rq
      · -- `rq` has been here before and arrives again
        subst hlast
        rw [List.cons_append, List.dedup_cons_of_mem (by simp)]
        refine ih ?_ hrq
        cases hq with
        | cons _ hq => exact hq
        | cons_cons _ _ => exact absurd List.mem_cons_self hrq
      · rw [List.cons_append, List.dedup_cons_of_notMem (by simp [ha, hlast])]
        cases hq with
        | cons _ hq => exact (ih hq hrq).cons a
        | cons_cons _ hq => exact (ih hq fun h => hrq (List.mem_cons_of_mem a h)).cons_cons a

/-! ### One operation -/

section Effects

variable {rq next : R}

omit [DecidableEq R] in
@[simp] theorem addedIn_append (w v : List (Event R)) :
    addedIn (w ++ v) = addedIn w ++ addedIn v := List.filterMap_append

omit [DecidableEq R] in
@[simp] theorem mergedIn_append (w v : List (Event R)) :
    mergedIn (w ++ v) = mergedIn w ++ mergedIn v := List.filterMap_append

omit [DecidableEq R] in
@[simp] theorem dispatchedIn_append (w v : List (Event R)) :
    dispatchedIn (w ++ v) = dispatchedIn w ++ dispatchedIn v := List.filterMap_append

/-- Taking a queued request out leaves the other occurrences where they are. -/
private theorem count_eq_count_erase_add {q : List R} (h : rq ∈ q) (a : R) :
    q.count a = (q.erase rq).count a + [rq].count a := by
  rw [(List.perm_cons_erase h).count_eq a, ← List.singleton_append, List.count_append,
    Nat.add_comm]

/-- A new request goes to the end of the queue. -/
theorem Conserved.add (h : Conserved w s) (fresh : rq ∉ s.queue) :
    Conserved (w ++ [.added rq]) (sstfAddRequest s rq) where
  balance := by
    apply List.perm_iff_count.mpr
    intro a
    have hbalance := h.balance.count_eq a
    have hnone : dispatchedIn [Event.added rq] = [] ∧ mergedIn [Event.added rq] = [] :=
      ⟨rfl, rfl⟩
    have hone : addedIn [Event.added rq] = [rq] := rfl
    simp only [List.count_append] at hbalance
    simp only [addedIn_append, dispatchedIn_append, mergedIn_append, sstfAddRequest,
      hone, hnone, List.count_append, List.count_nil]
    omega
  order := by
    rw [addedIn_append]
    exact sublist_dedup_append_singleton h.order fresh

/-- A request that is handed over or merged away leaves the queue. -/
theorem Conserved.remove {e : Event R} (h : Conserved w s) (queued : rq ∈ s.queue)
    (hadded : addedIn [e] = []) (hleft : dispatchedIn [e] ++ mergedIn [e] = [rq])
    (prevSector : ℤ) : Conserved (w ++ [e]) ⟨prevSector, s.queue.erase rq⟩ where
  balance := by
    apply List.perm_iff_count.mpr
    intro a
    have hbalance := h.balance.count_eq a
    have hcount := count_eq_count_erase_add queued a
    rw [← hleft] at hcount
    simp only [List.count_append] at hbalance hcount
    simp only [addedIn_append, dispatchedIn_append, mergedIn_append, hadded,
      List.count_append, List.count_nil]
    omega
  order := by
    rw [addedIn_append, hadded, List.append_nil]
    exact List.erase_sublist.trans h.order

theorem Conserved.merge (h : Conserved w s) (queued : next ∈ s.queue) :
    Conserved (w ++ [.merged rq next]) (sstfMergedRequests s rq next) :=
  h.remove queued rfl rfl s.prevSector

theorem Conserved.dispatch (h : Conserved w s) :
    Conserved (w ++ [.dispatched (sstfDispatch pos s).ret (sstfDispatch pos s).sorted])
      (sstfDispatch pos s).state := by
  by_cases hempty : s.queue = []
  · rw [sstfDispatch_of_empty hempty]
    exact ⟨by simpa [addedIn, dispatchedIn, mergedIn] using h.balance,
      by simpa [addedIn] using h.order⟩
  · obtain ⟨rq, hrq, -, hdispatch⟩ := exists_dispatched pos hempty
    rw [hdispatch]
    exact h.remove hrq rfl rfl _

theorem Conserved.step {e : Event R} {t : State R} (h : Conserved w s)
    (hstep : (machine pos).step s e t) : Conserved (w ++ [e]) t := by
  cases hstep with
  | add rq fresh => exact h.add fresh
  | merge rq next queued => exact h.merge queued
  | dispatch => exact h.dispatch

end Effects

/-! ### Runs and drains -/

/-- Every run from a fresh queue conserves its requests. -/
theorem conserved_of_run (hrun : (machine pos).Run sstfInitQueue w s) : Conserved w s :=
  hrun.history_invariant (I := Conserved) (fun hstep h => h.step hstep) Conserved.init

/-- The drain of a queue hands over all its requests in as many calls, and stops at the
next one, which finds the queue empty. -/
theorem exists_drained (pos : R → ℕ) (s : State R) : ∃ out s', s'.queue = [] ∧
    out.Perm s.queue ∧ ∀ fuel, drain pos fuel s =
      if fuel ≤ s.queue.length then none else some (out, s') := by
  induction hlen : s.queue.length generalizing s with
  | zero =>
    have hempty := List.length_eq_zero_iff.mp hlen
    refine ⟨[], s, hempty, by rw [hempty], fun fuel => ?_⟩
    cases fuel with
    | zero => rfl
    | succ fuel => simp [drain, sstfDispatch_of_empty hempty]
  | succ n ih =>
    have hne : s.queue ≠ [] := List.ne_nil_of_length_eq_add_one hlen
    obtain ⟨rq, hrq, -, hdispatch⟩ := exists_dispatched pos hne
    have hrest : (s.queue.erase rq).length = n := by
      rw [List.length_erase_of_mem hrq, hlen, Nat.add_sub_cancel]
    obtain ⟨out, s', hempty, hperm, hdrain⟩ := ih ⟨toLong (pos rq), s.queue.erase rq⟩ hrest
    refine ⟨rq :: out, s', hempty, (hperm.cons rq).trans (List.perm_cons_erase hrq).symm,
      fun fuel => ?_⟩
    cases fuel with
    | zero => simp [drain]
    | succ fuel =>
      by_cases hfuel : fuel ≤ n
      · simp [drain, hdispatch, hdrain, hfuel]
      · simp [drain, hdispatch, hdrain, hfuel]

/-- In every run on one queue the requests added are those still queued, dispatched or
merged away, and the queue holds each once and in order of arrival. In every state
reached, a dispatch hands over and removes one request if there is one and otherwise
returns 0 and changes nothing, and the drain takes one call more than there are
pending requests and leaves a queue that may be torn down. -/
theorem requests_conserved (hrun : (machine pos).Run sstfInitQueue w s) :
    (addedIn w).Perm (s.queue ++ dispatchedIn w ++ mergedIn w) ∧
    s.queue.Nodup ∧ s.queue.Sublist (addedIn w).dedup ∧
    (s.queue ≠ [] → ∃ rq ∈ s.queue, sstfDispatch pos s = {
      ret := 1
      state := { prevSector := toLong (pos rq), queue := s.queue.erase rq }
      sorted := some rq }) ∧
    (s.queue = [] → sstfDispatch pos s = { ret := 0, state := s, sorted := none }) ∧
    ∃ out s', out.Perm s.queue ∧ s'.queue = [] ∧ sstfExitQueue s' = some (-1) ∧
      ∀ fuel, drain pos fuel s =
        if fuel ≤ s.queue.length then none else some (out, s') := by
  have hconserved := conserved_of_run hrun
  refine ⟨hconserved.balance, hconserved.nodup, hconserved.order, fun hne => ?_,
    sstfDispatch_of_empty, ?_⟩
  · obtain ⟨rq, hrq, -, hdispatch⟩ := exists_dispatched pos hne
    exact ⟨rq, hrq, hdispatch⟩
  · obtain ⟨out, s', hempty, hperm, hdrain⟩ := exists_drained pos s
    exact ⟨out, s', hperm, hempty, by simp [sstfExitQueue, hempty], hdrain⟩

/-- The balance in a run that merges, dispatches between requests for one sector, and
leaves two requests queued. -/
theorem requests_conserved_four_requests :
    ∃ (w : List (Event (Fin 4))) (s : State (Fin 4)),
      (machine fun _ => 8).Run sstfInitQueue w s ∧ s.queue = [1, 3] ∧
      dispatchedIn w = [0] ∧ mergedIn w = [2] ∧
      (addedIn w).Perm (s.queue ++ dispatchedIn w ++ mergedIn w) := by
  have hadds := (((Machine.Run.refl (M := machine fun _ : Fin 4 => 8) sstfInitQueue).snoc
    (.add 0 (by decide))).snoc (.add 1 (by decide))).snoc
    (.add 2 (by decide))
  have hrun := ((hadds.snoc (.merge 0 2 (by decide))).snoc .dispatch).snoc
    (.add 3 (by decide))
  exact ⟨_, _, hrun, by decide, by decide, by decide, (requests_conserved hrun).1⟩

end Sisop.Sstf
