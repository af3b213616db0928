import Sisop.Sstf.Independence
import Sisop.Sstf.Order

/-!
# Requests of several queues

The queues share nothing but the head position. What it is decides in which order the
sectors of a queue are served. It does not decide which requests a queue hands over, nor
the order of those for one sector: in every interleaving of the operations of all queues,
whether initialisations fail and how often queues are torn down and set up again, a
request that is added to a queue stays there until that queue hands it over or it is
merged away, and the requests for one sector leave in the order of their arrival. The one
thing that loses requests is an initialisation over a queue that still has some.

## Main definitions

* `requestsOf` — what is asked of one queue in a run, and what it hands over
* `Queues.pending` — what is queued
* `NeverReset` — no initialisation finds requests in the queue

## Main results

* `Step.balance` — what one operation does to the requests of its queue
* `queues_conserved_iff` — when nothing is lost
* `queues_sector_fifo` — one sector of one queue is never reordered
-/

namespace Sisop.Sstf

open Foundations

variable {Q R : Type*} [DecidableEq Q]

/-- The request operations of a run on queue `a`. -/
def requestsOf (a : Q) (w : List (Q × QueueEvent R)) : List (Event R) :=
  (ofQueue a w).filterMap fun
    | (_, .request e) => some e
    | (_, .init _ _) | (_, .exit) => none

omit [DecidableEq Q] in
/-- The requests in a queue. -/
def Queues.pending (s : Queues Q R) (a : Q) : List R := (s.data a).getD []

variable [DecidableEq R]

/-- Whenever queue `a` is initialised it has no requests. -/
def NeverReset (pos : R → ℕ) (a : Q) (w : List (Q × QueueEvent R)) : Prop :=
  ∀ v u, w = v ++ (a, .init true true) :: u →
    ∀ s, (Queues.machine Q pos).Run Queues.loaded v s → s.pending a = []

variable {pos : R → ℕ} {a : Q} {s t : Queues Q R} {e : QueueEvent R}
  {w : List (Q × QueueEvent R)}

/-! ### One operation -/

omit [DecidableEq Q] in
/-- A request operation neither makes nor loses a request. -/
theorem Step.balance {s t : State R} {e : Event R} (hstep : Step pos s e t) :
    (s.queue ++ addedIn [e]).Perm (t.queue ++ dispatchedIn [e] ++ mergedIn [e]) := by
  cases hstep with
  | add rq _ => simp [addedIn, dispatchedIn, mergedIn, sstfAddRequest]
  | merge rq next queued =>
    have herase := (List.perm_cons_erase queued).trans (List.perm_append_singleton _ _).symm
    simpa [addedIn, dispatchedIn, mergedIn, sstfMergedRequests] using herase
  | dispatch =>
    by_cases hempty : s.queue = []
    · rw [sstfDispatch_of_empty hempty]
      simp [addedIn, dispatchedIn, mergedIn]
    · obtain ⟨rq, hmem, -, hdispatch⟩ := exists_dispatched pos hempty
      rw [hdispatch]
      have herase := (List.perm_cons_erase hmem).trans (List.perm_append_singleton _ _).symm
      simpa [addedIn, dispatchedIn, mergedIn] using herase

omit [DecidableEq R] in
theorem requestsOf_append_of_ne {b : Q} (hb : b ≠ a) :
    requestsOf a (w ++ [(b, e)]) = requestsOf a w := by
  rw [requestsOf, ofQueue_append, ofQueue_cons_of_ne hb, ofQueue_nil, List.append_nil, requestsOf]

omit [DecidableEq R] in
theorem requestsOf_append_request (e : Event R) :
    requestsOf a (w ++ [(a, .request e)]) = requestsOf a w ++ [e] := by
  simp [requestsOf]

omit [DecidableEq R] in
theorem requestsOf_append_init (eq nd : Bool) :
    requestsOf a (w ++ [(a, .init eq nd)]) = requestsOf a w := by
  simp [requestsOf]

omit [DecidableEq R] in
theorem requestsOf_append_exit : requestsOf a (w ++ [(a, .exit)]) = requestsOf a w := by
  simp [requestsOf]

/-- Operations on other queues leave the requests of queue `a` alone. -/
theorem Queues.Step.pending_of_ne {b : Q} (hstep : Queues.Step pos s (b, e) t) (hb : b ≠ a) :
    t.pending a = s.pending a := by
  rw [Queues.pending, hstep.data_of_ne hb, Queues.pending]

/-- What one operation on queue `a` does to its requests. -/
theorem Queues.Step.pending_cases (hstep : Queues.Step pos s (a, e) t) :
    (∃ r h h', e = .request r ∧ Sstf.Step pos ⟨h, s.pending a⟩ r ⟨h', t.pending a⟩) ∨
      (e = .init true true ∧ t.pending a = []) ∨
      ((∀ w, requestsOf a (w ++ [(a, e)]) = requestsOf a w) ∧ e ≠ .init true true ∧
        t.pending a = s.pending a) := by
  cases hstep with
  | init eq nd =>
    have hsame : ∀ w : List (Q × QueueEvent R),
        requestsOf a (w ++ [(a, .init eq nd)]) = requestsOf a w :=
      fun w => requestsOf_append_init eq nd
    cases eq with
    | false => exact Or.inr (Or.inr ⟨hsame, by simp, rfl⟩)
    | true =>
      cases nd with
      | false => exact Or.inr (Or.inr ⟨hsame, by simp, rfl⟩)
      | true =>
        refine Or.inr (Or.inl ⟨rfl, ?_⟩)
        simp [Queues.pending, Queues.initQueue, Queues.put, sstfInitQueue]
  | @request _ l r u hdata hr =>
    have hafter : (s.put a u).pending a = u.queue := by simp [Queues.pending, Queues.put]
    have hbefore : s.pending a = l := by simp [Queues.pending, hdata]
    rw [hafter, hbefore]
    exact Or.inl ⟨r, s.prevSector, u.prevSector, rfl, hr⟩
  | @exit _ l h hdata hexit =>
    -- the tear-down has found the queue empty
    have hempty : l = [] := by
      rw [sstfExitQueue] at hexit
      split_ifs at hexit with hempty
      exact hempty
    refine Or.inr (Or.inr ⟨fun w => requestsOf_append_exit, by simp, ?_⟩)
    simp [Queues.pending, Queues.exitQueue, hdata, hempty]

/-! ### Runs -/

theorem neverReset_append (hrun : (Queues.machine Q pos).Run Queues.loaded w s) {b : Q} :
    NeverReset pos a (w ++ [(b, e)]) ↔
      NeverReset pos a w ∧ ((b, e) = (a, .init true true) → s.pending a = []) := by
  constructor
  · refine fun h => ⟨fun v u heq => h v (u ++ [(b, e)]) (by simp [heq]), fun heq => ?_⟩
    exact h w [] (by rw [heq]) s hrun
  · rintro ⟨hbefore, hlast⟩ v u heq x hx
    rcases List.eq_nil_or_concat' u with rfl | ⟨u, last, rfl⟩
    · obtain ⟨rfl, hlabel⟩ := List.append_inj' heq rfl
      obtain rfl := hrun.unique Queues.machine_deterministic hx
      exact hlast (List.singleton_inj.mp hlabel)
    · rw [← List.cons_append, ← List.append_assoc] at heq
      exact hbefore v u (List.append_inj' heq rfl).1 x hx

/-- Some initialisation of queue `a` has found the request in the queue. -/
def LostByInit (pos : R → ℕ) (a : Q) (w : List (Q × QueueEvent R)) (rq : R) : Prop :=
  ∃ v u s, w = v ++ (a, .init true true) :: u ∧
    (Queues.machine Q pos).Run Queues.loaded v s ∧ rq ∈ s.pending a

theorem LostByInit.append {rq : R} (h : LostByInit pos a w rq) (e : Q × QueueEvent R) :
    LostByInit pos a (w ++ [e]) rq := by
  obtain ⟨v, u, s, rfl, hrun, hmem⟩ := h
  exact ⟨v, u ++ [e], s, by simp, hrun, hmem⟩

/-- The requests added to queue `a` are those queued, those handed over, those merged away
and those that an initialisation has lost. -/
structure Accounted (pos : R → ℕ) (a : Q) (w : List (Q × QueueEvent R)) (s : Queues Q R)
    (lost : List R) : Prop where
  balance : (addedIn (requestsOf a w)).Perm
    (s.pending a ++ dispatchedIn (requestsOf a w) ++ mergedIn (requestsOf a w) ++ lost)
  lostByInit : ∀ rq ∈ lost, LostByInit pos a w rq
  none_lost : lost = [] ↔ NeverReset pos a w

theorem Accounted.step {lost : List R} (h : Accounted pos a w s lost)
    (hrun : (Queues.machine Q pos).Run Queues.loaded w s) {b : Q}
    (hstep : Queues.Step pos s (b, e) t) : ∃ lost', Accounted pos a (w ++ [(b, e)]) t lost' := by
  by_cases hb : b = a
  · subst hb
    rcases hstep.pending_cases with ⟨r, p, p', rfl, hr⟩ | ⟨rfl, hempty⟩ | ⟨hquiet, hne, hsame⟩
    · refine ⟨lost, ?_, fun rq hrq => (h.lostByInit rq hrq).append _,
        by rw [neverReset_append hrun, h.none_lost]; simp⟩
      rw [requestsOf_append_request, addedIn_append, dispatchedIn_append, mergedIn_append]
      apply List.perm_iff_count.mpr
      intro x
      have hbefore := h.balance.count_eq x
      have hone := hr.balance.count_eq x
      simp only [List.count_append] at hbefore hone ⊢
      omega
    · -- whatever was queued is lost
      refine ⟨s.pending b ++ lost, ?_, fun rq hrq => ?_, ?_⟩
      · rw [requestsOf_append_init, hempty]
        apply List.perm_iff_count.mpr
        intro x
        have hbefore := h.balance.count_eq x
        simp only [List.count_append, List.count_nil] at hbefore ⊢
        omega
      · rcases List.mem_append.mp hrq with hrq | hrq
        · exact ⟨w, [], s, rfl, hrun, hrq⟩
        · exact (h.lostByInit rq hrq).append _
      · rw [neverReset_append hrun, List.append_eq_nil_iff, h.none_lost]
        tauto
    · refine ⟨lost, ?_, fun rq hrq => (h.lostByInit rq hrq).append _, ?_⟩
      · rw [hquiet, hsame]
        exact h.balance
      · rw [neverReset_append hrun, h.none_lost]
        simp [hne]
  · refine ⟨lost, ?_, fun rq hrq => (h.lostByInit rq hrq).append _, ?_⟩
    · rw [requestsOf_append_of_ne hb, hstep.pending_of_ne hb]
      exact h.balance
    · rw [neverReset_append hrun, h.none_lost]
      simp [hb]

theorem accounted_of_run (a : Q) (hrun : (Queues.machine Q pos).Run Queues.loaded w s) :
    ∃ lost, Accounted pos a w s lost := by
  have hboth := hrun.history_invariant (I := fun w s =>
    (Queues.machine Q pos).Run Queues.loaded w s ∧ ∃ lost, Accounted pos a w s lost) ?_
    ⟨.refl _, [], .refl _, by simp, by simp [NeverReset]⟩
  · exact hboth.2
  rintro w s ⟨b, e⟩ t hstep ⟨hrun, lost, hacc⟩
  exact ⟨hrun.snoc hstep, hacc.step hrun hstep⟩

/-- After any interleaving of the operations of all queues, the requests that were added to a
queue are those it still has, those it has handed over and those merged away, exactly when
none of its initialisations has found a request in it. -/
theorem queues_conserved_iff (a : Q) (hrun : (Queues.machine Q pos).Run Queues.loaded w s) :
    (addedIn (requestsOf a w)).Perm
        (s.pending a ++ dispatchedIn (requestsOf a w) ++ mergedIn (requestsOf a w)) ↔
      NeverReset pos a w := by
  obtain ⟨lost, hacc⟩ := accounted_of_run a hrun
  rw [← hacc.none_lost]
  constructor
  · intro hperm
    have hlength := (hperm.symm.trans hacc.balance).length_eq
    simp only [List.length_append] at hlength
    exact List.length_eq_zero_iff.mp (by omega)
  · rintro rfl
    simpa using hacc.balance

/-- Queue `false` is set up at the second attempt. While it has one request queued, queue
`true` hands over another; then `false` is initialised once more. -/
theorem queues_conserved_two_queues :
    ∃ (w : List (Bool × QueueEvent ℕ)) (s t : Queues Bool ℕ),
      (Queues.machine Bool id).Run Queues.loaded w s ∧
      (Queues.machine Bool id).Run Queues.loaded (w ++ [(false, .init true true)]) t ∧
      addedIn (requestsOf false w) = [10, 20] ∧ dispatchedIn (requestsOf false w) = [10] ∧
      (addedIn (requestsOf false w)).Perm (s.pending false ++
        dispatchedIn (requestsOf false w) ++ mergedIn (requestsOf false w)) ∧
      ¬ NeverReset id false (w ++ [(false, .init true true)]) := by
  have hrun := ((((Machine.Run.refl (M := Queues.machine Bool (id : ℕ → ℕ)) Queues.loaded).snoc
    (.init (q := false) true false)).snoc (.init (q := false) true true)).snoc
    (.init (q := true) true true)).snoc (.request (q := false) rfl (.add 10 (by decide)))
  have hrun := (((hrun.snoc (.request (q := false) rfl .dispatch)).snoc
    (.request (q := false) rfl (.add 20 (by decide +kernel)))).snoc
    (.request (q := true) rfl (.add 500 (by decide)))).snoc
    (.request (q := true) rfl .dispatch)
  have hreset := hrun.snoc (.init (q := false) true true)
  refine ⟨_, _, _, hrun, hreset, by decide +kernel, by decide +kernel, by decide +kernel, ?_⟩
  rw [← queues_conserved_iff false hreset]
  decide +kernel

/-! ### One sector of one queue -/

/-- What a queue has handed over for a sector, and then what it has queued for it, was added
to it in this order. -/
theorem Queues.sublist_of_run (a : Q) (hrun : (Queues.machine Q pos).Run Queues.loaded w s)
    (z : ℕ) :
    (forSector pos z (dispatchedIn (requestsOf a w)) ++ forSector pos z (s.pending a)).Sublist
      (forSector pos z (addedIn (requestsOf a w))) := by
  refine hrun.history_invariant (I := fun w s =>
    (forSector pos z (dispatchedIn (requestsOf a w)) ++ forSector pos z (s.pending a)).Sublist
      (forSector pos z (addedIn (requestsOf a w)))) ?_ (List.Sublist.refl _)
  rintro w s ⟨b, e⟩ t hstep ih
  by_cases hb : b = a
  · subst hb
    rcases hstep.pending_cases with ⟨r, p, p', rfl, hr⟩ | ⟨rfl, hempty⟩ | ⟨hquiet, -, hsame⟩
    · rw [requestsOf_append_request, dispatchedIn_append, addedIn_append]
      exact hr.sublist_append z ih
    · -- what the initialisation loses is not queued any more
      rw [requestsOf_append_init, hempty]
      exact (List.Sublist.append_left (List.nil_sublist _) _).trans ih
    · rwa [hquiet, hsame]
  · rwa [requestsOf_append_of_ne hb, hstep.pending_of_ne hb]

/-- In every interleaving of the operations of all queues, whatever they leave in
`prev_sector`, a queue hands over the requests for one sector in the order in which they were
added to it. Nothing is missing from them but what was merged away and what initialisations
have lost. -/
theorem queues_sector_fifo (a : Q) (hrun : (Queues.machine Q pos).Run Queues.loaded w s) :
    ∃ lost, (∀ rq ∈ lost, LostByInit pos a w rq) ∧ (lost = [] ↔ NeverReset pos a w) ∧
      ∀ z, SectorFifo pos z (addedIn (requestsOf a w)) (dispatchedIn (requestsOf a w))
          (s.pending a) (mergedIn (requestsOf a w) ++ lost) ∧
        (forSector pos z (mergedIn (requestsOf a w) ++ lost) = [] →
          forSector pos z (dispatchedIn (requestsOf a w)) ++ forSector pos z (s.pending a) =
            forSector pos z (addedIn (requestsOf a w))) := by
  obtain ⟨lost, hacc⟩ := accounted_of_run a hrun
  refine ⟨lost, hacc.lostByInit, hacc.none_lost, fun z => ?_⟩
  have hfifo : SectorFifo pos z (addedIn (requestsOf a w)) (dispatchedIn (requestsOf a w))
      (s.pending a) (mergedIn (requestsOf a w) ++ lost) := by
    apply SectorFifo.of_perm (Queues.sublist_of_run a hrun z)
    rw [← List.append_assoc]
    exact hacc.balance
  exact ⟨hfifo, hfifo.eq_of_removed⟩

/-- Queue `false` has two numbered requests for sector 12. Between its dispatches queue `true`
moves the head to sector 7. Then `false` is initialised and loses what is left in it. -/
theorem queues_sector_fifo_two_queues :
    ∃ (w : List (Bool × QueueEvent (ℕ × ℕ))) (s : Queues Bool (ℕ × ℕ)) (lost : List (ℕ × ℕ)),
      (Queues.machine Bool Prod.snd).Run Queues.loaded w s ∧ lost ≠ [] ∧
      addedIn (requestsOf false w) = [(0, 12), (1, 40), (2, 12)] ∧
      dispatchedIn (requestsOf false w) = [(0, 12), (2, 12)] ∧ s.pending false = [] ∧
      SectorFifo Prod.snd 40 (addedIn (requestsOf false w)) (dispatchedIn (requestsOf false w))
        (s.pending false) (mergedIn (requestsOf false w) ++ lost) := by
  have hrun := ((((Machine.Run.refl (M := Queues.machine Bool (Prod.snd : ℕ × ℕ → ℕ))
    Queues.loaded).snoc (.init (q := false) true true)).snoc (.init (q := true) true true)).snoc
    (.request (q := false) rfl (.add (0, 12) (by decide)))).snoc
    (.request (q := false) rfl (.add (1, 40) (by decide +kernel)))
  have hrun := (((hrun.snoc (.request (q := false) rfl (.add (2, 12) (by decide +kernel)))).snoc
    (.request (q := false) rfl .dispatch)).snoc
    (.request (q := true) rfl (.add (3, 7) (by decide)))).snoc
    (.request (q := true) rfl .dispatch)
  have hrun := (hrun.snoc (.request (q := false) rfl .dispatch)).snoc
    (.init (q := false) true true)
  obtain ⟨lost, -, -, hall⟩ := queues_sector_fifo false hrun
  have hfifo := (hall 40).1
  refine ⟨_, _, lost, hrun, ?_, by decide +kernel, by decide +kernel, by decide +kernel, hfifo⟩
  -- the request for sector 40 has been added and is nowhere else
  rintro rfl
  have hlength := hfifo.balance.length_eq
  revert hlength
  decide +kernel

end Sisop.Sstf
