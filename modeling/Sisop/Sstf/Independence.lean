import Sisop.Sstf.Queues

/-!
# What one queue learns of the others

The pending requests of a queue are its own, but the head position its dispatches start
from is whatever the latest operation of any queue has left in `prev_sector`. A queue
hands over its requests as if the others were not there exactly when, at each of its
dispatches, that position asks for the same request as the position the queue itself
left last.

## Main definitions

* `ofQueue`, `calls`, `handedOver` — the part of a run on one queue, what was asked of it
  and what it handed over
* `ownHead` — the head position as one queue's own operations leave it
* `Undisturbed` — the condition on the dispatches of one queue

## Main results

* `run_ofQueue` — an undisturbed queue does the same without the others
* `eq_ofQueue` — only the same operations, with the same results, hand over the same
* `independent_iff` — the exact condition
-/

namespace Sisop.Sstf

open Foundations

variable {Q R : Type*}

/-- What the block layer asks of the elevator, without the answer. -/
inductive Call (R : Type*)
  | init (eq nd : Bool)
  | add (rq : R)
  | merged (rq next : R)
  | dispatch
  | exit
  deriving DecidableEq

/-- The call behind an operation. -/
def QueueEvent.call : QueueEvent R → Call R
  | .init eq nd => .init eq nd
  | .request (.added rq) => .add rq
  | .request (.merged rq next) => .merged rq next
  | .request (.dispatched _ _) => .dispatch
  | .exit => .exit

/-- The request an operation hands over. -/
def QueueEvent.sorted : QueueEvent R → Option R
  | .request (.dispatched _ sorted) => sorted
  | .init _ _ | .request (.added _) | .request (.merged _ _) | .exit => none

/-- The head position an operation of the only queue leaves, given the one before. -/
def QueueEvent.headAfter (pos : R → ℕ) (h : ℤ) : QueueEvent R → ℤ
  | .init true true => -1
  | .request (.dispatched _ (some rq)) => toLong (pos rq)
  | .exit => -1
  | .init _ _ | .request _ => h

variable [DecidableEq Q]

/-- The part of a run on queue `a`. -/
def ofQueue (a : Q) (w : List (Q × QueueEvent R)) : List (Q × QueueEvent R) :=
  w.filter fun e => e.1 = a

/-- What is asked in a run, in order. -/
def calls (w : List (Q × QueueEvent R)) : List (Q × Call R) := w.map fun e => (e.1, e.2.call)

/-- The requests handed over by the dispatches of queue `a`, in order. -/
def handedOver (a : Q) (w : List (Q × QueueEvent R)) : List R :=
  (ofQueue a w).filterMap fun e => e.2.sorted

/-- The head position as the operations of queue `a` alone leave it. Like `prev_sector`
it is zero when the module is loaded. -/
def ownHead (pos : R → ℕ) (a : Q) (w : List (Q × QueueEvent R)) : ℤ :=
  (ofQueue a w).foldl (fun h e => e.2.headAfter pos h) 0

variable [DecidableEq R]

/-- At each dispatch of queue `a` with requests pending, `prev_sector` asks for the
request that the head position left by `a` itself asks for. -/
def Undisturbed (pos : R → ℕ) (a : Q) (w : List (Q × QueueEvent R)) : Prop :=
  ∀ v u ret sorted, w = v ++ (a, .request (.dispatched ret sorted)) :: u →
    ∀ s l, (Queues.machine Q pos).Run Queues.loaded v s → s.data a = some l → l ≠ [] →
      ∃ rq, FirstNearest pos s.prevSector l rq ∧ FirstNearest pos (ownHead pos a v) l rq

variable {pos : R → ℕ} {a : Q} {s s' t t' : Queues Q R} {e e' : QueueEvent R}
  {w w' v : List (Q × QueueEvent R)}

/-! ### The part on one queue -/

omit [DecidableEq R] in
@[simp] theorem ofQueue_nil : ofQueue a ([] : List (Q × QueueEvent R)) = [] := rfl

omit [DecidableEq R] in
@[simp] theorem ofQueue_append : ofQueue a (v ++ w) = ofQueue a v ++ ofQueue a w :=
  List.filter_append ..

omit [DecidableEq R] in
@[simp] theorem ofQueue_cons_self : ofQueue a ((a, e) :: w) = (a, e) :: ofQueue a w :=
  List.filter_cons_of_pos (by simp)

omit [DecidableEq R] in
theorem ofQueue_cons_of_ne {b : Q} (hb : b ≠ a) : ofQueue a ((b, e) :: w) = ofQueue a w :=
  List.filter_cons_of_neg (by simpa using hb)

omit [DecidableEq R] in
theorem ownHead_append_self :
    ownHead pos a (w ++ [(a, e)]) = e.headAfter pos (ownHead pos a w) := by
  simp [ownHead, ofQueue]

omit [DecidableEq R] in
theorem ownHead_append_of_ne {b : Q} (hb : b ≠ a) :
    ownHead pos a (w ++ [(b, e)]) = ownHead pos a w := by
  simp [ownHead, ofQueue, hb]

omit [DecidableEq R] in
theorem handedOver_cons_self : handedOver a ((a, e) :: w) = e.sorted.toList ++ handedOver a w := by
  rw [handedOver, ofQueue_cons_self, List.filterMap_cons, handedOver]
  cases e.sorted <;> rfl

omit [DecidableEq R] in
theorem handedOver_cons_of_ne {b : Q} (hb : b ≠ a) :
    handedOver a ((b, e) :: w) = handedOver a w := by
  rw [handedOver, ofQueue_cons_of_ne hb, handedOver]

/-! ### One operation -/

/-- The data of a queue after an operation on it, given the data before. -/
def QueueEvent.dataAfter (d : Option (List R)) : QueueEvent R → Option (List R)
  | .init true true => some []
  | .init _ _ => d
  | .request (.added rq) => d.map (· ++ [rq])
  | .request (.merged _ next) => d.map (·.erase next)
  | .request (.dispatched _ sorted) => d.map fun l => sorted.elim l l.erase
  | .exit => none

/-- Operations on other queues leave the data of a queue alone. -/
theorem Queues.Step.data_of_ne {b : Q} (hstep : Queues.Step pos s (b, e) t) (hb : b ≠ a) :
    t.data a = s.data a := by
  cases hstep with
  | init eq nd => cases eq <;> cases nd <;> simp [initQueue, put, hb.symm]
  | request => simp [put, hb.symm]
  | exit => simp [exitQueue, hb.symm]

/-- A dispatch from a list of pending requests, read off the request it chooses. -/
theorem sstfDispatch_mk (pos : R → ℕ) (h : ℤ) (l : List R) :
    (sstfDispatch pos ⟨h, l⟩).sorted = shortestDistanceRequest pos ⟨h, l⟩ ∧
      (sstfDispatch pos ⟨h, l⟩).ret =
        (shortestDistanceRequest pos ⟨h, l⟩).elim 0 (fun _ => 1) ∧
      (sstfDispatch pos ⟨h, l⟩).state.queue =
        (shortestDistanceRequest pos ⟨h, l⟩).elim l l.erase := by
  rw [sstfDispatch]
  cases shortestDistanceRequest pos ⟨h, l⟩ <;> simp

theorem Queues.Step.data_eq (hstep : Queues.Step pos s (a, e) t) :
    t.data a = e.dataAfter (s.data a) := by
  cases hstep with
  | init eq nd =>
    cases eq <;> cases nd <;> simp [initQueue, put, QueueEvent.dataAfter, sstfInitQueue]
  | @request _ l _ _ hdata hstep =>
    rw [hdata]
    cases hstep with
    | add => simp [put, QueueEvent.dataAfter, sstfAddRequest]
    | merge => simp [put, QueueEvent.dataAfter, sstfMergedRequests]
    | dispatch =>
      obtain ⟨hsorted, -, hqueue⟩ := sstfDispatch_mk pos s.prevSector l
      simp [put, QueueEvent.dataAfter, hsorted, hqueue]
  | exit => simp [exitQueue, QueueEvent.dataAfter]

theorem Queues.Step.prevSector_eq (hstep : Queues.Step pos s (a, e) t) :
    t.prevSector = e.headAfter pos s.prevSector := by
  cases hstep with
  | init eq nd => cases eq <;> cases nd <;> rfl
  | @request _ l _ _ hdata hstep =>
    cases hstep with
    | add => rfl
    | merge => rfl
    | dispatch =>
      cases hrq : shortestDistanceRequest pos ⟨s.prevSector, l⟩ with
      | none =>
        rw [sstfDispatch_of_empty (shortestDistanceRequest_eq_none_iff.mp hrq)]
        rfl
      | some rq =>
        rw [sstfDispatch_of_some hrq]
        rfl
  | exit hdata hexit =>
    rw [sstfExitQueue] at hexit
    split_ifs at hexit
    exact (Option.some.inj hexit).symm

/-- An operation can be done to the same data from another head position that asks a
dispatch for the same request. -/
theorem Queues.Step.exists_step (hstep : Queues.Step pos s (a, e) t)
    (hdata : s'.data a = s.data a)
    (hchoice : ∀ ret sorted l, e = .request (.dispatched ret sorted) → s.data a = some l →
      shortestDistanceRequest pos ⟨s'.prevSector, l⟩ =
        shortestDistanceRequest pos ⟨s.prevSector, l⟩) :
    ∃ t', Queues.Step pos s' (a, e) t' := by
  cases hstep with
  | init eq nd => exact ⟨_, .init eq nd⟩
  | @request _ l _ _ hl hstep =>
    have hl' := hdata.trans hl
    cases hstep with
    | add rq fresh => exact ⟨_, .request hl' (.add rq fresh)⟩
    | merge rq next queued => exact ⟨_, .request hl' (.merge rq next queued)⟩
    | dispatch =>
      have hsame := hchoice _ _ l rfl hl
      obtain ⟨hsorted, hret, -⟩ := sstfDispatch_mk pos s.prevSector l
      obtain ⟨hsorted', hret', -⟩ := sstfDispatch_mk pos s'.prevSector l
      rw [hsorted, hret, ← hsame, ← hret', ← hsorted']
      exact ⟨_, .request hl' .dispatch⟩
  | exit hl hexit => exact ⟨_, .exit (hdata.trans hl) hexit⟩

/-- The result of a dispatch is what its head position asks for. -/
theorem Queues.Step.sorted_eq {ret : ℤ} {sorted : Option R} {l : List R}
    (hstep : Queues.Step pos s (a, .request (.dispatched ret sorted)) t)
    (hdata : s.data a = some l) :
    sorted = shortestDistanceRequest pos ⟨s.prevSector, l⟩ ∧
      ret = sorted.elim 0 (fun _ => 1) := by
  cases hstep with
  | request hl hstep =>
    rw [hdata, Option.some.injEq] at hl
    subst hl
    cases hstep
    obtain ⟨hsorted, hret, -⟩ := sstfDispatch_mk pos s.prevSector l
    exact ⟨hsorted, by rw [hret, hsorted]⟩

omit [DecidableEq R] in
/-- Only dispatches can answer the same call differently. -/
theorem QueueEvent.eq_or_dispatched (hcall : e'.call = e.call) : e' = e ∨
    ∃ ret sorted ret' sorted', e = .request (.dispatched ret sorted) ∧
      e' = .request (.dispatched ret' sorted') := by
  rcases e with ⟨eq, nd⟩ | (rq | ⟨rq, next⟩ | ⟨ret, sorted⟩) | _ <;>
    rcases e' with ⟨eq', nd'⟩ | (rq' | ⟨rq', next'⟩ | ⟨ret', sorted'⟩) | _ <;>
    simp_all [QueueEvent.call]

/-- From the same data, the same call followed by the same requests handed over is the
same operation, and what follows hands over the same. -/
theorem Queues.Step.eq_of_call_eq {x y : List R} (hstep : Queues.Step pos s (a, e) t)
    (hstep' : Queues.Step pos s' (a, e') t') (hdata : s'.data a = s.data a)
    (hcall : e'.call = e.call)
    (hsorted : e'.sorted.toList ++ x = e.sorted.toList ++ y) : e' = e ∧ x = y := by
  rcases QueueEvent.eq_or_dispatched hcall with rfl | ⟨ret, sorted, ret', sorted', rfl, rfl⟩
  · exact ⟨rfl, List.append_cancel_left hsorted⟩
  obtain ⟨l, hl⟩ : ∃ l, s.data a = some l := by
    cases hstep with
    | request hl => exact ⟨_, hl⟩
  obtain ⟨hchoice, hret⟩ := hstep.sorted_eq hl
  obtain ⟨hchoice', hret'⟩ := hstep'.sorted_eq (hdata.trans hl)
  -- with nothing pending both answer 0, otherwise both hand over one request
  have hnone : sorted' = none ↔ sorted = none := by
    rw [hchoice, hchoice', shortestDistanceRequest_eq_none_iff,
      shortestDistanceRequest_eq_none_iff]
  simp only [QueueEvent.sorted] at hsorted
  cases sorted with
  | none =>
    obtain rfl := hnone.mpr rfl
    rw [hret, hret']
    exact ⟨rfl, hsorted⟩
  | some rq =>
    cases sorted' with
    | none => exact absurd (hnone.mp rfl) (by simp)
    | some rq' =>
      obtain ⟨rfl, htail⟩ := List.cons.inj hsorted
      rw [hret, hret']
      exact ⟨rfl, htail⟩

/-! ### Runs -/

/-- The part of a run on one queue, when it is a run, has that queue's data and the
head position the queue itself has left. -/
theorem data_eq_of_run_ofQueue (hrun : (Queues.machine Q pos).Run Queues.loaded w s)
    (hown : (Queues.machine Q pos).Run Queues.loaded (ofQueue a w) s') :
    s'.data a = s.data a ∧ s'.prevSector = ownHead pos a w := by
  refine hrun.history_invariant (I := fun w s => ∀ s',
    (Queues.machine Q pos).Run Queues.loaded (ofQueue a w) s' →
      s'.data a = s.data a ∧ s'.prevSector = ownHead pos a w) ?_ ?_ s' hown
  · rintro w s ⟨b, e⟩ t hstep ih s' hown
    by_cases hb : b = a
    · subst hb
      rw [ofQueue_append, ofQueue_cons_self] at hown
      obtain ⟨x, hown, hstep'⟩ := hown.of_append_singleton
      obtain ⟨hdata, hprev⟩ := ih x hown
      rw [hstep'.data_eq, hstep.data_eq, hdata, ownHead_append_self, ← hprev,
        hstep'.prevSector_eq]
      exact ⟨rfl, rfl⟩
    · rw [ofQueue_append, ofQueue_cons_of_ne hb] at hown
      rw [hstep.data_of_ne hb, ownHead_append_of_ne hb]
      exact ih s' (by simpa using hown)
  · intro s' hown
    obtain rfl := hown.eq_of_nil
    exact ⟨rfl, rfl⟩

theorem Undisturbed.of_append (h : Undisturbed pos a (w ++ v)) : Undisturbed pos a w := by
  rintro x u ret sorted rfl
  exact h x (u ++ v) ret sorted (by simp)

/-- An undisturbed queue does the same when the others do nothing. -/
theorem run_ofQueue (hrun : (Queues.machine Q pos).Run Queues.loaded w s)
    (hund : Undisturbed pos a w) :
    ∃ s', (Queues.machine Q pos).Run Queues.loaded (ofQueue a w) s' := by
  have hboth := hrun.history_invariant (I := fun w s =>
    (Queues.machine Q pos).Run Queues.loaded w s ∧ (Undisturbed pos a w →
      ∃ s', (Queues.machine Q pos).Run Queues.loaded (ofQueue a w) s')) ?_
    ⟨.refl _, fun _ => ⟨_, .refl _⟩⟩
  · exact hboth.2 hund
  rintro w s ⟨b, e⟩ t hstep ⟨hrun, ih⟩
  refine ⟨hrun.snoc hstep, fun hund => ?_⟩
  obtain ⟨s', hown⟩ := ih hund.of_append
  obtain ⟨hdata, hprev⟩ := data_eq_of_run_ofQueue hrun hown
  by_cases hb : b = a
  · subst hb
    have hchoice : ∀ ret sorted l, e = .request (.dispatched ret sorted) →
        s.data b = some l → shortestDistanceRequest pos ⟨s'.prevSector, l⟩ =
          shortestDistanceRequest pos ⟨s.prevSector, l⟩ := by
      rintro ret sorted l rfl hl
      -- with nothing pending no head position matters
      by_cases hempty : l = []
      · rw [shortestDistanceRequest_eq_none_iff.mpr hempty,
          shortestDistanceRequest_eq_none_iff.mpr hempty]
      · obtain ⟨rq, hglobal, hlocal⟩ := hund w [] ret sorted rfl s l hrun hl hempty
        rw [hprev, shortestDistanceRequest_eq_some_iff.mpr hlocal,
          shortestDistanceRequest_eq_some_iff.mpr hglobal]
    obtain ⟨t', hstep'⟩ := hstep.exists_step hdata hchoice
    exact ⟨t', by simpa using hown.snoc hstep'⟩
  · exact ⟨s', by simpa [ofQueue_cons_of_ne hb] using hown⟩

/-- A queue that does the same when the others do nothing is undisturbed. -/
theorem undisturbed_of_run_ofQueue (hrun : (Queues.machine Q pos).Run Queues.loaded w s)
    (hown : (Queues.machine Q pos).Run Queues.loaded (ofQueue a w) s') :
    Undisturbed pos a w := by
  rintro v u ret sorted rfl x l hv hl hne
  -- the dispatch is a step of the whole run and of the part, from the same data
  obtain ⟨x₀, hv₀, hrest⟩ := hrun.split
  obtain rfl := hv.unique Queues.machine_deterministic hv₀
  obtain ⟨y, hstep, -⟩ := hrest.of_cons
  rw [ofQueue_append, ofQueue_cons_self] at hown
  obtain ⟨x', hv', hrest'⟩ := hown.split
  obtain ⟨y', hstep', -⟩ := hrest'.of_cons
  obtain ⟨hdata, hprev⟩ := data_eq_of_run_ofQueue hv hv'
  have hglobal := (hstep.sorted_eq hl).1
  have hlocal := (hstep'.sorted_eq (hdata.trans hl)).1
  have hsome : shortestDistanceRequest pos ⟨x.prevSector, l⟩ ≠ none :=
    mt shortestDistanceRequest_eq_none_iff.mp hne
  obtain ⟨rq, hrq⟩ := Option.ne_none_iff_exists'.mp hsome
  refine ⟨rq, shortestDistanceRequest_eq_some_iff.mp hrq, ?_⟩
  rw [← shortestDistanceRequest_eq_some_iff, ← hprev, ← hlocal, hglobal, hrq]

/-- A run of the calls made on one queue that hands over the same requests is the part
of the whole run on that queue. -/
theorem eq_ofQueue (hrun : (Queues.machine Q pos).Run s w t)
    (hown : (Queues.machine Q pos).Run s' w' t') (hdata : s'.data a = s.data a)
    (hcalls : calls w' = calls (ofQueue a w)) (hsame : handedOver a w' = handedOver a w) :
    w' = ofQueue a w := by
  induction w generalizing s s' w' with
  | nil => simpa [calls, ofQueue] using hcalls
  | cons e w ih =>
    obtain ⟨b, e⟩ := e
    obtain ⟨x, hstep, hrest⟩ := hrun.of_cons
    by_cases hb : b = a
    · subst hb
      rw [ofQueue_cons_self, calls, calls, List.map_cons, List.map_eq_cons_iff] at hcalls
      obtain ⟨⟨b', e'⟩, w'', rfl, hcall, hcalls'⟩ := hcalls
      obtain ⟨rfl, hcall'⟩ := Prod.mk.inj hcall
      obtain ⟨x', hstep', hrest'⟩ := hown.of_cons
      rw [handedOver_cons_self, handedOver_cons_self] at hsame
      obtain ⟨rfl, htail⟩ := hstep.eq_of_call_eq hstep' hdata hcall' hsame
      rw [ofQueue_cons_self, ih hrest hrest' ?_ hcalls' htail]
      rw [hstep'.data_eq, hstep.data_eq, hdata]
    · rw [ofQueue_cons_of_ne hb] at hcalls ⊢
      rw [handedOver_cons_of_ne hb] at hsame
      exact ih hrest hown (hdata.trans (hstep.data_of_ne hb).symm) hcalls hsame

omit [DecidableEq R] in
theorem handedOver_ofQueue : handedOver a (ofQueue a w) = handedOver a w := by
  simp [handedOver, ofQueue]

/-- In any interleaving of any queues' operations, the run with the operations of all
other queues removed hands over the same requests of queue `a`, in the same order,
exactly when at each of its dispatches with requests pending `prev_sector` asks for the
request that the head position left by `a` itself asks for. -/
theorem independent_iff (pos : R → ℕ) (a : Q)
    (hrun : (Queues.machine Q pos).Run Queues.loaded w s) :
    (∃ w' s', (Queues.machine Q pos).Run Queues.loaded w' s' ∧
      calls w' = calls (ofQueue a w) ∧ handedOver a w' = handedOver a w) ↔
      Undisturbed pos a w := by
  constructor
  · rintro ⟨w', s', hown, hcalls, hsame⟩
    obtain rfl := eq_ofQueue hrun hown rfl hcalls hsame
    exact undisturbed_of_run_ofQueue hrun hown
  · intro hund
    obtain ⟨s', hown⟩ := run_ofQueue hrun hund
    exact ⟨_, s', hown, rfl, handedOver_ofQueue⟩

/-- Two queues that take turns: at its second dispatch queue `false` starts from the
sector 500 of queue `true` and still hands over the only request it has. -/
theorem independent_iff_two_queues :
    ∃ (w : List (Bool × QueueEvent ℕ)) (s : Queues Bool ℕ),
      (Queues.machine Bool id).Run Queues.loaded w s ∧ handedOver false w = [10, 20] ∧
      handedOver true w = [500] ∧
      ((∃ w' s', (Queues.machine Bool id).Run Queues.loaded w' s' ∧
        calls w' = calls (ofQueue false w) ∧ handedOver false w' = handedOver false w) ↔
        Undisturbed id false w) := by
  have hrun := (((((Machine.Run.refl (M := Queues.machine Bool (id : ℕ → ℕ)) Queues.loaded).snoc
    (.init (q := false) true true)).snoc (.init (q := true) true true)).snoc
    (.request (q := false) rfl (.add 10 (by decide)))).snoc
    (.request (q := false) rfl .dispatch)).snoc
    (.request (q := true) rfl (.add 500 (by decide)))
  have hrun := ((hrun.snoc (.request (q := true) rfl .dispatch)).snoc
    (.request (q := false) rfl (.add 20 (by decide +kernel)))).snoc
    (.request (q := false) rfl .dispatch)
  exact ⟨_, _, hrun, by decide +kernel, by decide +kernel, independent_iff id false hrun⟩

/-- Queue `false` dispatches 100 and has 10 and 90 pending. Alone it goes on to 90. After
queue `true` has dispatched 5 it goes on to 10. -/
theorem independence_lost :
    ∃ (w w' : List (Bool × QueueEvent ℕ)) (s s' : Queues Bool ℕ),
      (Queues.machine Bool id).Run Queues.loaded w s ∧
      (Queues.machine Bool id).Run Queues.loaded w' s' ∧
      calls w' = calls (ofQueue false w) ∧
      handedOver false w = [100, 10] ∧ handedOver false w' = [100, 90] := by
  have hboth := ((Machine.Run.refl (M := Queues.machine Bool (id : ℕ → ℕ)) Queues.loaded).snoc
    (.init (q := false) true true)).snoc (.init (q := true) true true)
  have hboth := (((hboth.snoc
    (.request (q := false) rfl (.add 100 (by decide)))).snoc
    (.request (q := false) rfl .dispatch)).snoc
    (.request (q := false) rfl (.add 10 (by decide +kernel)))).snoc
    (.request (q := false) rfl (.add 90 (by decide +kernel)))
  have hboth := ((hboth.snoc (.request (q := true) rfl (.add 5 (by decide +kernel)))).snoc
    (.request (q := true) rfl .dispatch)).snoc (.request (q := false) rfl .dispatch)
  have halone := (((((Machine.Run.refl (M := Queues.machine Bool (id : ℕ → ℕ)) Queues.loaded).snoc
    (.init (q := false) true true)).snoc
    (.request (q := false) rfl (.add 100 (by decide)))).snoc
    (.request (q := false) rfl .dispatch)).snoc
    (.request (q := false) rfl (.add 10 (by decide +kernel)))).snoc
    (.request (q := false) rfl (.add 90 (by decide +kernel)))
  have halone := halone.snoc (.request (q := false) rfl .dispatch)
  exact ⟨_, _, _, _, hboth, halone, by decide +kernel, by decide +kernel, by decide +kernel⟩

end Sisop.Sstf
