import Sisop.Foundations.Behavior
import Sisop.Sstf.Order

/-!
# Requests that wait for ever

A dispatch hands over a request nearest to the head, so a request can be passed over again
and again. It is not passed over by the requests for its own sector that come later, and
the other ones that are queued are used up in time. So a request that waits for ever
while dispatches go on is passed by requests for other sectors that are added for ever.

Two sectors are enough for that: the head stays at one of them, whose request is added
again as soon as it has been handed over, and a request for the other one never gets its
turn.

## Main definitions

* `Served` — dispatches are called again and again
* `waiting` — the number of requests that may be handed over before a given one

## Main results

* `waiting_step` — what one step does to that number
* `starved_behind_adds` — what passes a request that waits for ever
* `starvation_free_iff` — no request waits for ever exactly on a device of one sector
-/

namespace Sisop.Sstf

open Foundations Machine

variable {R : Type*} [DecidableEq R] {pos : R → ℕ} {s t : State R} {rq next : R} {e : Event R}

/-- A call of the dispatch function. -/
def Event.IsDispatch : Event R → Prop
  | .dispatched _ _ => True
  | .added _ | .merged _ _ => False

/-- The dispatch function is called again and again. -/
def Served (b : (machine pos).Behavior) : Prop := b.WeaklyFair Event.IsDispatch fun _ => True

/-- The requests that may be handed over before a queued one, if no request for another
sector is added: all that are queued before it, and those for other sectors behind it. -/
def waiting (pos : R → ℕ) (rq : R) (queue : List R) : ℕ :=
  queue.idxOf rq + (queue.drop (queue.idxOf rq + 1)).countP (pos · ≠ pos rq)

theorem waiting_append {before after : List R} (h : rq ∉ before) :
    waiting pos rq (before ++ rq :: after) =
      before.length + after.countP (pos · ≠ pos rq) := by
  have hidx : (before ++ rq :: after).idxOf rq = before.length := by
    rw [List.idxOf_append_of_notMem h, List.idxOf_cons_self, Nat.add_zero]
  have hdrop : (before ++ rq :: after).drop (before.length + 1) = after := by
    rw [List.drop_append]
    simp
  rw [waiting, hidx, hdrop]

/-- Where another request leaves the queue the wait gets shorter, unless that request is a
later one for the same sector. -/
theorem waiting_erase (pos : R → ℕ) {queue : List R} (hnodup : queue.Nodup) (hrq : rq ∈ queue)
    (hnext : next ∈ queue) (hne : next ≠ rq) : rq ∈ queue.erase next ∧
      (waiting pos rq (queue.erase next) < waiting pos rq queue ∨
        waiting pos rq (queue.erase next) = waiting pos rq queue ∧ pos next = pos rq ∧
          queue.idxOf rq < queue.idxOf next) := by
  refine ⟨(List.mem_erase_of_ne hne.symm).mpr hrq, ?_⟩
  obtain ⟨before, after, rfl, hbefore⟩ := List.eq_append_cons_of_mem hrq
  by_cases hmem : next ∈ before
  · rw [List.erase_append_left _ hmem, waiting_append fun h => hbefore (List.mem_of_mem_erase h),
      waiting_append hbefore, List.length_erase_of_mem hmem]
    have hpos := List.length_pos_of_mem hmem
    omega
  · have hafter : next ∈ after := by simpa [hmem, hne] using hnext
    have hcount : after.countP (pos · ≠ pos rq) =
        (next :: after.erase next).countP (pos · ≠ pos rq) :=
      (List.perm_cons_erase hafter).countP_eq _
    rw [List.countP_cons] at hcount
    rw [List.erase_append_right _ hmem, List.erase_cons_tail (by simpa using hne.symm),
      waiting_append hbefore, waiting_append hbefore]
    by_cases hsector : pos next = pos rq
    · refine Or.inr ⟨by simpa [hsector] using hcount.symm, hsector, ?_⟩
      rw [List.idxOf_append_of_notMem hbefore, List.idxOf_append_of_notMem hmem,
        List.idxOf_cons_self, List.idxOf_cons_ne _ hne.symm]
      omega
    · refine Or.inl ?_
      simp only [hsector, ne_eq, not_false_eq_true, decide_true, if_true] at hcount ⊢
      omega

/-- The chosen request is older than the others for its sector. -/
theorem idxOf_le_of_chosen (hchosen : shortestDistanceRequest pos s = some next)
    (hsector : pos rq = pos next) :
    s.queue.idxOf next ≤ s.queue.idxOf rq := by
  obtain ⟨before, after, hqueue, hbefore, hother⟩ := exists_eq_append_of_chosen hchosen
  rw [hqueue, List.idxOf_append_of_notMem hbefore, List.idxOf_cons_self,
    List.idxOf_append_of_notMem fun hmem => hother rq hmem hsector]
  omega

/-- What one step does to the wait of a queued request. -/
theorem waiting_step (hnodup : s.queue.Nodup) (hrq : rq ∈ s.queue)
    (hstep : (machine pos).step s e t) : rq ∉ t.queue ∨ rq ∈ t.queue ∧
      (waiting pos rq t.queue < waiting pos rq s.queue ∨ ¬ e.IsDispatch ∧
        (waiting pos rq t.queue = waiting pos rq s.queue ∨
          ∃ x, e = .added x ∧ pos x ≠ pos rq)) := by
  cases hstep with
  | add x _ =>
    refine Or.inr ⟨List.mem_append_left _ hrq, Or.inr ⟨id, ?_⟩⟩
    by_cases hx : pos x = pos rq
    · obtain ⟨before, after, hqueue, hbefore⟩ := List.eq_append_cons_of_mem hrq
      refine Or.inl ?_
      rw [sstfAddRequest, hqueue, List.append_assoc, List.cons_append, waiting_append hbefore,
        waiting_append hbefore, List.countP_append]
      simp [hx]
    · exact Or.inr ⟨x, rfl, hx⟩
  | merge _ next queued =>
    by_cases hne : next = rq
    · subst hne
      exact Or.inl hnodup.not_mem_erase
    · obtain ⟨hmem, hless | ⟨hsame, -, -⟩⟩ := waiting_erase pos hnodup hrq queued hne
      · exact Or.inr ⟨hmem, Or.inl hless⟩
      · exact Or.inr ⟨hmem, Or.inr ⟨id, Or.inl hsame⟩⟩
  | dispatch =>
    obtain ⟨next, hnext, hchosen, hdispatch⟩ := exists_dispatched pos (List.ne_nil_of_mem hrq)
    rw [hdispatch]
    by_cases hne : next = rq
    · subst hne
      exact Or.inl hnodup.not_mem_erase
    · obtain ⟨hmem, hless | ⟨-, hsector, hlater⟩⟩ := waiting_erase pos hnodup hrq hnext hne
      · exact Or.inr ⟨hmem, Or.inl hless⟩
      · have hle := idxOf_le_of_chosen hchosen hsector.symm
        omega

/-! ### What passes a request -/

theorem nodup_of_reachable (hs : (machine pos).Reachable s) : s.queue.Nodup := by
  obtain ⟨s₀, w, rfl, hrun⟩ := hs
  exact (conserved_of_run hrun).nodup

/-- A request is served or merged away if no request for another sector is added any more. -/
theorem Served.leaves {b : (machine pos).Behavior} (hserved : Served b)
    (hreach : (machine pos).Reachable (b.state 0)) {n : ℕ} (hrq : rq ∈ (b.state n).queue)
    (hadds : ∀ m x, n ≤ m → b.label m = some (.added x) → pos x = pos rq) :
    ∃ m, n ≤ m ∧ rq ∉ (b.state m).queue := by
  refine LeadsTo.of_fair (P := fun m => n ≤ m ∧ rq ∈ (b.state m).queue)
    (Q := fun m => rq ∉ (b.state m).queue) (fun m => waiting pos rq (b.state m).queue) hserved
    (fun _ _ => trivial) (fun m ⟨hm, hqueued⟩ => ?_) n ⟨le_rfl, hrq⟩
  rcases b.next_cases m with ⟨hlabel, hsame⟩ | ⟨e, hlabel, hstep⟩
  · rw [hsame]
    exact Or.inr ⟨⟨by omega, hqueued⟩, Or.inr ⟨by simp [Behavior.Takes, hlabel], rfl⟩⟩
  · have hnodup := nodup_of_reachable (b.reachable hreach m)
    rcases waiting_step hnodup hqueued hstep with
      hleft | ⟨hmem, hless | ⟨hnot, hsame | ⟨x, rfl, hx⟩⟩⟩
    · exact Or.inl hleft
    · exact Or.inr ⟨⟨by omega, hmem⟩, Or.inl hless⟩
    · refine Or.inr ⟨⟨by omega, hmem⟩, Or.inr ⟨?_, hsame⟩⟩
      rintro ⟨e', he', hdispatch⟩
      rw [hlabel] at he'
      exact hnot (Option.some.inj he' ▸ hdispatch)
    · exact absurd (hadds m x hm hlabel) hx

/-- If a request stays in the queue for ever while dispatches go on, then requests for other
sectors are added for ever. Nothing else holds it up: no requests for its own sector, no
merges, no number of requests that are queued already, and no cast of a sector. -/
theorem starved_behind_adds (b : (machine pos).Behavior)
    (hreach : (machine pos).Reachable (b.state 0)) (hserved : Served b) {n : ℕ}
    (hstays : ∀ m, n ≤ m → rq ∈ (b.state m).queue) (k : ℕ) :
    ∃ m x, k ≤ m ∧ b.label m = some (.added x) ∧ pos x ≠ pos rq := by
  by_contra hnone
  push Not at hnone
  obtain ⟨m, hm, hleft⟩ := hserved.leaves hreach (hstays (max n k) (le_max_left _ _))
    fun m x hm hlabel => hnone m x ((le_max_right _ _).trans hm) hlabel
  exact hleft (hstays m ((le_max_left _ _).trans hm))

/-! ### Two sectors -/

/-- The head is at the sector of one request and the other one is queued; then the first one
is added again. -/
def between (pos : R → ℕ) (near far : R) (n : ℕ) : State R :=
  ⟨pos near, if n % 2 = 0 then [far] else [far, near]⟩

/-- With the head at its sector, the request that has just been added is handed over. -/
theorem sstfDispatch_between {near far : R} (hnear : (pos near : ℤ) ≤ longMax)
    (hfar : (pos far : ℤ) ≤ longMax) (hne : pos near ≠ pos far) :
    sstfDispatch pos ⟨pos near, [far, near]⟩ = {
      ret := 1
      state := ⟨pos near, [far]⟩
      sorted := some near } := by
  have hrange : InRange pos ⟨pos near, [far, near]⟩ :=
    ⟨Int.natCast_nonneg _, hnear, by simpa [sector] using ⟨hfar, hnear⟩⟩
  obtain ⟨rq, hmem, hchosen, hdispatch⟩ := exists_dispatched pos (s := ⟨pos near, [far, near]⟩)
    (by simp)
  have hleast := (hrange.nearest hchosen).2 (sector pos near) ⟨near, by simp, rfl⟩
  obtain rfl : rq = near := by
    rcases List.mem_pair.mp hmem with rfl | rfl
    · -- the other one is not at the head
      simp only [sector, sub_self, abs_zero, abs_nonpos_iff, sub_eq_zero] at hleast
      exact absurd (Nat.cast_injective hleast).symm hne
    · rfl
  have hdiffers : far ≠ rq := fun heq => hne (heq ▸ rfl)
  rw [hdispatch, toLong_natCast_eq_self_iff.mpr hnear]
  simp [hdiffers]

/-- The head never leaves one of two sectors. -/
theorem exists_starving {near far : R} (hnear : (pos near : ℤ) ≤ longMax)
    (hfar : (pos far : ℤ) ≤ longMax) (hne : pos near ≠ pos far) :
    ∃ b : (machine pos).Behavior, (machine pos).Reachable (b.state 0) ∧ Served b ∧
      ∀ n, far ∈ (b.state n).queue := by
  have hdiffers : near ≠ far := fun heq => hne (heq ▸ rfl)
  have hdispatch := sstfDispatch_between hnear hfar hne
  let label : ℕ → Option (Event R) := fun n =>
    some (if n % 2 = 0 then .added near else .dispatched 1 (some near))
  have hnext : ∀ n, (machine pos).StepOrStay (between pos near far n) (label n)
      (between pos near far (n + 1)) := by
    intro n
    rcases Nat.mod_two_eq_zero_or_one n with hn | hn
    · have hadd : (machine pos).step ⟨pos near, [far]⟩ (.added near) ⟨pos near, [far, near]⟩ :=
        Step.add near (by simpa using hdiffers)
      simpa [StepOrStay, label, between, hn, Nat.add_mod] using hadd
    · have hserve : (machine pos).step ⟨pos near, [far, near]⟩ _ _ := Step.dispatch
      rw [hdispatch] at hserve
      simpa [StepOrStay, label, between, hn, Nat.add_mod] using hserve
  refine ⟨⟨between pos near far, label, hnext⟩, ?_, fun n => ⟨2 * n + 1, by omega, Or.inl ?_⟩,
    fun n => ?_⟩
  · -- the first dispatch takes the head of the queue
    have hfirst : sstfDispatch pos ⟨-1, [near, far]⟩ = {
        ret := 1
        state := ⟨pos near, [far]⟩
        sorted := some near } := by
      have hchosen : shortestDistanceRequest pos ⟨-1, [near, far]⟩ = some near := by
        simp [shortestDistanceRequest]
      rw [sstfDispatch_of_some hchosen, toLong_natCast_eq_self_iff.mpr hnear]
      simp
    have hrun := ((Machine.Run.refl (M := machine pos) sstfInitQueue).snoc
      (.add near (by simp [sstfInitQueue]))).snoc
        (.add far (by simpa [sstfInitQueue, sstfAddRequest] using hdiffers.symm))
    have hreach : (machine pos).Reachable (sstfDispatch pos ⟨-1, [near, far]⟩).state :=
      ⟨_, _, rfl, hrun.snoc .dispatch⟩
    rwa [hfirst] at hreach
  · exact ⟨_, rfl, by simp [Nat.add_mod, Event.IsDispatch]⟩
  · simp only [between]
    split_ifs <;> simp

/-- A request for sector 90 that is passed for ever by one for sector 5. -/
theorem starved_behind_adds_two_sectors :
    ∃ b : (machine (id : ℕ → ℕ)).Behavior, Served b ∧ (∀ n, 90 ∈ (b.state n).queue) ∧
      ∃ m x, 1000 ≤ m ∧ b.label m = some (.added x) ∧ x ≠ 90 := by
  obtain ⟨b, hreach, hserved, hstays⟩ := exists_starving
    (show ((id 5 : ℕ) : ℤ) ≤ longMax by decide) (show ((id 90 : ℕ) : ℤ) ≤ longMax by decide)
    (by decide)
  exact ⟨b, hserved, hstays, starved_behind_adds b hreach hserved (n := 0) (fun m _ => hstays m)
    1000⟩

/-- On a device of which every sector is a `long`, no request waits for ever, in any
behaviour in which dispatches go on, if and only if all requests are for one sector. -/
theorem starvation_free_iff (pos : R → ℕ) (hpos : ∀ rq, (pos rq : ℤ) ≤ longMax) :
    (∀ b : (machine pos).Behavior, (machine pos).Reachable (b.state 0) → Served b →
      ∀ n, ∀ rq ∈ (b.state n).queue, ∃ m, n ≤ m ∧ rq ∉ (b.state m).queue) ↔
      ∀ rq rq', pos rq = pos rq' := by
  constructor
  · intro h near far
    by_contra hne
    obtain ⟨b, hreach, hserved, hstays⟩ := exists_starving (hpos near) (hpos far) hne
    obtain ⟨m, -, hleft⟩ := h b hreach hserved 0 far (hstays 0)
    exact hleft (hstays m)
  · intro h b hreach hserved n rq hrq
    exact hserved.leaves hreach hrq fun _ x _ _ => h x rq

/-- Two requests for different sectors are enough. -/
theorem starvation_free_iff_two_requests :
    ¬ ∀ b : (machine fun rq : Fin 2 => 10 * rq.val).Behavior,
      (machine fun rq : Fin 2 => 10 * rq.val).Reachable (b.state 0) → Served b →
        ∀ n, ∀ rq ∈ (b.state n).queue, ∃ m, n ≤ m ∧ rq ∉ (b.state m).queue := by
  rw [starvation_free_iff _ (by decide)]
  exact fun h => absurd (h 0 1) (by decide)

end Sisop.Sstf
