import Sisop.ThreadRunner.Exclusion

/-!
# Every buffer slot is filled exactly once

The stores of a run are read off its events. Exclusion makes the test of
`buffer_ptr`, the store and the increment one undisturbed sequence, so at any moment
the slots below `buffer_ptr` have been stored to once each, the slot at `buffer_ptr`
at most once, by the thread about to step past it, and the rest never. The last byte
of the buffer, which ends the string, is where the test stops every thread.
-/

namespace Sisop.ThreadRunner

open Foundations

variable {N B : ℕ} {build : Build} {s t : State N} {i : Fin N} {pc : ThPc} {e : Event N}
  {w : List (Event N)} {k : ℕ}

/-- The threads that have stored to offset `k`, in order. -/
def storesAt (k : ℕ) (w : List (Event N)) : List (Fin N) :=
  w.filterMap fun
    | .stored i offset => if offset = k then some i else none
    | .main | .opened | .thread _ => none

theorem storesAt_append (k : ℕ) (v w : List (Event N)) :
    storesAt k (v ++ w) = storesAt k v ++ storesAt k w := by
  simp [storesAt]

theorem storesAt_stored_self (i : Fin N) (k : ℕ) : storesAt k [.stored i k] = [i] := by
  simp [storesAt]

theorem storesAt_stored_of_ne (i : Fin N) {k l : ℕ} (h : l ≠ k) :
    storesAt k [.stored i l] = [] := by
  simp [storesAt, h]

/-- The buffer and the stores of a run that has come to a state. -/
structure SlotInvariant (B : ℕ) (w : List (Event N)) (s : State N) : Prop where
  length : s.buffer.length = B + 1
  le : s.bufferPtr ≤ B
  room : ∀ i, s.th i = .store ∨ s.th i = .advance → s.bufferPtr ≠ B
  below : ∀ k < s.bufferPtr, ∃ i : Fin N,
    storesAt k w = [i] ∧ s.buffer[k]? = some (getThName i)
  pending : ∀ i, s.th i = .advance →
    storesAt s.bufferPtr w = [i] ∧ s.buffer[s.bufferPtr]? = some (getThName i)
  clean : (∀ i, s.th i ≠ .advance) →
    storesAt s.bufferPtr w = [] ∧ s.buffer[s.bufferPtr]? = some 0
  above : ∀ k, s.bufferPtr < k → storesAt k w = [] ∧ (k ≤ B → s.buffer[k]? = some 0)
  full : ∀ i, s.th i = .exited ∨ s.th i = .release true → s.bufferPtr = B
  opened : s.main.opened = true → .opened ∈ w
  gated : ∀ v u i k, w = v ++ .stored i k :: u → .opened ∈ v

/-- The stores of a run stay behind the gate when a step that is no store, or a store
behind the open gate, is added. -/
theorem gated_snoc (hgated : ∀ v u i k, w = v ++ .stored i k :: u → .opened ∈ v)
    (hlast : ∀ i k, e = .stored i k → .opened ∈ w) :
    ∀ v u i k, w ++ [e] = v ++ .stored i k :: u → .opened ∈ v := by
  intro v u i k hsplit
  -- the store is the last step or one of those before
  rcases List.eq_nil_or_concat u with rfl | ⟨u, a, rfl⟩
  · obtain ⟨rfl, hend⟩ := List.append_inj' hsplit rfl
    exact hlast i k (List.singleton_inj.mp hend)
  · rw [List.concat_eq_append, ← List.cons_append, ← List.append_assoc] at hsplit
    exact hgated v u i k (List.append_inj' hsplit rfl).1

/-- A step that leaves buffer and `buffer_ptr` alone and takes no thread to or from
the increment keeps the invariant. -/
theorem SlotInvariant.quiet (hinv : SlotInvariant B w s) (hbuffer : t.buffer = s.buffer)
    (hptr : t.bufferPtr = s.bufferPtr) (hevent : ∀ i k, e ≠ .stored i k)
    (hadvance : ∀ i, t.th i = .advance ↔ s.th i = .advance)
    (hstore : ∀ i, t.th i = .store → s.th i = .store ∨ s.bufferPtr ≠ B)
    (hfull : ∀ i, t.th i = .exited ∨ t.th i = .release true →
      (s.th i = .exited ∨ s.th i = .release true) ∨ s.bufferPtr = B)
    (hopened : t.main.opened = true → s.main.opened = true ∨ e = .opened) :
    SlotInvariant B (w ++ [e]) t := by
  have hstores : ∀ k, storesAt k (w ++ [e]) = storesAt k w := by
    intro k
    rw [storesAt_append]
    cases e with
    | stored i l => exact absurd rfl (hevent i l)
    | main | opened | thread _ => exact List.append_nil _
  refine ⟨?_, ?_, ?_, ?_, ?_, ?_, ?_, ?_, ?_, ?_⟩
  · rw [hbuffer]
    exact hinv.length
  · rw [hptr]
    exact hinv.le
  · intro i hi
    rw [hptr]
    rcases hi with hi | hi
    · exact (hstore i hi).elim (fun h => hinv.room i (Or.inl h)) id
    · exact hinv.room i (Or.inr ((hadvance i).mp hi))
  · rw [hbuffer, hptr]
    simpa only [hstores] using hinv.below
  · rw [hbuffer, hptr]
    simpa only [hstores, hadvance] using hinv.pending
  · rw [hbuffer, hptr]
    simpa only [hstores, ne_eq, hadvance] using hinv.clean
  · rw [hbuffer, hptr]
    simpa only [hstores] using hinv.above
  · intro i hi
    rw [hptr]
    exact (hfull i hi).elim (hinv.full i) id
  · intro h
    rcases hopened h with h | rfl
    · exact List.mem_append_left _ (hinv.opened h)
    · simp
  · exact gated_snoc hinv.gated fun i k h => absurd h (hevent i k)

/-- A thread's move away from the buffer keeps the invariant. -/
theorem SlotInvariant.move (hinv : SlotInvariant B w s) (i : Fin N) (pc : ThPc)
    (hbuffer : t.buffer = s.buffer) (hptr : t.bufferPtr = s.bufferPtr)
    (hevent : ∀ i k, e ≠ .stored i k)
    (hmain : t.main.opened = s.main.opened) (hth : t.th = (s.goto i pc).th)
    (hfrom : s.th i ≠ .advance) (hto : pc ≠ .advance) (hstore : pc = .store → s.bufferPtr ≠ B)
    (hfull : pc = .exited ∨ pc = .release true → s.bufferPtr = B) :
    SlotInvariant B (w ++ [e]) t := by
  have hcases : ∀ k, k = i ∧ t.th k = pc ∨ t.th k = s.th k := by
    intro k
    rw [hth]
    by_cases hk : k = i
    · subst hk
      exact Or.inl ⟨rfl, goto_th_self⟩
    · exact Or.inr (goto_th_of_ne hk)
  refine hinv.quiet hbuffer hptr hevent ?_ ?_ ?_ fun h => Or.inl (hmain ▸ h)
  · intro k
    rcases hcases k with ⟨rfl, hk⟩ | hk
    · rw [hk]
      exact iff_of_false hto hfrom
    · rw [hk]
  · intro k h
    rcases hcases k with ⟨rfl, hk⟩ | hk
    · exact Or.inr (hstore (hk ▸ h))
    · exact Or.inl (hk ▸ h)
  · intro k h
    rcases hcases k with ⟨rfl, hk⟩ | hk
    · exact Or.inr (hfull (hk ▸ h))
    · exact Or.inl (hk ▸ h)

/-- The store of thread `i` fills the slot at `buffer_ptr`. -/
theorem SlotInvariant.store (hinv : SlotInvariant B w s) (hexcl : Exclusive s)
    (hat : s.th i = .store) :
    SlotInvariant B (w ++ [.stored i s.bufferPtr])
      (State.goto { s with buffer := s.buffer.set s.bufferPtr (getThName i) } i .advance) := by
  have hholds : (s.th i).holds := by rw [hat]; rfl
  have hptr : s.bufferPtr < s.buffer.length := by
    have := hinv.le
    rw [hinv.length]
    omega
  -- the storing thread holds the lock, so no other thread is about to step the pointer
  have hnone : ∀ k, s.th k ≠ .advance := by
    intro k hk
    by_cases hki : k = i
    · subst hki
      rw [hat] at hk
      cases hk
    · exact (hexcl.others_away hholds hki).2 hk
  have hclean := hinv.clean hnone
  refine ⟨?_, hinv.le, ?_, ?_, ?_, ?_, ?_, ?_, ?_, ?_⟩
  · simpa using hinv.length
  · intro _ _
    exact hinv.room i (Or.inl hat)
  · intro k hk
    rw [goto_bufferPtr] at hk
    change k < s.bufferPtr at hk
    obtain ⟨j, hstores, hbyte⟩ := hinv.below k hk
    refine ⟨j, ?_, ?_⟩
    · rw [storesAt_append, hstores, storesAt_stored_of_ne _ hk.ne']
      rfl
    · exact (List.getElem?_set_ne hk.ne').trans hbyte
  · intro k hk
    by_cases hki : k = i
    · subst hki
      rw [goto_bufferPtr, storesAt_append, hclean.1, storesAt_stored_self]
      exact ⟨rfl, by simp [hptr]⟩
    · rw [goto_th_of_ne hki] at hk
      exact absurd hk (hnone k)
  · intro h
    exact absurd goto_th_self (h i)
  · intro k hk
    obtain ⟨hstores, hbyte⟩ := hinv.above k hk
    rw [goto_bufferPtr] at hk
    change s.bufferPtr < k at hk
    refine ⟨?_, fun hB => (List.getElem?_set_ne hk.ne).trans (hbyte hB)⟩
    rw [storesAt_append, hstores, storesAt_stored_of_ne _ hk.ne]
    rfl
  · intro k hk
    by_cases hki : k = i
    · subst hki
      simp at hk
    · rw [goto_th_of_ne hki] at hk
      exact hinv.full k hk
  · intro h
    exact List.mem_append_left _ (hinv.opened h)
  · exact gated_snoc hinv.gated fun _ _ _ => hinv.opened (hexcl.gated i hholds)

/-- The increment of thread `i` steps past the slot it has stored to. -/
theorem SlotInvariant.advance (hinv : SlotInvariant B w s) (hexcl : Exclusive s)
    (hat : s.th i = .advance) :
    SlotInvariant B (w ++ [.thread i])
      (State.goto { s with bufferPtr := s.bufferPtr + 1 } i (.release false)) := by
  have hholds : (s.th i).holds := by rw [hat]; rfl
  have hroom := hinv.room i (Or.inr hat)
  have hle := hinv.le
  have hstores : ∀ k, storesAt k (w ++ [.thread i]) = storesAt k w := by
    intro k
    rw [storesAt_append]
    exact List.append_nil _
  have hnext := hinv.above (s.bufferPtr + 1) (Nat.lt_succ_self _)
  -- nobody is about to store or to step the pointer afterwards
  have hnone : ∀ k, (State.goto { s with bufferPtr := s.bufferPtr + 1 } i
      (.release false)).th k ≠ .store ∧ (State.goto { s with bufferPtr := s.bufferPtr + 1 } i
      (.release false)).th k ≠ .advance := by
    intro k
    by_cases hki : k = i
    · subst hki
      rw [goto_th_self]
      exact ⟨by simp, by simp⟩
    · rw [goto_th_of_ne hki]
      exact hexcl.others_away hholds hki
  refine ⟨hinv.length, ?_, ?_, ?_, ?_, ?_, ?_, ?_, ?_, ?_⟩
  · rw [goto_bufferPtr]
    change s.bufferPtr + 1 ≤ B
    omega
  · intro k hk
    rcases hk with hk | hk
    · exact absurd hk (hnone k).1
    · exact absurd hk (hnone k).2
  · intro k hk
    rw [hstores]
    rcases Nat.lt_succ_iff_lt_or_eq.mp hk with hk | rfl
    · exact hinv.below k hk
    · -- the slot stepped past is the one the thread has stored to
      exact ⟨i, hinv.pending i hat⟩
  · intro k hk
    exact absurd hk (hnone k).2
  · intro _
    rw [hstores]
    exact ⟨hnext.1, hnext.2 (by omega)⟩
  · intro k hk
    rw [hstores]
    exact hinv.above k (Nat.lt_of_succ_lt hk)
  · intro k hk
    by_cases hki : k = i
    · subst hki
      simp at hk
    · rw [goto_th_of_ne hki] at hk
      exact absurd (hinv.full k hk) hroom
  · intro h
    exact List.mem_append_left _ (hinv.opened h)
  · exact gated_snoc hinv.gated fun _ _ h => by cases h

/-- A call of `lock` leaves a thread away from the buffer. -/
theorem ofLock_away (my : Option ℕ) (pc : Pmutex.LockPc) :
    ThPc.ofLock my pc ≠ .advance ∧ ThPc.ofLock my pc ≠ .store ∧
      ¬ (ThPc.ofLock my pc = .exited ∨ ThPc.ofLock my pc = .release true) := by
  cases pc <;> simp [ThPc.ofLock]

theorem SlotInvariant.step (hinv : SlotInvariant B w s) (hexcl : Exclusive s)
    (hstep : Step build B s e t) : SlotInvariant B (w ++ [e]) t := by
  have hmain : ∀ {t : State N} {e : Event N}, t.buffer = s.buffer → t.bufferPtr = s.bufferPtr →
      t.th = s.th → (∀ i k, e ≠ .stored i k) →
      (t.main.opened = true → s.main.opened = true ∨ e = .opened) →
      SlotInvariant B (w ++ [e]) t := by
    intro t e hbuffer hptr hth hevent hopened
    refine hinv.quiet hbuffer hptr hevent ?_ ?_ ?_ hopened <;> intro i <;> rw [hth]
    · exact Or.inl
    · exact Or.inl
  cases hstep with
  | initLock hat =>
    refine hmain ?_ ?_ ?_ (by simp) fun h => ?_
    · cases build <;> rfl
    · cases build <;> rfl
    · cases build <;> rfl
    · rw [opened_forCreate] at h
      cases h
  | @create i hat =>
    -- the gate is closed, so nobody is about to step the pointer
    have hfrom : s.th i ≠ .advance := by
      intro h
      have hopen := hexcl.gated i (by rw [h]; rfl)
      rw [hat] at hopen
      cases hopen
    refine hinv.move i (.fresh build) rfl rfl (by simp) ?_ rfl hfrom ?_ ?_ ?_
    · rw [hat]
      exact opened_afterCreate _
    all_goals cases build <;> simp [ThPc.fresh]
  | add hat =>
    refine hmain rfl rfl rfl (by simp) fun h => ?_
    rw [opened_forCreate] at h
    cases h
  | openGate hat =>
    refine hmain ?_ ?_ ?_ (by simp) fun _ => Or.inr rfl <;> cases build <;> rfl
  | join hat _ => exact hmain rfl rfl rfl (by simp) fun _ => Or.inl (by rw [hat]; rfl)
  | gate hat _ | trywait _ hat _ | lock _ hat =>
    exact hinv.move _ _ rfl rfl (by simp) rfl rfl (by simp [hat]) (by simp) (by simp) (by simp)
  | search hat | access hat _ =>
    have haway := ofLock_away
    exact hinv.move _ _ rfl rfl (by simp) rfl rfl (by simp [hat]) (haway _ _).1
      (fun h => absurd h (haway _ _).2.1) fun h => absurd h (haway _ _).2.2
  | full hat hlast =>
    exact hinv.move _ _ rfl rfl (by simp) rfl rfl (by simp [hat]) (by simp) (by simp) fun _ => hlast
  | room hat hmore =>
    exact hinv.move _ _ rfl rfl (by simp) rfl rfl (by simp [hat]) (by simp) (fun _ => hmore)
      (by simp)
  | store hat => exact hinv.store hexcl hat
  | advance hat => exact hinv.advance hexcl hat
  | @release i full hat =>
    refine hinv.move i (if full then .exited else .acquire) (by simp) (by simp)
      (by simp) (by simp) (by simp [State.goto]) (by simp [hat]) ?_ ?_ ?_
    · cases full <;> simp
    · cases full <;> simp
    · intro hpc
      cases full with
      | false => simp at hpc
      | true => exact hinv.full i (Or.inr hat)

theorem SlotInvariant.init : SlotInvariant B [] (initState N B) where
  length := by simp [initState]
  le := Nat.zero_le B
  room i h := by rcases h with h | h <;> cases h
  below k h := absurd h (Nat.not_lt_zero k)
  pending i h := by cases h
  clean _ := ⟨rfl, by simp [initState]⟩
  above k _ := ⟨rfl, fun hk => by simp [initState, Nat.lt_succ_of_le hk]⟩
  full i h := by rcases h with h | h <;> cases h
  opened h := by cases h
  gated v u i k h := by simp at h

theorem SlotInvariant.of_run (hrun : (system build N B).Run (initState N B) w s) :
    SlotInvariant B w s := by
  have hboth := hrun.history_invariant
    (I := fun w s => (system build N B).Reachable s ∧ SlotInvariant B w s)
    (fun hstep ⟨hs, hinv⟩ => ⟨hs.step hstep, hinv.step (.of_reachable hs) hstep⟩)
    ⟨.of_initial rfl, .init⟩
  exact hboth.2

/-- Every buffer slot is filled exactly once: in both builds, for every number of
threads and size of the buffer, at every moment of every interleaving. -/
theorem buffer_slots_filled_once (build : Build) {N : ℕ} (hN : 1 ≤ N) (B : ℕ)
    {w : List (Event N)} {s : State N} (hrun : (system build N B).Run (initState N B) w s) :
    s.bufferPtr ≤ B ∧
    (∀ k < s.bufferPtr, ∃ i : Fin N,
      storesAt k w = [i] ∧ s.buffer[k]? = some (getThName i)) ∧
    (∀ k, s.bufferPtr ≤ k → k ≤ B → storesAt k w = [] ∧ s.buffer[k]? = some 0 ∨
      k = s.bufferPtr ∧ ∃ i : Fin N, s.th i = .advance ∧
        storesAt k w = [i] ∧ s.buffer[k]? = some (getThName i)) ∧
    (∀ k, B ≤ k → storesAt k w = []) ∧
    (∀ v u i k, w = v ++ .stored i k :: u → .opened ∈ v) ∧
    ((∀ i, s.th i = .exited) → s.bufferPtr = B) := by
  have hinv := SlotInvariant.of_run hrun
  refine ⟨hinv.le, hinv.below, ?_, ?_, hinv.gated, fun h => hinv.full ⟨0, hN⟩ (Or.inl (h _))⟩
  · intro k hk hB
    rcases hk.eq_or_lt with rfl | hk
    · by_cases hpending : ∃ i, s.th i = .advance
      · obtain ⟨i, hi⟩ := hpending
        exact Or.inr ⟨rfl, i, hi, hinv.pending i hi⟩
      · exact Or.inl (hinv.clean (not_exists.mp hpending))
    · obtain ⟨hstores, hbyte⟩ := hinv.above k hk
      exact Or.inl ⟨hstores, hbyte hB⟩
  · intro k hk
    rcases (hinv.le.trans hk).eq_or_lt with hptr | hlt
    · rw [← hptr]
      refine (hinv.clean fun i hi => hinv.room i (Or.inr hi) ?_).1
      exact le_antisymm hinv.le (hk.trans hptr.ge)
    · exact (hinv.above k hlt).1

/-- Two threads of the `PMUTEX_H2` build over a buffer of one byte, with thread 1 having
stored its name and not yet stepped past it. -/
theorem buffer_slots_filled_once_two_threads :
    ∃ w s, (system .pmutexH2 2 1).Run (initState 2 1) w s ∧ s.th 1 = .advance ∧
      s.bufferPtr ≤ 1 ∧ storesAt 0 w = [1] ∧ storesAt 1 w = [] ∧ s.buffer = [66, 0] := by
  have hopen := ((((((Machine.Run.refl (M := system .pmutexH2 2 1) (initState 2 1)).snoc
    (.initLock rfl)).snoc (.create (i := 0) rfl)).snoc (.add (i := 0) rfl)).snoc
    (.create (i := 1) rfl)).snoc (.add (i := 1) rfl)).snoc (.openGate rfl)
  have hlock := (((((hopen.snoc (.gate (i := 1) rfl rfl)).snoc (.lock (i := 1) rfl rfl)).snoc
    (.search (i := 1) rfl)).snoc (.access (i := 1) rfl rfl)).snoc (.access (i := 1) rfl rfl)).snoc
    (.access (i := 1) rfl rfl)
  have hscan := (((hlock.snoc (.access (i := 1) rfl rfl)).snoc (.access (i := 1) rfl rfl)).snoc
    (.access (i := 1) rfl rfl)).snoc (.access (i := 1) rfl rfl)
  have hstore := (hscan.snoc (.room (i := 1) rfl (by decide))).snoc (.store (i := 1) rfl)
  have hslots := buffer_slots_filled_once .pmutexH2 (by decide) 1 hstore
  exact ⟨_, _, hstore, rfl, hslots.1, rfl, hslots.2.2.2.1 1 le_rfl, by decide +kernel⟩

end Sisop.ThreadRunner
