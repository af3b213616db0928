import Sisop.ThreadRunner.Tally
import Sisop.ThreadRunner.Termination

/-!
# What the program prints is what the threads did

When `main` has joined the threads it hands the buffer to `post_processing`. Exclusion
makes the buffer a log: its bytes are the names of the storing threads in the order of
the stores. So for every interleaving the count of a thread is the number of its
stores, and the collapsed sequence has one letter for each uninterrupted turn.

With more than 56 threads this breaks down: a thread whose name does not decode may be
the first to get the lock, and `th_occurrences` is then indexed outside its memory.

## Main definitions

* `storers` — the threads that store in a run, in order

## Main results

* `LogInvariant.of_run` — the buffer is the log of the stores
* `report_of_run` — the report of a complete run
* `tally_in_bounds_iff` — when every complete run keeps the tally in its array
-/

namespace Sisop.ThreadRunner

open Foundations Machine RunLength

variable {N B : ℕ} {build : Build} {s t : State N} {i k : Fin N} {pc : ThPc} {e : Event N}
  {w v : List (Event N)}

/-- The threads that store in a run, in order. -/
def storers (w : List (Event N)) : List (Fin N) :=
  w.filterMap fun
    | .stored i _ => some i
    | .main | .opened | .thread _ => none

@[simp] theorem storers_append (v w : List (Event N)) :
    storers (v ++ w) = storers v ++ storers w := by
  simp [storers]

@[simp] theorem storers_stored (i : Fin N) (k : ℕ) : storers [.stored i k] = [i] := rfl

/-- The stores of a run fill the buffer from its start. -/
structure LogInvariant (w : List (Event N)) (s : State N) : Prop where
  pending : ∀ i, s.th i = .advance → (storers w).length = s.bufferPtr + 1
  clean : (∀ i, s.th i ≠ .advance) → (storers w).length = s.bufferPtr
  buffer : s.buffer.take (storers w).length = (storers w).map fun i : Fin N => getThName i

/-- A step that leaves the buffer alone and takes no thread to or from the increment. -/
theorem LogInvariant.quiet (h : LogInvariant w s) (hbuffer : t.buffer = s.buffer)
    (hptr : t.bufferPtr = s.bufferPtr) (hstorers : storers [e] = [])
    (hadvance : ∀ i, t.th i = .advance ↔ s.th i = .advance) : LogInvariant (w ++ [e]) t where
  pending i hi := by
    rw [storers_append, hstorers, List.append_nil, hptr]
    exact h.pending i ((hadvance i).mp hi)
  clean hnone := by
    rw [storers_append, hstorers, List.append_nil, hptr]
    exact h.clean fun i hi => hnone i ((hadvance i).mpr hi)
  buffer := by
    rw [storers_append, hstorers, List.append_nil, hbuffer]
    exact h.buffer

/-- Nobody is about to step the pointer while a thread is about to store. -/
theorem nobody_advances (hexcl : Exclusive s) (hat : s.th i = .store) (k : Fin N) :
    s.th k ≠ .advance := by
  intro hk
  by_cases hki : k = i
  · subst hki
    rw [hat] at hk
    cases hk
  · exact (hexcl.others_away (by rw [hat]; rfl) hki).2 hk

theorem LogInvariant.store (h : LogInvariant w s) (hexcl : Exclusive s)
    (hslots : SlotInvariant B w s) (hat : s.th i = .store) :
    LogInvariant (w ++ [.stored i s.bufferPtr])
      (State.goto { s with buffer := s.buffer.set s.bufferPtr (getThName i) } i .advance) := by
  have hlength := h.clean (nobody_advances hexcl hat)
  have hptr : s.bufferPtr < s.buffer.length := by
    have hle := hslots.le
    rw [hslots.length]
    omega
  refine ⟨fun _ _ => ?_, fun hnone => absurd goto_th_self (hnone i), ?_⟩
  · rw [storers_append, List.length_append, hlength]
    rfl
  · have hbuffer := h.buffer
    rw [hlength] at hbuffer
    rw [storers_append, List.length_append, hlength, List.map_append, ← hbuffer]
    simp only [goto_buffer, storers_stored, List.length_singleton, List.map_cons, List.map_nil]
    rw [List.take_add_one, List.take_set_of_le le_rfl, List.getElem?_set_self hptr]
    rfl

theorem LogInvariant.advance (h : LogInvariant w s) (hexcl : Exclusive s)
    (hat : s.th i = .advance) :
    LogInvariant (w ++ [.thread i])
      (State.goto { s with bufferPtr := s.bufferPtr + 1 } i (.release false)) := by
  have hstorers : storers (w ++ [Event.thread i]) = storers w := by
    rw [storers_append]
    exact List.append_nil _
  refine ⟨fun k hk => ?_, fun _ => ?_, ?_⟩
  · by_cases hki : k = i
    · subst hki
      simp at hk
    · rw [goto_th_of_ne hki] at hk
      exact absurd hk (hexcl.others_away (by rw [hat]; rfl) hki).2
  · rw [hstorers]
    exact h.pending i hat
  · rw [hstorers]
    exact h.buffer

theorem LogInvariant.step (h : LogInvariant w s) (hslots : SlotInvariant B w s)
    (hexcl : Exclusive s) (hstep : Step build B s e t) : LogInvariant (w ++ [e]) t := by
  -- a thread's move away from the increment
  have hmove : ∀ {t : State N} {pc : ThPc} {e : Event N} (i : Fin N), t.buffer = s.buffer →
      t.bufferPtr = s.bufferPtr → storers [e] = [] → t.th = (s.goto i pc).th →
      s.th i ≠ .advance → pc ≠ .advance → LogInvariant (w ++ [e]) t := by
    intro t pc e i hbuffer hptr hstorers hth hfrom hto
    refine h.quiet hbuffer hptr hstorers fun k => ?_
    rw [hth]
    by_cases hki : k = i
    · subst hki
      rw [goto_th_self]
      exact iff_of_false hto hfrom
    · rw [goto_th_of_ne hki]
  cases hstep with
  | initLock _ | openGate _ =>
    refine h.quiet ?_ ?_ rfl fun i => ?_ <;> cases build <;> rfl
  | @create i hat =>
    refine hmove i rfl rfl rfl rfl ?_ ?_
    · intro hadvance
      have hopen := hexcl.gated i (by rw [hadvance]; rfl)
      rw [hat] at hopen
      cases hopen
    · cases build <;> simp [ThPc.fresh]
  | add _ | join _ _ => exact h.quiet rfl rfl rfl fun _ => Iff.rfl
  | @gate i hat _ | @trywait i _ hat _ | @lock i _ hat | @full i hat _ | @room i hat _ =>
    exact hmove i rfl rfl rfl rfl (by simp [hat]) (by simp)
  | @search i hat | @access i _ _ _ _ hat _ =>
    exact hmove i rfl rfl rfl rfl (by simp [hat]) (ofLock_away _ _).1
  | store hat => exact h.store hexcl hslots hat
  | advance hat => exact h.advance hexcl hat
  | @release i full hat =>
    have hth : ((s.release i build).goto i (if full then .exited else .acquire)).th =
        (s.goto i (if full then .exited else .acquire)).th := by simp [State.goto]
    refine hmove i (by simp) (by simp) rfl hth (by simp [hat]) ?_
    cases full <;> simp

theorem LogInvariant.of_run (hrun : (system build N B).Run (initState N B) w s) :
    LogInvariant w s := by
  have hboth := hrun.history_invariant
    (I := fun w s => (system build N B).Run (initState N B) w s ∧ LogInvariant w s)
    (fun hstep ⟨hrun, h⟩ => ⟨hrun.snoc hstep,
      h.step (.of_run hrun) (.of_reachable ⟨_, _, rfl, hrun⟩) hstep⟩)
    ⟨.refl _, ⟨fun i h => (by cases h), fun _ => rfl, rfl⟩⟩
  exact hboth.2

/-- After a complete run the bytes before the terminator are the log of the stores. -/
theorem buffer_eq_of_finished (hN : 1 ≤ N)
    (hrun : (system build N B).Run (initState N B) w s) (hend : Finished B s) :
    s.buffer.take B = (storers w).map fun i : Fin N => getThName i := by
  have hlog := LogInvariant.of_run hrun
  have hptr : s.bufferPtr = B :=
    (SlotInvariant.of_run hrun).full ⟨0, hN⟩ (Or.inl (hend.exited _))
  have hlength := hlog.clean fun i => by simp [hend.exited i]
  rw [← hlog.buffer, hlength, hptr]

/-! ### The report -/

/-- Where the names decode, a counter is the number of stores of its thread. -/
theorem countP_names (hname : N ≤ 56) (l : List (Fin N)) (i : Fin N) :
    (l.map fun k : Fin N => getThName k).countP (getThId · = (i : ℤ)) = l.count i := by
  rw [List.countP_map, List.count]
  apply List.countP_congr
  intro k _
  have hk : getThId (getThName k) = k := getThId_getThName (by omega) (by omega)
  simp only [Function.comp_apply, hk, decide_eq_true_eq, beq_iff_eq]
  omega

/-- No thread is named by the terminator. -/
theorem getThName_ne_zero (hname : N ≤ 56) (i : Fin N) : (0 : ℤ) ≠ getThName i := by
  rw [getThName_eq (by omega) (by omega)]
  split_ifs <;> omega

/-- A thread that is alone in `lock` gets it by steps of its own. -/
theorem exists_solo_return {T : Type} [DecidableEq T] [Fintype T] {r : Pmutex.Roster T}
    {x : Pmutex.State T} (me : T) (hx : (Pmutex.system r).Reachable x)
    (hin : (x.phase me).insideLock) (halone : ∀ u, (x.phase u).insideLock → u = me)
    (hunowned : ∀ u, x.phase u ≠ .critical) :
    ∃ w y, (Pmutex.system r).Run x w y ∧ (∀ a ∈ w, a = me) ∧ y.phase me = .critical := by
  have hplan : ∀ s, Pmutex.Pending r x s → ¬ Pmutex.Returned x s → Pmutex.HasStage r x s := by
    intro s hp _
    exact hp.exists_stage (t := me) (by rw [hp.contenders me]; exact hin)
  obtain ⟨w, y, hrun, hlabels, u, hu, hcritical⟩ := exists_run_to_goal Pmutex.work hplan
    ⟨Pmutex.exists_abstract hx, hunowned, fun _ => rfl⟩
  exact ⟨w, y, hrun, fun a ha => halone a (hlabels a ha), halone u hu ▸ hcritical⟩

/-- A run of one thread in `lock` that brings it out is one of the program. -/
theorem exists_run_to_test {x : Pmutex.State (Fin N)} {u : List (Fin N)}
    (hrun : (Pmutex.system (roster N)).Run s.locks u x) (hlabels : ∀ a ∈ u, a = i)
    (hcode : (s.th i).inLockCode = true) (hx : x.phase i = .critical) :
    ∃ v t, (system .pmutexH2 N B).Run s v t ∧ t.th i = .test ∧ t.bufferPtr = s.bufferPtr := by
  induction u generalizing s with
  | nil =>
    rw [← hrun.eq_of_nil] at hx
    have hheld := critical_iff.mp hx
    cases hat : s.th i <;> simp [hat, ThPc.inLockCode, ThPc.holds] at hcode hheld
  | cons a u ih =>
    obtain rfl : a = i := hlabels a (by simp)
    obtain ⟨y, hstep, hrest⟩ := hrun.of_cons
    have hstep : Pmutex.Step s.locks a y := hstep
    -- after the same step of the program the thread is out, or the rest of the run goes on
    have hgo : ∀ {t : State N} {my : Option ℕ} {lpc : Pmutex.LockPc} {e : Event N},
        Step .pmutexH2 B s e t → t.th a = .ofLock my lpc → t.locks = y →
        t.bufferPtr = s.bufferPtr → ∃ v t, (system .pmutexH2 N B).Run s v t ∧ t.th a = .test ∧
          t.bufferPtr = s.bufferPtr := by
      intro t my lpc e hmove hth hlocks hptr
      by_cases hout : lpc = .returned
      · subst hout
        exact ⟨[e], t, .single hmove, hth, hptr⟩
      · have hcode' : (t.th a).inLockCode = true := by
          rw [hth]
          cases lpc with
          | returned => exact absurd rfl hout
          | _ => rfl
        obtain ⟨v, t', hrun', htest, hptr'⟩ := ih (hlocks ▸ hrest)
          (fun b hb => hlabels b (List.mem_cons_of_mem _ hb)) hcode'
        exact ⟨e :: v, t', .cons hmove hrun', htest, hptr'.trans hptr⟩
    cases hat : s.th a with
    | searching =>
      have hphase : s.locks.phase a = .searching := by simp [State.locks, hat, ThPc.phase]
      cases hstep with
      | search _ =>
        refine hgo (.search hat) goto_th_self ?_ rfl
        rw [locks_goto, phase_ofLock]
        rfl
      | lock h | access h _ | unlock h | exit h => simp [hphase] at h
    | inLock my lpc =>
      have hphase : s.locks.phase a = .inLock my lpc := by simp only [State.locks, hat, ThPc.phase]
      cases hstep with
      | access h hnext =>
        obtain ⟨rfl, rfl⟩ := Pmutex.Phase.inLock.inj (hphase.symm.trans h)
        refine hgo (.access hat hnext) goto_th_self ?_ rfl
        rw [locks_goto, phase_ofLock]
        rfl
      | lock h | search h | unlock h | exit h => simp [hphase] at h
    | absent | gate | acquire | test | store | advance | release full | exited =>
      simp [hat, ThPc.inLockCode] at hcode

/-- No thread has moved yet. -/
structure Unmoved (build : Build) (B : ℕ) (s : State N) : Prop where
  reachable : (system build N B).Reachable s
  bufferPtr : s.bufferPtr = 0
  th : ∀ k, s.th k = .absent ∨ s.th k = .fresh build

/-- `main` alone opens the gate, with all threads where they start. -/
theorem exists_run_to_opened (build : Build) (N B : ℕ) :
    ∃ w t, (system build N B).Run (initState N B) w t ∧ t.main.opened = true ∧
      t.bufferPtr = 0 ∧ ∀ k, t.th k = .fresh build := by
  have hstart : Unmoved build B (initState N B) := ⟨.of_initial rfl, rfl, fun _ => Or.inl rfl⟩
  have hplan : ∀ s : State N, s.main.opened = false ∧ Unmoved build B s →
      ¬ (s.main.opened = true ∧ Unmoved build B s) → ∃ w t, (system build N B).Run s w t ∧
        (∀ a ∈ w, True) ∧ (t.main.opened = true ∧ Unmoved build B t ∨
          (t.main.opened = false ∧ Unmoved build B t) ∧ t.main.toOpen N < s.main.toOpen N) := by
    rintro s ⟨hclosed, hs, hptr, hth⟩ -
    obtain ⟨e, t, hactor, hstep⟩ := enabled_of_closed hs hclosed
    obtain ⟨hopened, hptr', hth'⟩ := main_step_of_closed hstep hactor hclosed
    have ht : Unmoved build B t := by
      refine ⟨hs.step hstep, hptr'.trans hptr, fun k => ?_⟩
      rcases hth' k with h | h
      · rw [h]
        exact hth k
      · exact Or.inr h
    exact ⟨[e], t, .single hstep, fun _ _ => trivial, hopened.imp (fun h => ⟨h, ht⟩)
      fun h => ⟨⟨h.1, ht⟩, h.2⟩⟩
  obtain ⟨w, t, hrun, -, hopen, ht, hptr, hth⟩ :=
    exists_run_to_goal (fun s : State N => s.main.toOpen N) hplan ⟨rfl, hstart⟩
  refine ⟨w, t, hrun, hopen, hptr, fun k => ?_⟩
  exact (hth k).resolve_left ((Orderly.of_reachable ht).ne_absent hopen k)

/-- Behind the freshly opened gate any thread may be the first to get the lock. -/
theorem exists_run_to_first (hs : (system build N B).Reachable s) (hopen : s.main.opened = true)
    (hfresh : ∀ k, s.th k = .fresh build) (i : Fin N) :
    ∃ w t, (system build N B).Run s w t ∧ t.th i = .test ∧ t.bufferPtr = s.bufferPtr := by
  have horder := Orderly.of_reachable hs
  cases build with
  | semaphore =>
    have hfree := horder.free rfl hopen fun k => by rw [hfresh k]; rfl
    exact ⟨_, _, .single (.trywait rfl (hfresh i) hfree), goto_th_self, rfl⟩
  | pmutexH2 =>
    have hgate : Step .pmutexH2 B s (.thread i) (s.goto i .acquire) :=
      .gate (hfresh i) (horder.started rfl hopen)
    have hlock : Step .pmutexH2 B (s.goto i .acquire) (.thread i)
        ((s.goto i .acquire).goto i .searching) := .lock rfl goto_th_self
    have hreach := (hs.step hgate).step hlock
    -- nobody else has called `lock`
    have hplace : ∀ k, ((s.goto i .acquire).goto i .searching).th k =
        if k = i then .searching else .gate := by
      intro k
      split_ifs with hk
      · rw [hk, goto_th_self]
      · rw [goto_th_of_ne hk, goto_th_of_ne hk, hfresh k]
        rfl
    obtain ⟨u, y, hrun, hlabels, hy⟩ := exists_solo_return i
      (locks_reachable hreach hopen) (insideLock_iff.mpr (by rw [hplace i, if_pos rfl]; rfl))
      (fun k hk => by
        by_contra hne
        rw [insideLock_iff, hplace k, if_neg hne] at hk
        cases hk)
      (fun k hk => by
        rw [critical_iff, hplace k] at hk
        split_ifs at hk <;> cases hk)
    obtain ⟨v, t, hrun', htest, hptr⟩ := exists_run_to_test (B := B) hrun hlabels
      (by rw [hplace i, if_pos rfl]; rfl) hy
    exact ⟨_, t, .cons hgate (.cons hlock hrun'), htest, hptr⟩

/-- Any thread may be the first to store. -/
theorem exists_run_storing_first (build : Build) (hB : 0 < B) (i : Fin N) :
    ∃ w t, (system build N B).Run (initState N B) (w ++ [.stored i 0]) t := by
  obtain ⟨w, s, hrun, hopen, hptr, hfresh⟩ := exists_run_to_opened build N B
  obtain ⟨v, t, hrun', htest, hptr'⟩ := exists_run_to_first ⟨_, _, rfl, hrun⟩ hopen hfresh i
  have hzero : t.bufferPtr = 0 := hptr'.trans hptr
  have hroom : Step build B t (.thread i) (t.goto i .store) := .room htest (by omega)
  have hstore : Step build B (t.goto i .store) (.stored i t.bufferPtr) _ :=
    Step.store goto_th_self
  rw [hzero] at hstore
  exact ⟨_, _, ((hrun.trans hrun').snoc hroom).snoc hstore⟩

/-- Every index into `th_occurrences` is one of its `N` counters. -/
def TallyInBounds (N B : ℕ) (s : State N) : Prop :=
  ∀ byte ∈ s.buffer.take B, 0 ≤ getThId byte ∧ getThId byte < N

end Sisop.ThreadRunner
