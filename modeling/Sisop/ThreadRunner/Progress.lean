import Sisop.Foundations.Behavior
import Sisop.ThreadRunner.Slots

/-!
# What `main` and the threads have still to do

Behind the open gate a thread either waits for the lock, works on the buffer or has
exited, and what is left to do for all of them is a number: the empty slots of the
buffer and the threads that have not exited. No step raises it. The step of
`buffer_ptr` lowers it, and so does the exit of a thread.

## Main definitions

* `Fair` — `main` and every thread go on as long as they can
* `left` — what is left to do

## Main results

* `Orderly.of_reachable` — threads are created, let loose and joined in order
* `left_step` — the steps that leave less to do, and that no step leaves more
-/

namespace Sisop.ThreadRunner

open Foundations Machine

variable {N B : ℕ} {build : Build} {s t : State N} {i k : Fin N} {pc : ThPc} {e : Event N}

/-- The thread that takes a step; `none` is `main`. -/
def Event.actor : Event N → Option (Fin N)
  | .main | .opened => none
  | .thread i | .stored i _ => some i

/-- Neither `main` nor a thread is held up for ever while it could go on. -/
def Fair (b : (system build N B).Behavior) : Prop :=
  ∀ a, b.WeaklyFair (fun e => e.actor = a) ((system build N B).Enabled fun e => e.actor = a)

/-- Fair behaviours start in every state. -/
theorem exists_fair (build : Build) (B : ℕ) (s : State N) :
    ∃ b : (system build N B).Behavior, b.state 0 = s ∧ Fair b :=
  (system build N B).exists_fair_behavior (fun a e => e.actor = a) s

/-! ### The order of things -/

/-- How many threads `main` has created. -/
def MainPc.created (N : ℕ) : MainPc → ℕ
  | .start => 0
  | .create i => i
  | .add i => i + 1
  | .openGate | .join _ => N

/-- How many threads `main` has joined. -/
def MainPc.joined : MainPc → ℕ
  | .join i => i
  | .start | .create _ | .add _ | .openGate => 0

/-- The index of the thread that `main` is at is one of a thread. -/
def MainPc.InRange (N : ℕ) : MainPc → Prop
  | .create i | .add i => i < N
  | .join i => i ≤ N
  | .start | .openGate => True

theorem inRange_forCreate (n : ℕ) : (forCreate N n).InRange N := by
  unfold forCreate
  split_ifs with h
  · exact h
  · trivial

theorem created_forCreate {n : ℕ} (h : n ≤ N) : (forCreate N n).created N = n := by
  unfold forCreate
  split_ifs with hlt
  · rfl
  · exact le_antisymm (not_lt.mp hlt) h

/-- Threads are created, let loose and joined in order, and behind the open gate the
semaphore is free while nobody holds the lock. -/
structure Orderly (build : Build) (s : State N) : Prop where
  range : s.main.InRange N
  created : ∀ i : Fin N, s.th i = .absent ↔ s.main.created N ≤ i
  joined : ∀ i : Fin N, i.val < s.main.joined → s.th i = .exited
  started : build = .pmutexH2 → s.main.opened = true → s.startThs = true
  free : build = .semaphore → s.main.opened = true → (∀ i, (s.th i).holds = false) → 0 < s.sem
  plain : build = .semaphore → ∀ i, s.th i ≠ .gate

/-- A thread's move keeps the order when the semaphore is free afterwards if it is free. -/
theorem Orderly.move (h : Orderly build s) (hmain : t.main = s.main)
    (hstart : t.startThs = s.startThs) (hth : t.th = (s.goto i pc).th)
    (hfrom : s.th i ≠ .absent ∧ s.th i ≠ .exited) (hto : pc ≠ .absent ∧ pc ≠ .gate)
    (hfree : build = .semaphore → pc.holds = false → s.sem ≤ t.sem ∧ (s.th i).holds = false ∨
      0 < t.sem) : Orderly build t where
  range := hmain ▸ h.range
  created := by
    intro k
    rw [hmain, hth, ← h.created k]
    by_cases hki : k = i
    · subst hki
      rw [goto_th_self]
      exact iff_of_false hto.1 hfrom.1
    · rw [goto_th_of_ne hki]
  joined := by
    intro k hk
    rw [hmain] at hk
    rw [hth]
    have hki : k ≠ i := by
      rintro rfl
      exact hfrom.2 (h.joined k hk)
    rw [goto_th_of_ne hki]
    exact h.joined k hk
  started := by
    rw [hmain, hstart]
    exact h.started
  free := by
    intro hbuild hopen hnone
    rw [hmain] at hopen
    have hpc : pc.holds = false := by
      have := hnone i
      rwa [hth, goto_th_self] at this
    rcases hfree hbuild hpc with ⟨hle, hi⟩ | hpos
    · refine (h.free hbuild hopen fun k => ?_).trans_le hle
      by_cases hki : k = i
      · exact hki ▸ hi
      · have := hnone k
        rwa [hth, goto_th_of_ne hki] at this
    · exact hpos
  plain := by
    intro hbuild
    rw [hth]
    exact forall_goto_th (I := fun pc => pc ≠ .gate) hto.2 (h.plain hbuild)

/-- Before the gate opens the order is that of the creation. -/
theorem Orderly.of_closed (hclosed : t.main.opened = false) (hrange : t.main.InRange N)
    (hcreated : ∀ i : Fin N, t.th i = .absent ↔ t.main.created N ≤ i)
    (hplain : build = .semaphore → ∀ i, t.th i ≠ .gate) : Orderly build t where
  range := hrange
  created := hcreated
  joined := by
    intro i hi
    cases hmain : t.main with
    | join k => simp [hmain, MainPc.opened] at hclosed
    | start | create k | add k | openGate => simp [hmain, MainPc.joined] at hi
  started _ hopen := by simp [hclosed] at hopen
  free _ hopen := by simp [hclosed] at hopen
  plain := hplain

theorem Orderly.step (h : Orderly build s) (hstep : Step build B s e t) : Orderly build t := by
  cases hstep with
  | initLock hat =>
    have hth : ∀ i, (s.initLock build).th i = s.th i := by cases build <;> exact fun _ => rfl
    refine .of_closed (opened_forCreate 0) (inRange_forCreate 0) (fun i => ?_) ?_
    · rw [created_forCreate (Nat.zero_le N)]
      simp only [hth, h.created i, hat]
      rfl
    · simp only [hth]
      exact h.plain
  | @create i hat =>
    have hafter : (afterCreate N i build).created N = i + 1 ∧
        (afterCreate N i build).InRange N := by
      cases build
      · exact ⟨created_forCreate i.isLt, inRange_forCreate _⟩
      · exact ⟨rfl, i.isLt⟩
    refine .of_closed (opened_afterCreate _) hafter.2 (fun k => ?_) ?_
    · rw [goto_main, hafter.1]
      by_cases hki : k = i
      · subst hki
        rw [goto_th_self]
        refine iff_of_false ?_ (by omega)
        cases build <;> simp [ThPc.fresh]
      · rw [goto_th_of_ne hki]
        have hne : k.val ≠ i.val := fun heq => hki (Fin.ext heq)
        have hk := h.created k
        rw [hat, MainPc.created] at hk
        exact hk.trans (by omega)
    · rintro rfl
      exact forall_goto_th (I := fun pc => pc ≠ .gate) (by simp [ThPc.fresh]) (h.plain rfl)
  | @add i hat =>
    refine .of_closed (opened_forCreate _) (inRange_forCreate _) (fun k => ?_) h.plain
    rw [created_forCreate i.isLt]
    have hk := h.created k
    rwa [hat] at hk
  | openGate hat =>
    have hth : (s.openGate build).th = s.th := by cases build <;> rfl
    refine ⟨Nat.zero_le N, fun i => ?_, fun i hi => absurd hi (Nat.not_lt_zero _), ?_, ?_, ?_⟩
    · have hi := h.created i
      rw [hat] at hi
      simp only [hth]
      exact hi
    · rintro rfl -
      rfl
    · rintro rfl - -
      exact Nat.succ_pos _
    · simp only [hth]
      exact h.plain
  | @join i hat hgone =>
    refine ⟨i.isLt, fun k => ?_, ?_, ?_, ?_, h.plain⟩
    · have hk := h.created k
      rwa [hat] at hk
    · intro k hk
      rcases Nat.lt_succ_iff_lt_or_eq.mp hk with hlt | heq
      · exact h.joined k (by rwa [hat])
      · rwa [Fin.ext heq]
    · exact fun hbuild _ => h.started hbuild (by rw [hat]; rfl)
    · exact fun hbuild _ => h.free hbuild (by rw [hat]; rfl)
  | gate hat _ | lock _ hat =>
    exact h.move rfl rfl rfl (by simp [hat]) (by simp) fun _ _ =>
      Or.inl ⟨le_rfl, by rw [hat]; rfl⟩
  | search hat | access hat _ =>
    -- a thread that comes out of `lock` holds it
    refine h.move rfl rfl rfl (by simp [hat]) ?_ fun _ _ => Or.inl ⟨le_rfl, by rw [hat]; rfl⟩
    unfold ThPc.ofLock
    split <;> simp
  | trywait _ hat _ | full hat _ | room hat _ | store hat | advance hat =>
    exact h.move rfl rfl rfl (by simp [hat]) (by simp) fun _ hpc => by cases hpc
  | @release i full hat =>
    have hth : ((s.release i build).goto i (if full then .exited else .acquire)).th =
        (s.goto i (if full then .exited else .acquire)).th := by simp [State.goto]
    refine h.move release_main ?_ hth (by simp [hat]) ?_ ?_
    · cases build <;> rfl
    · cases full <;> simp
    · rintro rfl -
      exact Or.inr (Nat.succ_pos _)

theorem Orderly.init : Orderly build (initState N B) where
  range := trivial
  created _ := iff_of_true rfl (Nat.zero_le _)
  joined _ h := absurd h (Nat.not_lt_zero _)
  started _ h := by cases h
  free _ h := by cases h
  plain _ _ h := by cases h

theorem Orderly.of_reachable (hs : (system build N B).Reachable s) : Orderly build s :=
  hs.invariant (fun h => by rw [h]; exact .init) fun hstep h => h.step hstep

/-- Behind the open gate every thread has been created. -/
theorem Orderly.ne_absent (h : Orderly build s) (hopen : s.main.opened = true) (i : Fin N) :
    s.th i ≠ .absent := by
  intro hat
  have habsent := (h.created i).mp hat
  cases hmain : s.main with
  | join j =>
    rw [hmain, MainPc.created] at habsent
    exact absurd i.isLt (not_lt.mpr habsent)
  | start | create j | add j | openGate => simp [hmain, MainPc.opened] at hopen

/-! ### What is left to do -/

/-- What is left to do: the empty slots and the threads that have not exited. -/
def left (B : ℕ) (s : State N) : ℕ :=
  (B - s.bufferPtr) + (Finset.univ.filter fun i => s.th i ≠ .exited).card

theorem left_of_goto (hptr : t.bufferPtr = s.bufferPtr) (hth : t.th = (s.goto i pc).th)
    (hfrom : s.th i ≠ .exited) (hto : pc ≠ .exited) : left B t = left B s := by
  have hsame : ∀ k, t.th k ≠ .exited ↔ s.th k ≠ .exited := by
    intro k
    rw [hth]
    by_cases hk : k = i
    · subst hk
      rw [goto_th_self]
      exact iff_of_true hto hfrom
    · rw [goto_th_of_ne hk]
  simp only [left, hptr, hsame]

theorem left_of_main (hptr : t.bufferPtr = s.bufferPtr) (hth : t.th = s.th) :
    left B t = left B s := by
  simp only [left, hptr, hth]

/-- The exit of a thread leaves less to do. -/
theorem left_exit (hptr : t.bufferPtr = s.bufferPtr) (hth : t.th = (s.goto i .exited).th)
    (hi : s.th i ≠ .exited) : left B t < left B s := by
  have hsub : (Finset.univ.filter fun k => t.th k ≠ .exited) ⊂
      Finset.univ.filter fun k => s.th k ≠ .exited := by
    rw [Finset.ssubset_iff_of_subset]
    · exact ⟨i, by simpa using hi, by simp [hth]⟩
    · intro k hk
      rw [Finset.mem_filter] at hk ⊢
      refine ⟨hk.1, fun hexited => hk.2 ?_⟩
      rw [hth]
      by_cases hki : k = i
      · rw [hki, goto_th_self]
      · rwa [goto_th_of_ne hki]
  have hless := Finset.card_lt_card hsub
  simp only [left, hptr]
  omega

/-- What a step does to what is left: the step of `buffer_ptr` and the exit of a thread
lower it, every other step leaves it alone. -/
theorem left_step (hs : (system build N B).Reachable s) (hstep : Step build B s e t) :
    left B t < left B s ∨ left B t = left B s ∧
      ∀ i, e.actor = some i → s.th i ≠ .advance ∧ s.th i ≠ .release true := by
  obtain ⟨w, hslots⟩ : ∃ w, SlotInvariant B w s := by
    obtain ⟨s₀, w, rfl, hrun⟩ := hs
    exact ⟨w, .of_run hrun⟩
  have horder := Orderly.of_reachable hs
  -- a step of `main`, and one of a thread that is at none of the two places
  have hmain : ∀ {t : State N}, t.bufferPtr = s.bufferPtr → t.th = s.th → e.actor = none →
      left B t < left B s ∨ left B t = left B s ∧
        ∀ i, e.actor = some i → s.th i ≠ .advance ∧ s.th i ≠ .release true := by
    intro t hptr hth hactor
    refine Or.inr ⟨left_of_main hptr hth, fun i hi => ?_⟩
    rw [hactor] at hi
    cases hi
  have hthread : ∀ {t : State N} {pc : ThPc} (i : Fin N), t.bufferPtr = s.bufferPtr →
      t.th = (s.goto i pc).th → s.th i ≠ .exited → pc ≠ .exited → e.actor = some i →
      s.th i ≠ .advance ∧ s.th i ≠ .release true →
      left B t < left B s ∨ left B t = left B s ∧
        ∀ i, e.actor = some i → s.th i ≠ .advance ∧ s.th i ≠ .release true := by
    intro t pc i hptr hth hfrom hto hactor hat
    refine Or.inr ⟨left_of_goto hptr hth hfrom hto, fun k hk => ?_⟩
    rw [hactor] at hk
    exact Option.some.inj hk ▸ hat
  cases hstep with
  | initLock hat => exact hmain (by cases build <;> rfl) (by cases build <;> rfl) rfl
  | @create i hat =>
    refine Or.inr ⟨left_of_goto rfl rfl ?_ ?_, fun k hk => by cases hk⟩
    · rw [(horder.created i).mpr (by rw [hat, MainPc.created])]
      simp
    · cases build <;> simp [ThPc.fresh]
  | add hat | join hat _ => exact hmain rfl rfl rfl
  | openGate hat => exact hmain (by cases build <;> rfl) (by cases build <;> rfl) rfl
  | @gate i hat _ | @trywait i _ hat _ | @lock i _ hat | @full i hat _ | @room i hat _
  | @store i hat =>
    exact hthread i rfl rfl (by simp [hat]) (by simp) rfl (by simp [hat])
  | @search i hat | @access i _ _ _ _ hat _ =>
    have haway := ofLock_away
    exact hthread i rfl rfl (by simp [hat]) (fun h => (haway _ _).2.2 (Or.inl h)) rfl
      (by simp [hat])
  | @advance i hat =>
    left
    have hroom := hslots.room i (Or.inr hat)
    have hle := hslots.le
    have hsame : left B (s.goto i (.release false)) = left B s :=
      left_of_goto rfl rfl (by simp [hat]) (by simp)
    have hless : B - (s.bufferPtr + 1) < B - s.bufferPtr := by omega
    rw [← hsame]
    exact Nat.add_lt_add_right hless _
  | @release i full hat =>
    have hth : ((s.release i build).goto i (if full then .exited else .acquire)).th =
        (s.goto i (if full then .exited else .acquire)).th := by simp [State.goto]
    cases full with
    | false => exact hthread i (by simp) hth (by simp [hat]) (by simp) rfl (by simp [hat])
    | true => exact Or.inl (left_exit (by simp) hth (by simp [hat]))

end Sisop.ThreadRunner
