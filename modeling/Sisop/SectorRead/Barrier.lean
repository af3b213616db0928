import Mathlib.Data.Fintype.Card
import Sisop.Foundations.Total
import Sisop.SectorRead.Basic

/-!
# The start barrier

Each of the two semaphores has a ledger: its count, and what has been taken from it, are
what has been posted to it. A thread whose `open` fails exits before it has posted `s1`,
while `main` still waits for one post of every thread. Without such a thread the barrier
opens and all threads come to their end; with one, `main` never gets past `s1`.

## Main definitions

* `Balanced` — the ledgers of the semaphores, and where the threads are
* `work` — a bound on the steps to come

## Main results

* `balanced_of_reachable` — every reachable state is balanced
* `not_stuck_iff` — when no state is stuck
* `exists_run_finished`, `exists_run_stuck` — what every state leads to
-/

namespace Sisop.SectorRead

open Foundations Total

variable {procs : ℕ} {fails : Finset (Fin procs)} {s u : State procs} {a : Actor procs}
  {t : Fin procs} {pc : ThPc}

/-! ### The ledgers -/

/-- The posts of `s1` by a thread. -/
def posted (fails : Finset (Fin procs)) (t : Fin procs) : ThPc → ℕ
  | .absent | .openDevice | .postReady => 0
  | .waitBegin | .write _ => 1
  | .exited => if t ∈ fails then 0 else 1

/-- The posts of `s0` that a thread has taken. -/
def begun (fails : Finset (Fin procs)) (t : Fin procs) : ThPc → ℕ
  | .absent | .openDevice | .postReady | .waitBegin => 0
  | .write _ => 1
  | .exited => if t ∈ fails then 0 else 1

/-- The threads that `main` has created, the posts of `s1` that it has taken, and those of
`s0` that it has given. -/
@[ext] structure Progress where
  created : ℕ
  taken : ℕ
  given : ℕ

/-- How far `main` has come. -/
def MainPc.progress (procs : ℕ) : MainPc → Progress
  | .create i => ⟨i, 0, 0⟩
  | .waitReady i => ⟨procs, i, 0⟩
  | .letBegin i => ⟨procs, procs, i⟩
  | .exited => ⟨procs, procs, procs⟩

/-- A loop of `main` is in one of its turns. -/
def MainPc.InRange (procs : ℕ) : MainPc → Prop
  | .create i | .waitReady i | .letBegin i => i < procs
  | .exited => True

/-- The places of a thread whose `open` fails. -/
def ThPc.OpenFails : ThPc → Prop
  | .absent | .openDevice | .exited => True
  | .postReady | .waitBegin | .write _ => False

/-- Both ledgers are right, the threads there are have been created, the threads that
cannot open the device have not got past that, and every loop is in one of its turns. -/
structure Balanced (fails : Finset (Fin procs)) (s : State procs) : Prop where
  s1 : s.s1 + (s.main.progress procs).taken = total (posted fails) s.th
  s0 : s.s0 + total (begun fails) s.th = (s.main.progress procs).given
  absent : ∀ t, s.th t = .absent ↔ (s.main.progress procs).created ≤ t
  failed : ∀ t ∈ fails, (s.th t).OpenFails
  main : s.main.InRange procs
  writes : ∀ t i, s.th t = .write i → i < 100

theorem progress_forBegin {i : ℕ} (h : i ≤ procs) :
    (forBegin procs i).progress procs = ⟨procs, procs, i⟩ := by
  rw [forBegin]
  split_ifs with hlt
  · rfl
  · rw [MainPc.progress, le_antisymm h (not_lt.mp hlt)]

theorem progress_forReady {i : ℕ} (h : i ≤ procs) :
    (forReady procs i).progress procs = ⟨procs, i, 0⟩ := by
  rw [forReady]
  split_ifs with hlt
  · rfl
  · rw [progress_forBegin (Nat.zero_le _), le_antisymm h (not_lt.mp hlt)]

theorem progress_forCreate {i : ℕ} (h : i ≤ procs) :
    (forCreate procs i).progress procs = ⟨i, 0, 0⟩ := by
  rw [forCreate]
  split_ifs with hlt
  · rfl
  · rw [progress_forReady (Nat.zero_le _), le_antisymm h (not_lt.mp hlt)]

theorem inRange_forBegin (procs i : ℕ) : (forBegin procs i).InRange procs := by
  rw [forBegin]
  split_ifs with h
  · exact h
  · trivial

theorem inRange_forReady (procs i : ℕ) : (forReady procs i).InRange procs := by
  rw [forReady]
  split_ifs with h
  · exact h
  · exact inRange_forBegin procs 0

theorem inRange_forCreate (procs i : ℕ) : (forCreate procs i).InRange procs := by
  rw [forCreate]
  split_ifs with h
  · exact h
  · exact inRange_forReady procs 0

theorem forWrite_cases (i : ℕ) : forWrite i = .write i ∧ i < 100 ∨ forWrite i = .exited := by
  rw [forWrite]
  split_ifs with h
  · exact Or.inl ⟨rfl, h⟩
  · exact Or.inr rfl

theorem Balanced.init : Balanced fails (initState procs) where
  s1 := by
    have hzero : total (posted fails) (initState procs).th = 0 := total_eq_zero fun _ => rfl
    rw [hzero, initState, progress_forCreate (Nat.zero_le _)]
    rfl
  s0 := by
    have hzero : total (begun fails) (initState procs).th = 0 := total_eq_zero fun _ => rfl
    rw [hzero, initState, progress_forCreate (Nat.zero_le _)]
  absent t := by
    rw [initState, progress_forCreate (Nat.zero_le _)]
    exact iff_of_true rfl (Nat.zero_le _)
  failed _ _ := trivial
  main := inRange_forCreate procs 0
  writes _ _ h := by cases h

/-- A thread that has got past its `open` is none of those whose `open` fails. -/
theorem Balanced.notMem_fails (h : Balanced fails s) (ht : ¬(s.th t).OpenFails) : t ∉ fails :=
  fun hmem => ht (h.failed t hmem)

/-! ### One step -/

/-- A step of a thread that changes the counts as it changes the ledgers. -/
theorem Balanced.goto (h : Balanced fails s) {s0 s1 : ℕ}
    (hs1 : s1 + posted fails t (s.th t) = s.s1 + posted fails t pc)
    (hs0 : s0 + begun fails t pc = s.s0 + begun fails t (s.th t))
    (hbefore : s.th t ≠ .absent) (hafter : pc ≠ .absent) (hfails : t ∈ fails → pc.OpenFails)
    (hwrites : ∀ i, pc = .write i → i < 100) :
    Balanced fails ({ s with s0 := s0, s1 := s1 }.goto t pc) where
  s1 := by
    have hmove := total_update (posted fails) s.th t pc
    have := h.s1
    simp only [State.goto]
    omega
  s0 := by
    have hmove := total_update (begun fails) s.th t pc
    have := h.s0
    simp only [State.goto]
    omega
  absent u := by
    by_cases hu : u = t
    · subst hu
      simp only [State.goto, Function.update_self]
      exact iff_of_false hafter fun hle => hbefore ((h.absent u).mpr hle)
    · simp only [State.goto, Function.update_of_ne hu]
      exact h.absent u
  failed u hu := by
    by_cases hut : u = t
    · subst hut
      simpa [State.goto] using hfails hu
    · simpa [State.goto, hut] using h.failed u hu
  main := h.main
  writes u i hu := by
    by_cases hut : u = t
    · subst hut
      exact hwrites i (by simpa [State.goto] using hu)
    · exact h.writes u i (by simpa [State.goto, hut] using hu)

/-- A step of `main` that creates no thread. -/
theorem Balanced.move (h : Balanced fails s) {s0 s1 : ℕ} {main : MainPc}
    (hs1 : s1 + (main.progress procs).taken = s.s1 + (s.main.progress procs).taken)
    (hs0 : s0 + (s.main.progress procs).given = s.s0 + (main.progress procs).given)
    (hcreated : (main.progress procs).created = (s.main.progress procs).created)
    (hrange : main.InRange procs) :
    Balanced fails { s with s0 := s0, s1 := s1, main := main } where
  s1 := hs1.trans h.s1
  s0 := by
    have := h.s0
    simp only
    omega
  absent t := by rw [hcreated]; exact h.absent t
  failed := h.failed
  main := hrange
  writes := h.writes

/-- The creation of a thread. -/
theorem Balanced.create (h : Balanced fails s) (hmain : s.main = .create t) :
    Balanced fails ({ s with main := forCreate procs (t + 1) }.goto t .openDevice) := by
  have hprogress : s.main.progress procs = ⟨t, 0, 0⟩ := by rw [hmain]; rfl
  have habsent : s.th t = .absent := (h.absent t).mpr (by rw [hprogress])
  have hnext : (forCreate procs (t + 1)).progress procs = ⟨t + 1, 0, 0⟩ :=
    progress_forCreate (by omega)
  obtain ⟨hs1, hs0, hcreated, hfailed, -, hwrites⟩ := h
  rw [hprogress] at hs1 hs0 hcreated
  constructor
  · simp only [State.goto, hnext]
    rw [total_update_of_eq (by rw [habsent]; rfl)]
    exact hs1
  · simp only [State.goto, hnext]
    rw [total_update_of_eq (by rw [habsent]; rfl)]
    exact hs0
  · intro u
    simp only [State.goto, hnext]
    by_cases hu : u = t
    · subst hu
      simp
    · have hne : (u : ℕ) ≠ t := fun heq => hu (Fin.ext heq)
      rw [Function.update_of_ne hu, hcreated u]
      simp only
      omega
  · intro u hu
    by_cases hut : u = t
    · subst hut
      simp [State.goto, ThPc.OpenFails]
    · simpa [State.goto, hut] using hfailed u hu
  · exact inRange_forCreate procs _
  · intro u i hu
    by_cases hut : u = t
    · subst hut
      simp [State.goto] at hu
    · exact hwrites u i (by simpa [State.goto, hut] using hu)

theorem Balanced.step (h : Balanced fails s) (hstep : Step fails s a u) : Balanced fails u := by
  cases hstep with
  | create at_main => exact h.create at_main
  | @waitReady i at_main positive =>
    have hrange : i < procs := by simpa [MainPc.InRange, at_main] using h.main
    refine h.move ?_ ?_ ?_ (inRange_forReady procs _)
    all_goals
      rw [progress_forReady hrange, at_main]
      simp only [MainPc.progress]
    omega
  | @letBegin i at_main =>
    have hrange : i < procs := by simpa [MainPc.InRange, at_main] using h.main
    refine h.move ?_ ?_ ?_ (inRange_forBegin procs _)
    all_goals
      rw [progress_forBegin hrange, at_main]
      simp only [MainPc.progress]
    omega
  | @openFails t at_th fails_t =>
    refine h.goto ?_ ?_ (by simp [at_th]) (by simp) (fun _ => trivial) (by simp)
    · simp [at_th, posted, fails_t]
    · simp [at_th, begun, fails_t]
  | @openDevice t at_th opens =>
    refine h.goto ?_ ?_ (by simp [at_th]) (by simp) (fun ht => absurd ht opens) (by simp)
    · simp [at_th, posted]
    · simp [at_th, begun]
  | @postReady t at_th =>
    have hnot : t ∉ fails := h.notMem_fails (by simp [at_th, ThPc.OpenFails])
    refine h.goto ?_ ?_ (by simp [at_th]) (by simp) (fun ht => absurd ht hnot) (by simp)
    · simp [at_th, posted]
    · simp [at_th, begun]
  | @waitBegin t at_th positive =>
    have hnot : t ∉ fails := h.notMem_fails (by simp [at_th, ThPc.OpenFails])
    refine h.goto ?_ ?_ (by simp [at_th]) (by simp [forWrite]) (fun ht => absurd ht hnot)
      (by simp [forWrite])
    · simp [at_th, posted, forWrite]
    · simp only [at_th, begun, forWrite]
      simp
      omega
  | @write t i at_th =>
    have hnot : t ∉ fails := h.notMem_fails (by simp [at_th, ThPc.OpenFails])
    rcases forWrite_cases (i + 1) with ⟨hnext, hlt⟩ | hnext
    all_goals
      rw [hnext]
      refine h.goto ?_ ?_ (by simp [at_th]) (by simp) (fun ht => absurd ht hnot) ?_
    · simp [at_th, posted]
    · simp [at_th, begun]
    · rintro j hj
      obtain rfl := ThPc.write.inj hj
      exact hlt
    · simp [at_th, posted, hnot]
    · simp [at_th, begun, hnot]
    · simp

theorem balanced_of_reachable (hs : (generator fails).Reachable s) : Balanced fails s := by
  refine hs.invariant (I := Balanced fails) ?_ fun hstep h => h.step hstep
  rintro s rfl
  exact Balanced.init

/-! ### Where the program comes to rest -/

/-- `main` and all threads have come to their end. -/
structure Finished (s : State procs) : Prop where
  main : s.main = .exited
  threads : ∀ t, s.th t = .exited

/-- A thread that is there, has not exited and is not blocked can take a step. -/
theorem exists_step_of_thread (fails : Finset (Fin procs)) (habsent : s.th t ≠ .absent)
    (hexited : s.th t ≠ .exited) (hblocked : ¬ Blocked s t) : ∃ a u, Step fails s a u := by
  cases hpc : s.th t with
  | absent => exact absurd hpc habsent
  | openDevice =>
    by_cases ht : t ∈ fails
    · exact ⟨_, _, .openFails hpc ht⟩
    · exact ⟨_, _, .openDevice hpc ht⟩
  | postReady => exact ⟨_, _, .postReady hpc⟩
  | waitBegin =>
    have hpositive : 0 < s.s0 := Nat.pos_of_ne_zero fun hs0 => hblocked ⟨hpc, hs0⟩
    exact ⟨_, _, .waitBegin hpc hpositive⟩
  | write i => exact ⟨_, _, .write hpc⟩
  | exited => exact absurd hpc hexited

theorem begun_le (t : Fin procs) (pc : ThPc) : begun fails t pc ≤ 1 := by
  cases pc with
  | exited => rw [begun]; split_ifs <;> omega
  | absent | openDevice | postReady | waitBegin | write i => simp [begun]

theorem posted_le (t : Fin procs) (pc : ThPc) : posted fails t pc ≤ 1 := by
  cases pc with
  | exited => rw [posted]; split_ifs <;> omega
  | absent | openDevice | postReady | waitBegin | write i => simp [posted]

/-- Once `main` has posted `s0` for every thread, none is blocked. -/
theorem Balanced.not_blocked (h : Balanced fails s) (hmain : s.main = .exited) (t : Fin procs) :
    ¬ Blocked s t := by
  intro hblocked
  have hs0 := h.s0
  have hlt : total (begun fails) s.th < Fintype.card (Fin procs) :=
    total_lt_card (fun u => begun_le u (s.th u)) (t := t) (by rw [hblocked.1]; rfl)
  rw [hmain, MainPc.progress, hblocked.2] at hs0
  rw [Fintype.card_fin] at hlt
  simp only at hs0
  omega

/-- Unless the program is stuck or finished, somebody can take a step. -/
theorem Balanced.exists_step (h : Balanced fails s) (hstuck : ¬ Stuck s)
    (hfinished : ¬ Finished s) : ∃ a u, Step fails s a u := by
  cases hmain : s.main with
  | create i =>
    have hrange : i < procs := by simpa [MainPc.InRange, hmain] using h.main
    exact ⟨_, _, .create (t := ⟨i, hrange⟩) hmain⟩
  | waitReady i =>
    by_cases hs1 : s.s1 = 0
    · have hfree : ∃ t, s.th t ≠ .absent ∧ s.th t ≠ .exited ∧ ¬ Blocked s t := by
        by_contra hnone
        push Not at hnone
        exact hstuck ⟨⟨i, hmain⟩, hs1, hnone⟩
      obtain ⟨t, habsent, hexited, hblocked⟩ := hfree
      exact exists_step_of_thread fails habsent hexited hblocked
    · exact ⟨_, _, .waitReady hmain (Nat.pos_of_ne_zero hs1)⟩
  | letBegin i => exact ⟨_, _, .letBegin hmain⟩
  | exited =>
    have hlive : ∃ t, s.th t ≠ .exited := by
      by_contra hall
      push Not at hall
      exact hfinished ⟨hmain, hall⟩
    obtain ⟨t, hexited⟩ := hlive
    have habsent : s.th t ≠ .absent := by
      rw [Ne, h.absent, hmain]
      exact not_le.mpr t.isLt
    exact exists_step_of_thread fails habsent hexited (h.not_blocked hmain t)

/-- The steps of a thread to come, and a bound for those of the loop. -/
def ThPc.work : ThPc → ℕ
  | .absent => 104
  | .openDevice => 103
  | .postReady => 102
  | .waitBegin => 101
  | .write i => 100 - i
  | .exited => 0

/-- The turns of the loops of `main` to come. -/
def Progress.work (procs : ℕ) (p : Progress) : ℕ :=
  3 * procs - (p.created + p.taken + p.given)

/-- A bound on the steps to come. -/
def work (s : State procs) : ℕ :=
  (s.main.progress procs).work procs + total (fun _ => ThPc.work) s.th

/-- Every step leaves fewer steps to come. -/
theorem Balanced.work_lt (h : Balanced fails s) (hstep : Step fails s a u) : work u < work s := by
  have hthread : ∀ {t pc} {s0 s1 : ℕ}, pc.work < (s.th t).work →
      work ({ s with s0 := s0, s1 := s1 }.goto t pc) < work s := fun hlt =>
    Nat.add_lt_add_left (total_update_lt hlt) _
  have hmain : ∀ {main : MainPc} {s0 s1 : ℕ},
      (main.progress procs).work procs < (s.main.progress procs).work procs →
      work { s with s0 := s0, s1 := s1, main := main } < work s := fun hlt =>
    Nat.add_lt_add_right hlt _
  have hrange := h.main
  cases hstep with
  | @create t at_main =>
    have hbefore : s.main.progress procs = ⟨t, 0, 0⟩ := by rw [at_main]; rfl
    have hafter : (forCreate procs (t + 1)).progress procs = ⟨t + 1, 0, 0⟩ :=
      progress_forCreate t.isLt
    have habsent : s.th t = .absent := (h.absent t).mpr (by rw [hbefore])
    have hless : total (fun _ => ThPc.work) (Function.update s.th t .openDevice) <
        total (fun _ => ThPc.work) s.th := total_update_lt (by rw [habsent]; decide)
    simp only [work, State.goto, hbefore, hafter, Progress.work]
    omega
  | @waitReady i at_main positive =>
    rw [at_main, MainPc.InRange] at hrange
    apply hmain
    rw [progress_forReady hrange, at_main]
    simp only [MainPc.progress, Progress.work]
    omega
  | @letBegin i at_main =>
    rw [at_main, MainPc.InRange] at hrange
    apply hmain
    rw [progress_forBegin hrange, at_main]
    simp only [MainPc.progress, Progress.work]
    omega
  | openFails at_th _ | openDevice at_th _ | postReady at_th =>
    exact hthread (by rw [at_th]; decide)
  | waitBegin at_th positive => exact hthread (by rw [at_th]; decide)
  | @write t i at_th =>
    have hlt := h.writes t i at_th
    apply hthread
    rw [at_th, forWrite]
    split_ifs
    all_goals
      simp only [ThPc.work]
      omega

/-- From every reachable state the program can go on until it is stuck or finished. -/
theorem exists_run_to_rest (hs : (generator fails).Reachable s) :
    ∃ w u, (generator fails).Run s w u ∧ (Stuck u ∨ Finished u) := by
  have hplan : ∀ s, Balanced fails s → ¬(Stuck s ∨ Finished s) →
      ∃ w u, (generator fails).Run s w u ∧ (∀ a ∈ w, True) ∧
        ((Stuck u ∨ Finished u) ∨ Balanced fails u ∧ work u < work s) := by
    intro s h hrest
    rw [not_or] at hrest
    obtain ⟨a, u, hstep⟩ := h.exists_step hrest.1 hrest.2
    exact ⟨[a], u, .single hstep, fun _ _ => trivial, Or.inr ⟨h.step hstep, h.work_lt hstep⟩⟩
  obtain ⟨w, u, hrun, -, hrest⟩ :=
    Machine.exists_run_to_goal work hplan (balanced_of_reachable hs)
  exact ⟨w, u, hrun, hrest⟩

/-! ### The threads whose `open` fails -/

/-- Without a thread whose `open` fails `main` is not blocked for good. -/
theorem Balanced.not_stuck (h : Balanced ∅ s) : ¬ Stuck s := by
  rintro ⟨⟨i, hmain⟩, hs1, hblocked⟩
  have hrange : i < procs := by simpa [MainPc.InRange, hmain] using h.main
  have htotal := h.s1
  rw [hs1, hmain, MainPc.progress, zero_add] at htotal
  -- a post that `main` still waits for has not been made
  obtain ⟨t, ht⟩ := exists_eq_zero (by rw [← htotal, Fintype.card_fin]; exact hrange)
  cases hpc : s.th t with
  | absent =>
    have hcreated := (h.absent t).mp hpc
    rw [hmain] at hcreated
    exact absurd hcreated (not_le.mpr t.isLt)
  | openDevice | postReady =>
    have hwait := (hblocked t (by simp [hpc]) (by simp [hpc])).1
    simp [hpc] at hwait
  | waitBegin | write j | exited => simp [hpc, posted] at ht

/-- With one, `main` never gets past `s1`. -/
theorem Balanced.not_finished (h : Balanced fails s) (hfails : fails.Nonempty) : ¬ Finished s := by
  rintro ⟨hmain, hexited⟩
  obtain ⟨t, ht⟩ := hfails
  have htotal := h.s1
  have hlt : total (posted fails) s.th < Fintype.card (Fin procs) :=
    total_lt_card (fun u => posted_le u (s.th u)) (t := t) (by rw [hexited, posted, if_pos ht])
  rw [hmain, MainPc.progress] at htotal
  rw [Fintype.card_fin] at hlt
  simp only at htotal
  omega

/-- If every `open` succeeds, every state leads to the end of all threads. -/
theorem exists_run_finished (hs : (generator (∅ : Finset (Fin procs))).Reachable s) :
    ∃ w u, (generator (∅ : Finset (Fin procs))).Run s w u ∧ Finished u := by
  obtain ⟨w, u, hrun, hstuck | hfinished⟩ := exists_run_to_rest hs
  · exact absurd hstuck (balanced_of_reachable (hs.run hrun)).not_stuck
  · exact ⟨w, u, hrun, hfinished⟩

/-- If some `open` fails, every state leads to one in which the barrier is stuck. -/
theorem exists_run_stuck (hs : (generator fails).Reachable s) (hfails : fails.Nonempty) :
    ∃ w u, (generator fails).Run s w u ∧ Stuck u := by
  obtain ⟨w, u, hrun, hstuck | hfinished⟩ := exists_run_to_rest hs
  · exact ⟨w, u, hrun, hstuck⟩
  · exact absurd hfinished ((balanced_of_reachable (hs.run hrun)).not_finished hfails)

/-- The barrier is never stuck exactly when every thread can open the device. -/
theorem not_stuck_iff (fails : Finset (Fin procs)) :
    (∀ s, (generator fails).Reachable s → ¬ Stuck s) ↔ fails = ∅ := by
  constructor
  · intro h
    rw [← Finset.not_nonempty_iff_eq_empty]
    intro hfails
    obtain ⟨w, u, hrun, hstuck⟩ := exists_run_stuck (.of_initial rfl) hfails
    exact h u ((Machine.Reachable.of_initial rfl).run hrun) hstuck
  · rintro rfl s hs
    exact (balanced_of_reachable hs).not_stuck

/-- A single thread that cannot open the device. -/
theorem stuck_one_thread : ∃ s, (generator ({0} : Finset (Fin 1))).Reachable s ∧ Stuck s ∧
    s.th 0 = .exited := by
  have h1 := (Machine.Run.refl (M := generator ({0} : Finset (Fin 1))) (initState 1)).snoc
    (Step.create (t := 0) rfl)
  have h2 := h1.snoc (Step.openFails (t := 0) rfl (by decide))
  refine ⟨_, ⟨_, _, rfl, h2⟩, ⟨⟨0, rfl⟩, rfl, fun t _ hexited => ?_⟩, rfl⟩
  obtain rfl := Subsingleton.elim t 0
  exact absurd rfl hexited

end Sisop.SectorRead
