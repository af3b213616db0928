import Sisop.WebMonitor.Service

/-!
# The lifecycle of the service

As `kill` always fails, a `stop` changes nothing, and the pid file that the first `start`
writes stays for ever. No second instance is started then, also after the first one has
died. An invocation does what it should as long as nothing has to be stopped and the
instance of the pid file is alive.

## Main definitions

* `Lifecycle` — what a run of the service should satisfy
* `Harmless` — the histories after which an invocation does what it should
* `Stage` — no instance, an instance without a pid file, or an instance with one

## Main results

* `Stage.step`, `stage_of_run` — what one step, and a run, keeps
* `meets_iff` — one invocation
* `lifecycle_iff` — a run
-/

namespace Sisop.WebMonitor.Service

open Foundations

variable {kill : Kill} {v w u : List Event} {s t : State} {c : Cmd} {pc : Pc} {e : Event} {pid : ℕ}

/-- What an invocation should achieve, from the state it finds and the steps until its
end. After a `stop` no instance is running and there is no pid file. After a `start` or a
`restart` the pid file holds the process id of an instance that was running already or has
been started. -/
def Meets (s : State) (u : List Event) (t : State) : Cmd → Prop
  | .stop => t.live = ∅ ∧ t.pidfile = none
  | .start | .restart => ∃ pid, t.pidfile = some (pidText pid) ∧ (pid ∈ s.live ∨ pid ∈ launches u)

/-- At any time at most one instance is running, and every invocation that ends achieves
what it should. -/
structure Lifecycle (kill : Kill) (w : List Event) : Prop where
  single : ∀ v u t, w = v ++ u → (service kill).Run .init v t → t.live.card ≤ 1
  meets : ∀ v c u rest s t, w = v ++ .invoked c :: (u ++ .returned c :: rest) →
    invocations u = [] → (service kill).Run .init v s →
    (service kill).Run s (.invoked c :: (u ++ [.returned c])) t → Meets s u t c

/-- A history in which there has been nothing to stop, or nothing has died. -/
def Harmless (v : List Event) : Cmd → Prop
  | .stop => ∀ c ∈ invocations v, c = .stop
  | .start | .restart => deaths v = []

/-- A `start` or a `restart` has been invoked. -/
def Asked (w : List Event) : Prop := ∃ c ∈ invocations w, c ≠ .stop

/-- What holds at the place of an invocation holds at every place it is at. -/
theorem forall_place {P : Cmd → Pc → Prop} (hshell : s.shell = some (c, pc)) (h : P c pc) :
    ∀ c' pc', s.shell = some (c', pc') → P c' pc' := by
  intro c' pc' hplace
  obtain ⟨rfl, rfl⟩ := Prod.mk.inj (Option.some.inj (hshell.symm.trans hplace))
  exact h

section Histories

@[simp] theorem invocations_append (v w : List Event) :
    invocations (v ++ w) = invocations v ++ invocations w := List.filterMap_append

@[simp] theorem launches_append (v w : List Event) :
    launches (v ++ w) = launches v ++ launches w := List.filterMap_append

@[simp] theorem deaths_append (v w : List Event) :
    deaths (v ++ w) = deaths v ++ deaths w := List.filterMap_append

theorem Asked.append (h : Asked v) (w : List Event) : Asked (v ++ w) := by
  obtain ⟨c, hc, hne⟩ := h
  exact ⟨c, by simp [hc], hne⟩

theorem asked_append_of_invocations_eq_nil (h : invocations w = []) :
    Asked (v ++ w) ↔ Asked v := by
  simp [Asked, h]

end Histories

/-! ### The stages of the service -/

/-- The places where an invocation may be before an instance has been started. -/
def beforeLaunch : Cmd → Pc → Bool
  | .start, .startTest | .start, .launch => true
  | .restart, .stopTest | .restart, .startTest | .restart, .launch => true
  | .stop, .stopTest | .stop, .done => true
  | _, _ => false

/-- The places where an invocation may be once the pid file has been written. -/
def afterRecord : Pc → Bool
  | .startTest | .stopTest | .kill | .done => true
  | .launch | .record _ | .remove => false

/-- No instance has been started. -/
structure Absent (w : List Event) (s : State) : Prop where
  launches : launches w = []
  deaths : deaths w = []
  live : s.live = ∅
  pidfile : s.pidfile = none
  shell : ∀ c pc, s.shell = some (c, pc) → beforeLaunch c pc
  asked : Asked w ↔ ∃ c pc, s.shell = some (c, pc) ∧ c ≠ .stop

/-- One instance has been started, and it is running unless it has died. -/
structure Launched (pid : ℕ) (w : List Event) (s : State) : Prop where
  launches : launches w = [pid]
  live : s.live = if deaths w = [] then {pid} else ∅
  asked : Asked w

/-- How far the service has come. -/
inductive Stage (w : List Event) (s : State) : Prop
  | absent (h : Absent w s)
  | recording (pid : ℕ) (c : Cmd) (h : Launched pid w s) (shell : s.shell = some (c, .record pid))
  | recorded (pid : ℕ) (h : Launched pid w s) (pidfile : s.pidfile = some (pidText pid))
      (shell : ∀ c pc, s.shell = some (c, pc) → afterRecord pc)

theorem Stage.init : Stage [] .init := by
  refine .absent ⟨rfl, rfl, rfl, rfl, ?_, ?_⟩
  · simp [State.init]
  · simp [State.init, Asked, invocations]

/-- A step that is neither a launch nor a death keeps the instance. -/
theorem Launched.keep (h : Launched pid w s) (hlaunch : Service.launches [e] = [])
    (hdeath : deaths [e] = []) (hlive : t.live = s.live) : Launched pid (w ++ [e]) t where
  launches := by rw [launches_append, h.launches, hlaunch, List.append_nil]
  live := by rw [hlive, h.live, deaths_append, hdeath, List.append_nil]
  asked := h.asked.append _

/-- The instance that dies is the one that has been started. -/
theorem Launched.die {q : ℕ} (h : Launched pid w s) (hq : q ∈ s.live)
    (hlive : t.live = s.live.erase q) : Launched pid (w ++ [.died q]) t where
  launches := by rw [launches_append, h.launches]; rfl
  live := by
    rw [h.live] at hq
    split_ifs at hq with hdeaths
    · rw [Finset.mem_singleton] at hq
      rw [hlive, h.live, if_pos hdeaths, hq, deaths_append, hdeaths]
      simp [deaths]
    · simp at hq
  asked := h.asked.append _

theorem Launched.card_le (h : Launched pid w s) : s.live.card ≤ 1 := by
  rw [h.live]
  split_ifs <;> simp

/-- Where the pid file does not exist the script finds nothing started. -/
theorem Absent.not_started (h : Absent w s) : s.started = false := by
  rw [State.started, h.pidfile]
  rfl

/-- A step that is neither a launch nor a death leaves the service without an instance. -/
theorem Absent.keep (h : Absent w s) (hlaunch : Service.launches [e] = [])
    (hdeath : Service.deaths [e] = []) (hlive : t.live = s.live) (hpidfile : t.pidfile = s.pidfile)
    (hshell : ∀ c pc, t.shell = some (c, pc) → beforeLaunch c pc)
    (hasked : Asked (w ++ [e]) ↔ ∃ c pc, t.shell = some (c, pc) ∧ c ≠ .stop) :
    Absent (w ++ [e]) t where
  launches := by rw [launches_append, h.launches, hlaunch, List.append_nil]
  deaths := by rw [deaths_append, h.deaths, hdeath, List.append_nil]
  live := hlive.trans h.live
  pidfile := hpidfile.trans h.pidfile
  shell := hshell
  asked := hasked

/-- A step of the script that starts nothing leaves the service without an instance. -/
theorem Absent.move (h : Absent w s) {pc' : Pc} (hshell : s.shell = some (c, pc))
    (hbefore : beforeLaunch c pc') : Absent (w ++ [.moved]) { s with shell := some (c, pc') } := by
  refine h.keep rfl rfl rfl rfl ?_ ?_
  · exact forall_place rfl hbefore
  · rw [asked_append_of_invocations_eq_nil rfl, h.asked, hshell]
    simp

theorem started_of_pidfile (h : s.pidfile = some (pidText pid)) : s.started = true := by
  rw [State.started, h]
  simp [pidText]

/-! ### One step -/

theorem Absent.step (h : Absent w s) (hstep : Step kill s e t) : Stage (w ++ [e]) t := by
  cases hstep with
  | invoke c idle =>
    have hnot : ¬ Asked w := by simp [h.asked, idle]
    refine .absent (h.keep rfl rfl rfl rfl ?_ ?_)
    · exact forall_place rfl (by cases c <;> rfl)
    · have hall : ∀ c' ∈ invocations w, c' = .stop := by simpa [Asked] using hnot
      simp only [Asked, invocations_append, List.mem_append, or_and_right, exists_or]
      constructor
      · rintro (⟨c', hc', hne⟩ | ⟨c', hc', hne⟩)
        · exact absurd (hall c' hc') hne
        · obtain rfl : c' = c := by simpa [invocations] using hc'
          exact ⟨c', c'.entry, rfl, hne⟩
      · rintro ⟨c', pc, heq, hne⟩
        obtain ⟨rfl, rfl⟩ := Prod.mk.inj (Option.some.inj heq)
        exact Or.inr ⟨c, by simp [invocations], hne⟩
  | already at_shell started => exact absurd started (by simp [h.not_started])
  | @absent c at_shell _ =>
    have hbefore := h.shell _ _ at_shell
    exact .absent (h.move at_shell (by cases c <;> first | rfl | exact hbefore))
  | @launch c pid at_shell _ =>
    have hbefore := h.shell _ _ at_shell
    have hne : c ≠ .stop := by
      rintro rfl
      exact absurd hbefore (by decide)
    refine .recording pid c ⟨?_, ?_, ?_⟩ rfl
    · rw [launches_append, h.launches]
      rfl
    · rw [deaths_append, h.deaths, h.live]
      rfl
    · exact (h.asked.mpr ⟨c, _, at_shell, hne⟩).append _
  | @record c _ at_shell =>
    have hbefore := h.shell _ _ at_shell
    cases c <;> exact absurd hbefore (by simp [beforeLaunch])
  | present at_shell started => exact absurd started (by simp [h.not_started])
  | @missing c at_shell _ =>
    have hbefore := h.shell _ _ at_shell
    exact .absent (h.move at_shell (by cases c <;> first | rfl | exact hbefore))
  | @killed c at_shell _ | @failed c at_shell _ | @remove c at_shell =>
    have hbefore := h.shell _ _ at_shell
    cases c <;> exact absurd hbefore (by decide)
  | @ret c at_shell =>
    have hstop : c = .stop := by
      have hbefore := h.shell _ _ at_shell
      cases c with
      | stop => rfl
      | start | restart => exact absurd hbefore (by decide)
    refine .absent (h.keep rfl rfl rfl rfl (by simp) ?_)
    rw [asked_append_of_invocations_eq_nil rfl, h.asked, at_shell, hstop]
    simp
  | die running => exact absurd running (by simp [h.live])

/-- Between the launch and the store of its process id an instance can only die. -/
theorem Launched.step_recording (h : Launched pid w s) (hshell : s.shell = some (c, .record pid))
    (hstep : Step kill s e t) : Stage (w ++ [e]) t := by
  cases hstep with
  | record at_shell =>
    obtain ⟨rfl, hpc⟩ := Prod.mk.inj (Option.some.inj (hshell.symm.trans at_shell))
    obtain rfl := Pc.record.inj hpc
    exact .recorded pid (h.keep rfl rfl rfl) rfl (forall_place rfl rfl)
  | die running => exact .recording pid c (h.die running rfl) hshell
  | invoke _ idle => simp [hshell] at idle
  | already at_shell | absent at_shell | launch _ at_shell | present at_shell | missing at_shell
  | killed at_shell | failed at_shell | remove at_shell | ret at_shell =>
    simp [hshell] at at_shell

/-- Once the pid file has been written it stays, and so does what is left of the
instance. -/
theorem Launched.step_recorded (h : Launched pid w s) (hpidfile : s.pidfile = some (pidText pid))
    (hshell : ∀ c pc, s.shell = some (c, pc) → afterRecord pc) (hstep : Step kill s e t) :
    Stage (w ++ [e]) t := by
  have hstarted := started_of_pidfile hpidfile
  -- a step of the script leaves the pid file and the instance alone
  have hmove : ∀ {c' pc'} {s' : State}, s'.pidfile = s.pidfile → s'.live = s.live →
      s'.shell = some (c', pc') → afterRecord pc' → Stage (w ++ [.moved]) s' := by
    intro c' pc' s' hpid hlive hshell' hafter
    exact .recorded pid (h.keep rfl rfl hlive) (hpid.trans hpidfile) (forall_place hshell' hafter)
  cases hstep with
  | invoke c idle =>
    exact .recorded pid (h.keep rfl rfl rfl) hpidfile (forall_place rfl (by cases c <;> rfl))
  | already at_shell _ => exact hmove rfl rfl rfl rfl
  | absent at_shell started => simp [hstarted] at started
  | launch _ at_shell => exact absurd (hshell _ _ at_shell) (by decide)
  | record at_shell => exact absurd (hshell _ _ at_shell) (by simp [afterRecord])
  | present at_shell _ => exact hmove rfl rfl rfl rfl
  | missing at_shell started => simp [hstarted] at started
  | killed at_shell status => exact absurd status (kill.fails s.live)
  | @failed c at_shell _ =>
    exact hmove rfl (kill.signalsNothing s.live) rfl (by cases c <;> rfl)
  | remove at_shell => exact absurd (hshell _ _ at_shell) (by decide)
  | ret at_shell => exact .recorded pid (h.keep rfl rfl rfl) hpidfile (by simp)
  | die running => exact .recorded pid (h.die running rfl) hpidfile hshell

/-- Every step leads from one of the stages to one of them. -/
theorem Stage.step (h : Stage w s) (hstep : Step kill s e t) : Stage (w ++ [e]) t := by
  cases h with
  | absent h => exact h.step hstep
  | recording pid c h hshell => exact h.step_recording hshell hstep
  | recorded pid h hpidfile hshell => exact h.step_recorded hpidfile hshell hstep

/-! ### Runs -/

theorem stage_of_run (hrun : (service kill).Run .init w s) : Stage w s :=
  hrun.history_invariant (I := Stage) (fun hstep h => h.step hstep) .init

/-- At most one instance is ever running. -/
theorem card_live_le (hrun : (service kill).Run .init w s) : s.live.card ≤ 1 := by
  cases stage_of_run hrun with
  | absent h => simp [h.live]
  | recording pid c h _ | recorded pid h _ _ => exact h.card_le

/-- Between two invocations either nothing has been started, or there is a pid file. -/
theorem idle_cases (hrun : (service kill).Run .init w s) (hidle : s.shell = none) :
    (¬ Asked w ∧ Absent w s) ∨
      ∃ pid, Launched pid w s ∧ s.pidfile = some (pidText pid) := by
  cases stage_of_run hrun with
  | absent h => exact Or.inl ⟨by simp [h.asked, hidle], h⟩
  | recording pid c _ hshell => simp [hidle] at hshell
  | recorded pid h hpidfile _ => exact Or.inr ⟨pid, h, hpidfile⟩

/-- What a `start` or a `restart` achieves, from an idle state to an idle state. -/
theorem exists_pid_iff (hs : (service kill).Run .init v s) (hsidle : s.shell = none)
    (ht : (service kill).Run .init (v ++ w) t) (htidle : t.shell = none) (hasked : Asked (v ++ w)) :
    (∃ pid, t.pidfile = some (pidText pid) ∧ (pid ∈ s.live ∨ pid ∈ launches w)) ↔
      deaths v = [] := by
  rcases idle_cases ht htidle with ⟨hnot, -⟩ | ⟨pid, hpid, hpidfile⟩
  · exact absurd hasked hnot
  · have hlaunches := hpid.launches
    rw [launches_append] at hlaunches
    rcases idle_cases hs hsidle with ⟨-, habsent⟩ | ⟨pid', hpid', -⟩
    · -- the instance has been started by the invocation
      rw [habsent.launches, List.nil_append] at hlaunches
      exact iff_of_true ⟨pid, hpidfile, Or.inr (by simp [hlaunches])⟩ habsent.deaths
    · -- the instance had been started before
      rw [hpid'.launches, List.singleton_append, List.cons.injEq] at hlaunches
      obtain ⟨rfl, hnone⟩ := hlaunches
      rw [hnone, hpid'.live]
      constructor
      · rintro ⟨q, -, hq⟩
        by_contra hdeaths
        simp [hdeaths] at hq
      · intro hdeaths
        exact ⟨pid', hpidfile, Or.inl (by simp [hdeaths])⟩

/-- An invocation achieves what it should exactly after a harmless history. -/
theorem meets_iff (hs : (service kill).Run .init v s)
    (ht : (service kill).Run s (.invoked c :: (u ++ [.returned c])) t) (hu : invocations u = []) :
    Meets s u t c ↔ Harmless v c := by
  have hsidle : s.shell = none := by
    obtain ⟨_, hstep, -⟩ := ht.of_cons
    cases hstep with
    | invoke _ idle => exact idle
  have htidle : t.shell = none := by
    rw [← List.cons_append] at ht
    obtain ⟨_, -, hstep⟩ := ht.of_append_singleton
    cases hstep with
    | ret => rfl
  have hrun := hs.trans ht
  have hinvocations : invocations (.invoked c :: (u ++ [.returned c])) = [c] := by
    have hcons : invocations (.invoked c :: (u ++ [.returned c])) =
        c :: invocations (u ++ [.returned c]) := rfl
    rw [hcons, invocations_append, hu]
    rfl
  have hlaunches : launches (.invoked c :: (u ++ [.returned c])) = launches u := by
    have hcons : launches (.invoked c :: (u ++ [.returned c])) =
        launches (u ++ [.returned c]) := rfl
    rw [hcons, launches_append]
    exact List.append_nil _
  by_cases hc : c = .stop
  · subst hc
    have hasked : Asked (v ++ .invoked .stop :: (u ++ [.returned .stop])) ↔ ¬ Harmless v .stop := by
      simp [Asked, Harmless, hinvocations]
    rcases idle_cases hrun htidle with ⟨hnot, habsent⟩ | ⟨pid, hpid, hpidfile⟩
    · exact iff_of_true ⟨habsent.live, habsent.pidfile⟩ (by simpa [hasked] using hnot)
    · refine iff_of_false (fun h => ?_) (hasked.mp hpid.asked)
      exact absurd (hpidfile.symm.trans h.2) (by simp)
  · have hasked : Asked (v ++ .invoked c :: (u ++ [.returned c])) :=
      ⟨c, by simp [hinvocations], hc⟩
    have hiff := exists_pid_iff hs hsidle hrun htidle hasked
    rw [hlaunches] at hiff
    cases c with
    | stop => exact absurd rfl hc
    | start | restart => exact hiff

/-- Every invocation that ends in a run begins after a harmless history. -/
def Benign (w : List Event) : Prop :=
  ∀ v c u rest, w = v ++ .invoked c :: (u ++ .returned c :: rest) → invocations u = [] →
    Harmless v c

/-- A run of the service is as it should be exactly when no `stop` that ends in it begins
after a `start` or a `restart`, and no `start` or `restart` that ends in it begins after a
death. -/
theorem lifecycle_iff (hrun : (service kill).Run .init w s) :
    Lifecycle kill w ↔ Benign w := by
  constructor
  · rintro h v c u rest rfl hu
    obtain ⟨s₁, hbefore, hrest⟩ := hrun.split
    have hassoc : (.invoked c :: (u ++ .returned c :: rest) : List Event) =
        (.invoked c :: (u ++ [.returned c])) ++ rest := by simp
    rw [hassoc] at hrest
    obtain ⟨s₂, hduring, -⟩ := hrest.split
    exact (meets_iff hbefore hduring hu).mp (h.meets v c u rest s₁ s₂ rfl hu hbefore hduring)
  · intro h
    refine ⟨fun v u t _ hprefix => card_live_le hprefix, ?_⟩
    rintro v c u rest s₁ s₂ hw hu hbefore hduring
    exact (meets_iff hbefore hduring hu).mpr (h v c u rest hw hu)

/-- A `kill` that signals the processes among its arguments. -/
def killArguments : Kill where
  run pids live := if pids = [] then (1, live) else (0, live \ pids.toFinset)
  fails _ := by simp
  signalsNothing _ := by simp

/-- The labels of a `start` that launches instance 7. -/
def startSeven : List Event := [.invoked .start, .moved, .launched 7, .moved, .returned .start]

theorem run_startSeven : (service killArguments).Run .init startSeven
    ⟨some (pidText 7), {7}, none⟩ := by
  have h1 := (Machine.Run.refl (M := service killArguments) .init).snoc (Step.invoke .start rfl)
  have h2 := (h1.snoc (Step.absent rfl rfl)).snoc (Step.launch 7 rfl (by decide))
  exact (h2.snoc (Step.record rfl)).snoc (Step.ret rfl)

/-- The labels of a `stop` of a service that has been started. -/
def stopStarted : List Event := [.invoked .stop, .moved, .moved, .returned .stop]

theorem run_stopStarted : (service killArguments).Run ⟨some (pidText 7), {7}, none⟩ stopStarted
    ⟨some (pidText 7), {7}, none⟩ := by
  have h1 := (Machine.Run.refl (M := service killArguments) ⟨some (pidText 7), {7}, none⟩).snoc
    (Step.invoke .stop rfl)
  have h2 := (h1.snoc (Step.present rfl rfl)).snoc (Step.failed rfl (by decide))
  exact h2.snoc (Step.ret rfl)

/-- A single `start` is as it should be. -/
theorem lifecycle_start : Lifecycle killArguments startSeven := by
  apply (lifecycle_iff run_startSeven).mpr
  intro v c u rest hw _
  have hinvocations := congrArg invocations hw
  have hdeaths := congrArg deaths hw
  rw [invocations_append] at hinvocations
  rw [deaths_append] at hdeaths
  -- the only invocation is the one of `start`, and nothing dies
  have hfirst : [.start] = invocations v ++ c :: invocations (u ++ .returned c :: rest) :=
    hinvocations
  obtain ⟨-, rfl, -⟩ := List.append_eq_singleton_iff.mp hfirst.symm |>.resolve_right (by simp)
    |>.imp_right List.cons.inj
  exact (List.append_eq_nil_iff.mp hdeaths.symm).1

/-- After a `start` and a `stop` the instance is running and the pid file is there. -/
theorem lifecycle_start_stop : (service killArguments).Run .init (startSeven ++ stopStarted)
      ⟨some (pidText 7), {7}, none⟩ ∧
    ¬ Lifecycle killArguments (startSeven ++ stopStarted) := by
  refine ⟨run_startSeven.trans run_stopStarted, fun h => ?_⟩
  have hstop := h.meets startSeven .stop [.moved, .moved] [] _ _ rfl rfl run_startSeven
    run_stopStarted
  exact absurd hstop.2 (by decide)

end Sisop.WebMonitor.Service
