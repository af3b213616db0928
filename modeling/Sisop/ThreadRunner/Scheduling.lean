import Mathlib.Data.List.FinRange
import Mathlib.Data.List.Induction

/-!
# The scheduling attributes of the threads

`main` creates its threads in a loop, and asks for the policy and the priority of each as
soon as it is created. For every policy but `SCHED_DEADLINE` the request goes to the thread
by its handle. For `SCHED_DEADLINE` it goes to a task by its number, and that number is
computed from the index of the thread.

The kernel gives the threads their task numbers and decides which requests it accepts.
What `sched_get_priority_max` and `sched_get_priority_min` return is left open, and so is
whether `pthread_getschedparam` succeeds. A new thread has the attributes of `main`.

## Main definitions

* `setPriority`, `setPriorityDeadline` — the requests that are issued for a thread
* `turn`, `afterTurns` — the creation loop
* `TouchesOwn` — only the new threads are touched, and each by its own requests

## Main results

* `setPriority_spec` — which task a request goes to
* `touchesOwn_iff` — when only the new threads are touched
-/

namespace Sisop.ThreadRunner.Scheduling

/-- `struct sched_attr`. -/
structure SchedAttr where
  size : ℕ
  schedPolicy : ℤ
  schedFlags : ℕ
  schedNice : ℤ
  schedPriority : ℤ
  schedRuntime : ℕ
  schedDeadline : ℕ
  schedPeriod : ℕ
  deriving DecidableEq

/-- A request to change the attributes of a task. -/
inductive Request
  /-- `pthread_setschedparam`, for the task of the thread. -/
  | setschedparam (task policy priority : ℤ)
  /-- `sched_setattr`. -/
  | setattr (pid : ℤ) (attr : SchedAttr) (flags : ℕ)
  deriving DecidableEq

/-- The task that a request of the task `self` goes to. The number 0 stands for the task
itself. -/
def Request.target (self : ℤ) : Request → ℤ
  | .setschedparam task _ _ => task
  | .setattr pid _ _ => if pid = 0 then self else pid

/-- The policy that is asked for. -/
def Request.policy : Request → ℤ
  | .setschedparam _ policy _ => policy
  | .setattr _ attr _ => attr.schedPolicy

/-- What an accepted request makes of the attributes of its task. -/
def Request.change : Request → SchedAttr → SchedAttr
  | .setschedparam _ policy priority, attr =>
    { attr with schedPolicy := policy, schedPriority := priority }
  | .setattr _ attr _, _ => attr

/-- The attributes of the tasks there are, after an accepted request. -/
def Request.apply (self : ℤ) (tasks : ℤ → Option SchedAttr) (r : Request) :
    ℤ → Option SchedAttr :=
  Function.update tasks (r.target self) ((tasks (r.target self)).map r.change)

/-- `SCHED_DEADLINE`. -/
def schedDeadline : ℤ := 6

/-- What the kernel and the library answer to the calls for one thread. -/
structure Answer where
  getschedparam : Bool
  accepted : Bool

/-- The kernel and the library when the loop is entered: the tasks there are, the task of
`main` among them, the tasks that the threads will be, the priorities of a policy, and the
answers to come. -/
structure Env (N : ℕ) where
  tasks : ℤ → Option SchedAttr
  self : ℤ
  self_isSome : (tasks self).isSome
  tid : Fin N → ℤ
  tid_injective : Function.Injective tid
  priorityMax : ℤ → ℤ
  priorityMin : ℤ → ℤ
  answer : Fin N → Answer

variable {N : ℕ}

/-- The attributes that `set_priority_deadline` asks for: 10 of 30 milliseconds. -/
def deadlineAttr : SchedAttr where
  size := 48
  schedPolicy := schedDeadline
  schedFlags := 0
  schedNice := 0
  schedPriority := 0
  schedRuntime := 10 * 1000 * 1000
  schedDeadline := 30 * 1000 * 1000
  schedPeriod := 30 * 1000 * 1000

/-- `set_priority_deadline`: its result and the requests it issues. -/
def setPriorityDeadline (answer : Answer) (id : ℤ) : ℤ × List Request :=
  (if answer.accepted then 0 else -1, [.setattr (id + 1) deadlineAttr 0])

/-- `set_priority` for the thread that is the task `th`: its result and the requests it
issues. -/
def setPriority (env : Env N) (answer : Answer) (th id newPolicy newPriority : ℤ) :
    ℤ × List Request :=
  if newPolicy = schedDeadline then setPriorityDeadline answer id
  else if newPriority > env.priorityMax newPolicy ∨ newPriority < env.priorityMin newPolicy then
    (-1, [])
  else if answer.getschedparam = false then (-1, [])
  -- both ways out return -1
  else (-1, [.setschedparam th newPolicy newPriority])

/-- The attributes of the tasks there are, and the requests issued so far, each with the
index of the thread it is for. -/
structure State (N : ℕ) where
  tasks : ℤ → Option SchedAttr
  issued : List (Fin N × Request)

/-- One turn of the creation loop: `pthread_create` and `set_priority`. -/
def turn (env : Env N) (policies priorities : Fin N → ℤ) (s : State N) (i : Fin N) : State N :=
  let tasks := Function.update s.tasks (env.tid i) (s.tasks env.self)
  let requests := (setPriority env (env.answer i) (env.tid i) i (policies i) (priorities i)).2
  { tasks := if (env.answer i).accepted then requests.foldl (Request.apply env.self) tasks
      else tasks
    issued := s.issued ++ requests.map (i, ·) }

/-- The loop with turns for the given threads. -/
def afterTurns (env : Env N) (policies priorities : Fin N → ℤ) (is : List (Fin N)) : State N :=
  is.foldl (turn env policies priorities) { tasks := env.tasks, issued := [] }

/-- The whole loop. -/
def afterLoop (env : Env N) (policies priorities : Fin N → ℤ) : State N :=
  afterTurns env policies priorities (List.finRange N)

/-- Every request of a turn goes to the thread created in it, the tasks that are no new
threads keep their attributes, and a new thread has the policy that has been asked for it
if the request was accepted. -/
structure TouchesOwn (env : Env N) (policies priorities : Fin N → ℤ) : Prop where
  addressed : ∀ i r, (i, r) ∈ (afterLoop env policies priorities).issued →
    r.target env.self = env.tid i
  frame : ∀ x, (∀ i, x ≠ env.tid i) →
    (afterLoop env policies priorities).tasks x = env.tasks x
  policy : ∀ i r, (i, r) ∈ (afterLoop env policies priorities).issued →
    (env.answer i).accepted →
    ((afterLoop env policies priorities).tasks (env.tid i)).map SchedAttr.schedPolicy =
      some (policies i)

variable {env : Env N} {policies priorities : Fin N → ℤ} {is : List (Fin N)} {i k : Fin N}
  {r : Request} {s : State N} {answer : Answer} {x th id newPolicy newPriority : ℤ}

/-! ### The requests -/

/-- There is at most one request. It asks for the policy given, and unless this is
`SCHED_DEADLINE` it goes to the thread given. -/
theorem setPriority_spec (env : Env N) (answer : Answer) (th id newPolicy newPriority : ℤ) :
    (setPriority env answer th id newPolicy newPriority).2 = [] ∨
      ∃ r, (setPriority env answer th id newPolicy newPriority).2 = [r] ∧
        r.policy = newPolicy ∧ (newPolicy ≠ schedDeadline → r.target env.self = th) ∧
        (newPolicy = schedDeadline → r = .setattr (id + 1) deadlineAttr 0) := by
  rw [setPriority]
  split_ifs with hdeadline hrange hget
  · exact Or.inr ⟨_, rfl, hdeadline.symm, fun hne => absurd hdeadline hne, fun _ => rfl⟩
  · exact Or.inl rfl
  · exact Or.inl rfl
  · exact Or.inr ⟨_, rfl, rfl, fun _ => rfl, fun heq => absurd heq hdeadline⟩

theorem Request.apply_of_ne {self : ℤ} {tasks : ℤ → Option SchedAttr} (h : x ≠ r.target self) :
    r.apply self tasks x = tasks x :=
  Function.update_of_ne h _ _

theorem Request.policy_apply {self : ℤ} {tasks : ℤ → Option SchedAttr}
    (h : (tasks (r.target self)).isSome) :
    (r.apply self tasks (r.target self)).map SchedAttr.schedPolicy = some r.policy := by
  obtain ⟨attr, hattr⟩ := Option.isSome_iff_exists.mp h
  rw [Request.apply, Function.update_self, hattr]
  cases r <;> rfl

theorem Request.isSome_apply {self : ℤ} {tasks : ℤ → Option SchedAttr} (h : (tasks x).isSome) :
    (r.apply self tasks x).isSome := by
  by_cases hx : x = r.target self
  · subst hx
    rw [Request.apply, Function.update_self, Option.isSome_map]
    exact h
  · rwa [Request.apply_of_ne hx]

/-! ### One turn -/

/-- The number in a request for `SCHED_DEADLINE` is that of the thread. -/
def IdsFollow (env : Env N) (policies : Fin N → ℤ) : Prop :=
  ∀ i : Fin N, policies i = schedDeadline → env.tid i = i + 1

/-- A turn issues no request, or one for the policy of its thread. -/
theorem turn_cases (env : Env N) (policies priorities : Fin N → ℤ) (s : State N) (i : Fin N) :
    let created := Function.update s.tasks (env.tid i) (s.tasks env.self)
    turn env policies priorities s i = { s with tasks := created } ∨
      ∃ r, turn env policies priorities s i =
          { tasks := if (env.answer i).accepted then r.apply env.self created else created
            issued := s.issued ++ [(i, r)] } ∧
        r.policy = policies i ∧ (policies i ≠ schedDeadline → r.target env.self = env.tid i) ∧
        (policies i = schedDeadline → r = .setattr (i + 1) deadlineAttr 0) := by
  intro created
  rcases setPriority_spec env (env.answer i) (env.tid i) i (policies i) (priorities i) with
    hnone | ⟨r, hr, hspec⟩
  · left
    rw [turn, hnone]
    simp [created]
  · right
    refine ⟨r, ?_, hspec⟩
    rw [turn, hr]
    rfl

/-- The request for `SCHED_DEADLINE` goes to the task whose number is one more than the
index of the thread. -/
theorem target_setattr (self : ℤ) (i : Fin N) (flags : ℕ) :
    (Request.setattr (i + 1) deadlineAttr flags).target self = i + 1 := by
  rw [Request.target, if_neg (by omega)]

/-- What holds after turns for some of the threads. -/
structure Touched (env : Env N) (policies : Fin N → ℤ) (is : List (Fin N)) (s : State N) :
    Prop where
  self_isSome : (s.tasks env.self).isSome
  issued : ∀ i r, (i, r) ∈ s.issued → i ∈ is ∧ r.target env.self = env.tid i
  frame : ∀ x, (∀ i ∈ is, x ≠ env.tid i) → s.tasks x = env.tasks x
  policy : ∀ i r, (i, r) ∈ s.issued → (env.answer i).accepted →
    (s.tasks (env.tid i)).map SchedAttr.schedPolicy = some (policies i)

/-- The creation of a thread touches only its task. -/
theorem Touched.create (h : Touched env policies is s) (hi : i ∉ is) :
    Touched env policies (is ++ [i])
      { s with tasks := Function.update s.tasks (env.tid i) (s.tasks env.self) } where
  self_isSome := by
    have hself := h.self_isSome
    simp only
    by_cases heq : env.self = env.tid i
    · rw [heq] at hself ⊢
      rwa [Function.update_self]
    · rwa [Function.update_of_ne heq]
  issued k r hk := by
    obtain ⟨hmem, htarget⟩ := h.issued k r hk
    exact ⟨List.mem_append_left _ hmem, htarget⟩
  frame x hx := by
    simp only
    rw [Function.update_of_ne (hx i (by simp))]
    exact h.frame x fun k hk => hx k (List.mem_append_left _ hk)
  policy k r hk haccepted := by
    have hne : env.tid k ≠ env.tid i := fun heq =>
      hi (env.tid_injective heq ▸ (h.issued k r hk).1)
    simp only
    rw [Function.update_of_ne hne]
    exact h.policy k r hk haccepted

/-- A request that goes to the thread just created touches only its task. -/
theorem Touched.request (h : Touched env policies (is ++ [i]) s) (hi : i ∉ is)
    (hbefore : ∀ k r, (k, r) ∈ s.issued → k ∈ is) (hexists : (s.tasks (env.tid i)).isSome)
    (htarget : r.target env.self = env.tid i) (hpolicy : r.policy = policies i) :
    Touched env policies (is ++ [i])
      { tasks := if (env.answer i).accepted then r.apply env.self s.tasks else s.tasks
        issued := s.issued ++ [(i, r)] } where
  self_isSome := by
    split_ifs
    · exact Request.isSome_apply h.self_isSome
    · exact h.self_isSome
  issued k q hk := by
    rw [List.mem_append, List.mem_singleton] at hk
    rcases hk with hk | hk
    · exact h.issued k q hk
    · obtain ⟨rfl, rfl⟩ := Prod.mk.inj hk
      exact ⟨by simp, htarget⟩
  frame x hx := by
    rw [← h.frame x hx]
    split_ifs
    · exact Request.apply_of_ne (htarget ▸ hx i (by simp))
    · rfl
  policy k q hk haccepted := by
    rw [List.mem_append, List.mem_singleton] at hk
    rcases hk with hk | hk
    · have hne : env.tid k ≠ r.target env.self := by
        rw [htarget]
        exact fun heq => hi (env.tid_injective heq ▸ hbefore k q hk)
      rw [← h.policy k q hk haccepted]
      split_ifs
      · exact congrArg _ (Request.apply_of_ne hne)
      · rfl
    · obtain ⟨rfl, rfl⟩ := Prod.mk.inj hk
      rw [if_pos haccepted, ← htarget, Request.policy_apply (htarget ▸ hexists), hpolicy]

/-- One turn touches only the thread it creates. -/
theorem Touched.turn (h : Touched env policies is s) (hids : IdsFollow env policies)
    (hi : i ∉ is) : Touched env policies (is ++ [i]) (turn env policies priorities s i) := by
  have hcreated := h.create hi
  rcases turn_cases env policies priorities s i with heq | ⟨r, heq, hpolicy, hother, hdeadline⟩
  · rwa [heq]
  · rw [heq]
    refine hcreated.request hi (fun k q hk => (h.issued k q hk).1) ?_ ?_ hpolicy
    · simpa using h.self_isSome
    · by_cases hp : policies i = schedDeadline
      · rw [hdeadline hp, target_setattr, hids i hp]
      · exact hother hp

/-! ### The loop -/

theorem afterTurns_append_singleton (env : Env N) (policies priorities : Fin N → ℤ)
    (is : List (Fin N)) (i : Fin N) : afterTurns env policies priorities (is ++ [i]) =
      turn env policies priorities (afterTurns env policies priorities is) i := by
  simp [afterTurns]

theorem touched_afterTurns (hids : IdsFollow env policies) (his : is.Nodup) :
    Touched env policies is (afterTurns env policies priorities is) := by
  induction is using List.reverseRecOn with
  | nil => exact ⟨env.self_isSome, by simp [afterTurns], fun _ _ => rfl, by simp [afterTurns]⟩
  | append_singleton is i ih =>
    rw [List.nodup_append_comm, List.singleton_append, List.nodup_cons] at his
    rw [afterTurns_append_singleton]
    exact (ih his.2).turn hids his.1

/-- The requests of the turns so far stay issued. -/
theorem mem_issued_turn {e : Fin N × Request} (h : e ∈ s.issued) :
    e ∈ (turn env policies priorities s i).issued :=
  List.mem_append_left _ h

/-- A thread for `SCHED_DEADLINE` has its request issued. -/
theorem mem_issued_of_deadline (hmem : i ∈ is) (hi : policies i = schedDeadline) :
    (i, Request.setattr (i + 1) deadlineAttr 0) ∈
      (afterTurns env policies priorities is).issued := by
  induction is using List.reverseRecOn with
  | nil => simp at hmem
  | append_singleton is k ih =>
    rw [afterTurns_append_singleton]
    rw [List.mem_append, List.mem_singleton] at hmem
    rcases hmem with hmem | rfl
    · exact mem_issued_turn (ih hmem)
    · simp [turn, setPriority, hi, setPriorityDeadline]

/-- Only the new threads are touched, and each by its own requests, exactly when the kernel
gives every thread for `SCHED_DEADLINE` the task number that is computed from its index. -/
theorem touchesOwn_iff (env : Env N) (policies priorities : Fin N → ℤ) :
    TouchesOwn env policies priorities ↔
      ∀ i : Fin N, policies i = schedDeadline → env.tid i = i + 1 := by
  constructor
  · intro h i hi
    have hissued : (i, Request.setattr (i + 1) deadlineAttr 0) ∈
        (afterLoop env policies priorities).issued :=
      mem_issued_of_deadline (List.mem_finRange i) hi
    rw [← h.addressed i _ hissued, target_setattr]
  · intro hids
    have htouched : Touched env policies (List.finRange N) (afterLoop env policies priorities) :=
      touched_afterTurns hids (List.nodup_finRange N)
    exact {
      addressed := fun i r hr => (htouched.issued i r hr).2
      frame := fun x hx => htouched.frame x fun i _ => hx i
      policy := htouched.policy }

/-- One thread, which becomes task 137, while task 1 is another process. -/
def oneThread : Env 1 where
  tasks x := if x = 1 ∨ x = 136 then some { deadlineAttr with schedPolicy := 0 } else none
  self := 136
  self_isSome := by decide
  tid _ := 137
  tid_injective := Function.injective_of_subsingleton _
  priorityMax _ := 0
  priorityMin _ := 0
  answer _ := { getschedparam := true, accepted := true }

/-- The request for the thread reschedules task 1. -/
theorem other_task_touched :
    (oneThread.tasks 1).map SchedAttr.schedPolicy = some 0 ∧
      ((afterLoop oneThread (fun _ => schedDeadline) fun _ => 0).tasks 1).map
        SchedAttr.schedPolicy = some schedDeadline ∧
      ((afterLoop oneThread (fun _ => schedDeadline) fun _ => 0).tasks 137).map
        SchedAttr.schedPolicy = some 0 ∧
      ¬ TouchesOwn oneThread (fun _ => schedDeadline) fun _ => 0 := by
  refine ⟨by decide, by decide, by decide, fun h => ?_⟩
  have hframe := h.frame 1 fun _ => (by decide : (1 : ℤ) ≠ 137)
  exact absurd hframe (by decide)

end Sisop.ThreadRunner.Scheduling
