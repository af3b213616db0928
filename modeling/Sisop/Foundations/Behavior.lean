import Mathlib.Logic.Encodable.Basic
import Mathlib.Data.Nat.Pairing
import Sisop.Foundations.Transition

/-!
# Infinite behaviours and fairness

A behaviour of a machine goes on for ever: at every moment the machine takes a
labelled step or stays where it is. What has to happen sooner or later is said of
the moments of a behaviour, and it needs fairness: a group of labels that is wanted
from some moment on without a break is taken again.

The rules for `LeadsTo` speak about moments only, not about machines. The one rule
that uses fairness asks for a measure, which every fair step lowers and no other step
raises.

## Main definitions

* `LeadsTo` — from every moment of one kind on a moment of another follows
* `Machine.Behavior` — an infinite behaviour with its labels
* `Machine.Behavior.WeaklyFair` — weak fairness towards a group of labels

## Main results

* `LeadsTo.of_fair` — fair steps that lower a measure come to an end
* `Machine.exists_fair_behavior` — fair behaviours start in every state
-/

namespace Sisop.Foundations

/-- From every moment of `P` on a moment of `Q` follows. -/
def LeadsTo (P Q : ℕ → Prop) : Prop := ∀ n, P n → ∃ m, n ≤ m ∧ Q m

namespace LeadsTo

variable {P P' Q Q' R : ℕ → Prop}

theorem of_imp (h : ∀ n, P n → Q n) : LeadsTo P Q := fun n hn => ⟨n, le_rfl, h n hn⟩

theorem trans (hleft : LeadsTo P Q) (hright : LeadsTo Q R) : LeadsTo P R := by
  intro n hn
  obtain ⟨m, hnm, hm⟩ := hleft n hn
  obtain ⟨k, hmk, hk⟩ := hright m hm
  exact ⟨k, hnm.trans hmk, hk⟩

theorem mono (h : LeadsTo P Q) (hP : ∀ n, P' n → P n) (hQ : ∀ n, Q n → Q' n) :
    LeadsTo P' Q' := ((of_imp hP).trans h).trans (of_imp hQ)

/-- A measure that sinks from moment to moment of `P` as long as `Q` does not come. -/
theorem of_measure (measure : ℕ → ℕ)
    (h : ∀ k, LeadsTo (fun n => P n ∧ measure n = k) fun n => Q n ∨ P n ∧ measure n < k) :
    LeadsTo P Q := by
  intro n hn
  induction hk : measure n using Nat.strongRecOn generalizing n with
  | ind k ih =>
    obtain ⟨m, hnm, hm | ⟨hm, hless⟩⟩ := h k n ⟨hn, hk⟩
    · exact ⟨m, hnm, hm⟩
    · obtain ⟨l, hml, hl⟩ := ih (measure m) hless m hm rfl
      exact ⟨l, hnm.trans hml, hl⟩

/-- The rule for fairness. While `P` holds and `Q` has not come, the fair steps are
wanted; each of them lowers the measure and no other step raises it. -/
theorem of_fair {taken wants : ℕ → Prop} (measure : ℕ → ℕ)
    (hfair : ∀ n, ∃ m, n ≤ m ∧ (taken m ∨ ¬ wants m)) (hwants : ∀ n, P n → wants n)
    (hstep : ∀ n, P n → Q (n + 1) ∨ P (n + 1) ∧
      (measure (n + 1) < measure n ∨ ¬ taken n ∧ measure (n + 1) = measure n)) :
    LeadsTo P Q := by
  refine of_measure measure fun k n ⟨hn, hk⟩ => ?_
  obtain ⟨m, hnm, hm⟩ := hfair n
  by_contra hnever
  push Not at hnever
  -- until the fair step at `m` nothing changes
  have hsame : ∀ l, n ≤ l → l ≤ m → P l ∧ measure l = k := by
    intro l hnl
    induction l, hnl using Nat.le_induction with
    | base => exact fun _ => ⟨hn, hk⟩
    | succ l hnl ih =>
      intro hlm
      obtain ⟨hl, hkl⟩ := ih (by omega)
      have hnext := hnever (l + 1) (by omega)
      rcases hstep l hl with hq | ⟨hp, hless | ⟨-, heq⟩⟩
      · exact absurd hq hnext.1
      · have := hnext.2 hp
        omega
      · exact ⟨hp, heq.trans hkl⟩
  obtain ⟨hPm, hkm⟩ := hsame m hnm le_rfl
  have htaken : taken m := hm.resolve_right (not_not_intro (hwants m hPm))
  have hnext := hnever (m + 1) (by omega)
  rcases hstep m hPm with hq | ⟨hp, hless | ⟨hnot, -⟩⟩
  · exact hnext.1 hq
  · have := hnext.2 hp
    omega
  · exact hnot htaken

end LeadsTo

namespace Machine

variable {σ α : Type*} {M : Machine σ α}

/-- A step with its label, or none. -/
def StepOrStay (M : Machine σ α) (s : σ) : Option α → σ → Prop
  | some a, t => M.step s a t
  | none, t => t = s

/-- An infinite behaviour, which need not start in an initial state. -/
structure Behavior (M : Machine σ α) where
  state : ℕ → σ
  label : ℕ → Option α
  next : ∀ n, M.StepOrStay (state n) (label n) (state (n + 1))

/-- Some step of the group is possible. -/
def Enabled (M : Machine σ α) (group : α → Prop) (s : σ) : Prop :=
  ∃ a t, group a ∧ M.step s a t

namespace Behavior

variable (b : M.Behavior)

/-- At moment `n` a step of the group is taken. -/
def Takes (group : α → Prop) (n : ℕ) : Prop := ∃ a, b.label n = some a ∧ group a

/-- Weak fairness: unless it is no longer wanted, a step of the group is taken. -/
def WeaklyFair (group : α → Prop) (wants : σ → Prop) : Prop :=
  ∀ n, ∃ m, n ≤ m ∧ (b.Takes group m ∨ ¬ wants (b.state m))

/-- The behaviour from moment `k` on. -/
def drop (k : ℕ) : M.Behavior where
  state n := b.state (k + n)
  label n := b.label (k + n)
  next n := b.next (k + n)

variable {b} {group : α → Prop} {wants wants' : σ → Prop} {I P Q : σ → Prop}

theorem WeaklyFair.drop (h : b.WeaklyFair group wants) (k : ℕ) :
    (b.drop k).WeaklyFair group wants := by
  intro n
  obtain ⟨m, hm, htaken⟩ := h (k + n)
  refine ⟨m - k, by omega, ?_⟩
  have heq : k + (m - k) = m := by omega
  simpa only [Takes, Behavior.drop, heq] using htaken

theorem WeaklyFair.mono (h : b.WeaklyFair group wants)
    (himp : ∀ n, wants' (b.state n) → wants (b.state n)) : b.WeaklyFair group wants' := by
  intro n
  obtain ⟨m, hnm, hm⟩ := h n
  exact ⟨m, hnm, hm.imp_right fun hnot hw => hnot (himp m hw)⟩

/-- At every moment the state stays or a step is taken. -/
theorem next_cases (b : M.Behavior) (n : ℕ) :
    b.label n = none ∧ b.state (n + 1) = b.state n ∨
      ∃ a, b.label n = some a ∧ M.step (b.state n) a (b.state (n + 1)) := by
  have hnext := b.next n
  cases hlabel : b.label n with
  | none =>
    rw [hlabel] at hnext
    exact Or.inl ⟨rfl, hnext⟩
  | some a =>
    rw [hlabel] at hnext
    exact Or.inr ⟨a, rfl, hnext⟩

/-- What every step preserves holds from every moment of it on. -/
theorem invariant_from (hstep : ∀ {s a t}, M.step s a t → I s → I t) {n m : ℕ}
    (hn : I (b.state n)) (hnm : n ≤ m) : I (b.state m) := by
  induction m, hnm using Nat.le_induction with
  | base => exact hn
  | succ m _ ih =>
    rcases b.next_cases m with ⟨-, hsame⟩ | ⟨a, -, hnext⟩
    · rwa [hsame]
    · exact hstep hnext ih

theorem reachable (h : M.Reachable (b.state 0)) (n : ℕ) : M.Reachable (b.state n) :=
  b.invariant_from (I := M.Reachable) (fun hstep hs => hs.step hstep) h (Nat.zero_le n)

/-- Two moments of a behaviour are joined by a run. -/
theorem exists_run {n m : ℕ} (hnm : n ≤ m) : ∃ w, M.Run (b.state n) w (b.state m) :=
  b.invariant_from (I := fun t => ∃ w, M.Run (b.state n) w t)
    (fun hstep ⟨_, hrun⟩ => ⟨_, hrun.snoc hstep⟩) ⟨[], .refl _⟩ hnm

/-- The rule for fairness, for the states of a behaviour that keeps an invariant. -/
theorem leadsTo_of_fair (measure : σ → ℕ) (hI : ∀ n, I (b.state n))
    (hfair : b.WeaklyFair group wants) (hwants : ∀ s, I s → P s → wants s)
    (hstep : ∀ s a t, I s → I t → P s → M.step s a t →
      Q t ∨ P t ∧ (measure t < measure s ∨ ¬ group a ∧ measure t = measure s)) :
    LeadsTo (fun n => P (b.state n)) fun n => Q (b.state n) := by
  refine LeadsTo.of_fair (fun n => measure (b.state n)) hfair
    (fun n hn => hwants _ (hI n) hn) fun n hn => ?_
  rcases b.next_cases n with ⟨hlabel, hsame⟩ | ⟨a, hlabel, hnext⟩
  · rw [hsame]
    exact Or.inr ⟨hn, Or.inr ⟨by simp [Takes, hlabel], rfl⟩⟩
  · rcases hstep _ a _ (hI n) (hI (n + 1)) hn hnext with hq | ⟨hp, hless | ⟨hnot, heq⟩⟩
    · exact Or.inl hq
    · exact Or.inr ⟨hp, Or.inl hless⟩
    · refine Or.inr ⟨hp, Or.inr ⟨?_, heq⟩⟩
      rintro ⟨a', ha', hgroup⟩
      rw [hlabel] at ha'
      exact hnot (Option.some.inj ha' ▸ hgroup)

end Behavior

section Scheduler

variable {ι : Type*} [Encodable ι] (M) (group : ι → α → Prop)

open Classical in
/-- The group whose turn it is at moment `n` takes a step if it can. -/
noncomputable def scheduled (n : ℕ) (s : σ) : Option α × σ :=
  match Encodable.decode (α := ι) n.unpair.1 with
  | some i =>
    if h : M.Enabled (group i) s then (some h.choose, h.choose_spec.choose) else (none, s)
  | none => (none, s)

theorem stepOrStay_scheduled (n : ℕ) (s : σ) :
    M.StepOrStay s (M.scheduled group n s).1 (M.scheduled group n s).2 := by
  unfold scheduled
  split
  · split_ifs with h
    · exact h.choose_spec.choose_spec.2
    · rfl
  · rfl

/-- At the turn of an enabled group a step of it is taken. -/
theorem scheduled_of_enabled {n : ℕ} {s : σ} {i : ι} (hn : n.unpair.1 = Encodable.encode i)
    (hs : M.Enabled (group i) s) : ∃ a, (M.scheduled group n s).1 = some a ∧ group i a := by
  refine ⟨hs.choose, ?_, hs.choose_spec.choose_spec.1⟩
  simp [scheduled, hn, hs]

/-- From every state on there is a behaviour that is fair to every group: the groups get
their turns, each of them infinitely often. -/
theorem exists_fair_behavior (s : σ) :
    ∃ b : M.Behavior, b.state 0 = s ∧ ∀ i, b.WeaklyFair (group i) (M.Enabled (group i)) := by
  let state : ℕ → σ := Nat.rec s fun n s => (M.scheduled group n s).2
  refine ⟨⟨state, fun n => (M.scheduled group n (state n)).1, fun n =>
    M.stepOrStay_scheduled group n (state n)⟩, rfl, fun i n => ?_⟩
  refine ⟨Nat.pair (Encodable.encode i) n, Nat.right_le_pair _ _, ?_⟩
  by_cases henabled : M.Enabled (group i) (state (Nat.pair (Encodable.encode i) n))
  · exact Or.inl (M.scheduled_of_enabled group (by simp) henabled)
  · exact Or.inr henabled

end Scheduler

end Machine

end Sisop.Foundations
