import Mathlib.Data.Finset.Max
import Mathlib.Data.Fintype.Card
import Mathlib.Tactic.Common
import Sisop.Foundations.Transition

/-!
# Peterson's filter lock with one-at-a-time scans

Contenders climb through `card P - 1` levels. At each level a contender announces
the level, makes itself the level's victim, and waits until another contender has
become the victim or it has seen every other contender below the level. The other
contenders are looked at one at a time and in any order, and they may move between
two looks: no snapshot is taken.

Three counters of a contender's control drive the argument: the level it has
announced, the last level whose victim write it has done (`entered`), and the last
level whose waiting it has left (`passed`). The invariant says of each level that
its victim, if anybody has entered the level, has entered it too, and has left the
waiting only if nobody else has entered. Two facts follow: each level holds at
least one contender back, and from every state some contender can be driven on.

## Main definitions

* `Control`, `State`, `Step` — the algorithm, one shared access a step
* `Invariant` — the inductive invariant

## Main results

* `Invariant.step` — every step preserves the invariant
* `Invariant.card_passed_le` — at most `card P - j` contenders are past level `j`
* `Invariant.exists_ready` — without an owner, some contender is not held back
-/

namespace Sisop.Foundations.FilterLock

variable {P : Type*}

/-- Where a contender is in the algorithm. -/
inductive Control (P : Type*)
  /-- Not competing. -/
  | outside
  /-- About to announce level `i`. -/
  | announce (i : ℕ)
  /-- About to become the victim of level `i`. -/
  | yield (i : ℕ)
  /-- About to look at the victim of level `i`. -/
  | wait (i : ℕ)
  /-- Has seen the contenders in `seen` below level `i`, one after the other. -/
  | scan (i : ℕ) (seen : Finset P)
  /-- Owns the lock. -/
  | inside

/-- The announced level and the control of every contender, and each level's victim. -/
structure State (P : Type*) where
  level : P → ℕ
  victim : ℕ → Option P
  control : P → Control P

section Moves

variable [DecidableEq P] {s : State P} {p q : P}

/-- Move one contender's control. -/
def State.goto (s : State P) (p : P) (c : Control P) : State P :=
  { s with control := Function.update s.control p c }

@[simp] theorem goto_level (c : Control P) : (s.goto p c).level = s.level := rfl

@[simp] theorem goto_victim (c : Control P) : (s.goto p c).victim = s.victim := rfl

@[simp] theorem goto_control_self (c : Control P) : (s.goto p c).control p = c := by
  simp [State.goto]

theorem goto_control_of_ne (c : Control P) (h : q ≠ p) :
    (s.goto p c).control q = s.control q := by
  simp [State.goto, h]

end Moves

variable [Fintype P]

/-- Start on level `i`, or own the lock when there is no such level. -/
def enter (P : Type*) [Fintype P] (i : ℕ) : Control P :=
  if i < Fintype.card P then .announce i else .inside

namespace Control

/-- The level a contender has announced. -/
def announced : Control P → ℕ
  | .outside => 0
  | .announce i => i - 1
  | .yield i | .wait i | .scan i _ => i
  | .inside => Fintype.card P - 1

/-- The last level of which a contender has become the victim. -/
def entered : Control P → ℕ
  | .outside => 0
  | .announce i | .yield i => i - 1
  | .wait i | .scan i _ => i
  | .inside => Fintype.card P - 1

/-- The last level whose waiting a contender has left. -/
def passed : Control P → ℕ
  | .outside => 0
  | .announce i | .yield i | .wait i | .scan i _ => i - 1
  | .inside => Fintype.card P - 1

/-- The level a contender works at is one of `1, ..., card P - 1`. -/
def InRange : Control P → Prop
  | .announce i | .yield i | .wait i | .scan i _ => 1 ≤ i ∧ i < Fintype.card P
  | .outside | .inside => True

theorem passed_le_entered (c : Control P) : c.passed ≤ c.entered := by
  cases c <;> simp [passed, entered]

theorem entered_le_announced (c : Control P) : c.entered ≤ c.announced := by
  cases c <;> simp [entered, announced]

/-- Becoming a level's victim needs the levels below it passed. -/
theorem entered_le_passed_succ (c : Control P) : c.entered ≤ c.passed + 1 := by
  cases c <;> simp [passed, entered] <;> omega

theorem inRange_enter {i : ℕ} (h : 1 ≤ i) : (enter P i).InRange := by
  unfold enter
  split_ifs with hi
  · exact ⟨h, hi⟩
  · trivial

/-- Leaving the waiting of level `i` leaves the three counters at `i`. -/
theorem counters_enter_succ {i : ℕ} (h : i < Fintype.card P) :
    (enter P (i + 1)).announced = i ∧ (enter P (i + 1)).entered = i ∧
      (enter P (i + 1)).passed = i := by
  unfold enter
  split_ifs with hi
  · simp [announced, entered, passed]
  · simp only [announced, entered, passed]
    omega

/-- A request leaves the three counters at zero. -/
theorem counters_enter_one (h : 0 < Fintype.card P) :
    (enter P 1).announced = 0 ∧ (enter P 1).entered = 0 ∧ (enter P 1).passed = 0 :=
  counters_enter_succ h

end Control

variable [DecidableEq P] {s t : State P} {p q : P} {i j : ℕ} {seen : Finset P}

/-- One step of contender `p`: at most one shared access. -/
inductive Step : State P → P → State P → Prop
  | request {s : State P} {p : P} (at_control : s.control p = .outside) :
      Step s p (s.goto p (enter P 1))
  | announce {s : State P} {p : P} {i : ℕ} (at_control : s.control p = .announce i) :
      Step s p ({ s with level := Function.update s.level p i }.goto p (.yield i))
  | yield {s : State P} {p : P} {i : ℕ} (at_control : s.control p = .yield i) :
      Step s p ({ s with victim := Function.update s.victim i (some p) }.goto p (.wait i))
  -- another contender has become the victim of the level
  | displaced {s : State P} {p : P} {i : ℕ} (at_control : s.control p = .wait i)
      (other : s.victim i ≠ some p) : Step s p (s.goto p (enter P (i + 1)))
  -- a scan starts with nobody seen, even if it follows one that was given up
  | search {s : State P} {p : P} {i : ℕ} (at_control : s.control p = .wait i) :
      Step s p (s.goto p (.scan i ∅))
  | clear {s : State P} {p q : P} {i : ℕ} {seen : Finset P}
      (at_control : s.control p = .scan i seen) (below : s.level q < i) :
      Step s p (s.goto p (.scan i (insert q seen)))
  -- a scan may be given up at any time, whatever it has seen
  | blocked {s : State P} {p : P} {i : ℕ} {seen : Finset P}
      (at_control : s.control p = .scan i seen) : Step s p (s.goto p (.wait i))
  | pass {s : State P} {p : P} {i : ℕ} {seen : Finset P}
      (at_control : s.control p = .scan i seen) (all : ∀ q, q ≠ p → q ∈ seen) :
      Step s p (s.goto p (enter P (i + 1)))
  | leave {s : State P} {p : P} (at_control : s.control p = .inside) :
      Step s p ({ s with level := Function.update s.level p 0 }.goto p .outside)

/-- The lock as a machine: at the start nobody competes and no level has a victim
that matters. -/
def machine (P : Type*) [Fintype P] [DecidableEq P] : Machine (State P) P where
  initial s := ∀ p, s.level p = 0 ∧ s.control p = .outside
  step := Step

/-- A step moves the control of its own contender only. -/
theorem Step.control_of_ne (hstep : Step s p t) (h : q ≠ p) : t.control q = s.control q := by
  cases hstep <;> exact goto_control_of_ne _ h

/-! ### The invariant -/

/-- Contender `p` has become the victim of level `j`. -/
def Entered (s : State P) (j : ℕ) (p : P) : Prop := j ≤ (s.control p).entered

/-- Contender `p` has left the waiting of level `j` and still counts as past it. -/
def Passed (s : State P) (j : ℕ) (p : P) : Prop := j ≤ (s.control p).passed

instance (s : State P) (j : ℕ) : DecidablePred (Passed s j) :=
  fun _ => inferInstanceAs (Decidable (_ ≤ _))

/-- The victim of an entered level has entered it, and is past it only when alone. -/
def Guarded (s : State P) (j : ℕ) : Prop :=
  ∀ p, Entered s j p → ∃ v, s.victim j = some v ∧ Entered s j v ∧
    (Passed s j v → ∀ q, Entered s j q → q = v)

/-- What holds in every reachable state. The last field carries the scans: while a
scanning contender is still its level's victim, nobody it has already seen below
the level can have entered the level since. -/
structure Invariant (s : State P) : Prop where
  range : ∀ p, (s.control p).InRange
  level_eq : ∀ p, s.level p = (s.control p).announced
  guarded : ∀ j, 1 ≤ j → Guarded s j
  scanned : ∀ p i seen, s.control p = .scan i seen → s.victim i = some p →
    ∀ q ∈ seen, q ≠ p → ¬ Entered s i q

omit [DecidableEq P] in
theorem Passed.entered (h : Passed s j p) : Entered s j p :=
  h.trans (Control.passed_le_entered _)

theorem Invariant.of_initial (h : (machine P).initial s) : Invariant s where
  range p := by rw [(h p).2]; trivial
  level_eq p := by rw [(h p).1, (h p).2]; rfl
  guarded j hj p hp := by
    rw [Entered, (h p).2, Control.entered] at hp
    omega
  scanned p i seen hscan := by rw [(h p).2] at hscan; cases hscan

omit [DecidableEq P] in
/-- A victim that would be past its level as soon as it enters it is alone there. -/
theorem Guarded.alone (hg : Guarded s j) (hv : s.victim j = some p)
    (hp : Entered s j p → Passed s j p) (hq : Entered s j q) : q = p := by
  obtain ⟨v, hv', hentered, halone⟩ := hg q hq
  obtain rfl : p = v := Option.some.inj (hv.symm.trans hv')
  exact halone (hp hentered) q hq

omit [DecidableEq P] in
/-- A move that writes no victim and enters nothing keeps a level guarded, provided
the mover, if it is the victim, is alone there or becomes no further past it. -/
theorem Guarded.move (hg : Guarded s j) (hvictim : t.victim j = s.victim j)
    (hother : ∀ q, q ≠ p → t.control q = s.control q)
    (hentered : Entered t j p → Entered s j p)
    (hself : s.victim j = some p → (∀ q, Entered s j q → q = p) ∨
      (Entered s j p → Entered t j p) ∧ (Passed t j p → Passed s j p)) : Guarded t j := by
  have hback : ∀ q, Entered t j q → Entered s j q := by
    intro q hq
    by_cases hqp : q = p
    · rw [hqp] at hq ⊢
      exact hentered hq
    · rwa [Entered, hother q hqp] at hq
  intro q hq
  obtain ⟨v, hv, hventered, halone⟩ := hg q (hback q hq)
  refine ⟨v, hvictim.trans hv, ?_⟩
  by_cases hvp : v = p
  · -- the mover is the victim
    subst hvp
    rcases hself hv with honly | ⟨hkeep, hpast⟩
    · obtain rfl := honly q (hback q hq)
      exact ⟨hq, fun _ r hr => honly r (hback r hr)⟩
    · exact ⟨hkeep hventered, fun hpassed r hr => halone (hpast hpassed) r (hback r hr)⟩
  · -- another contender is, and the move has not touched its counters
    have hsame := hother v hvp
    rw [Entered, Passed, hsame]
    exact ⟨hventered, fun hpassed r hr => halone hpassed r (hback r hr)⟩

/-- What a step does to the victims and to the mover's counters: it makes the mover
the victim of the level above those it has entered; or it takes the mover out,
from past every level; or it only moves `passed` up to level `i`, where the mover
was displaced or alone. -/
theorem Step.effect (hinv : Invariant s) (hstep : Step s p t) :
    (∃ i, 1 ≤ i ∧ t.victim = Function.update s.victim i (some p) ∧
      (s.control p).entered = i - 1 ∧ (t.control p).entered = i ∧
      (t.control p).passed = i - 1 ∧ (s.control p).passed = i - 1) ∨
    t.victim = s.victim ∧ (t.control p).entered = 0 ∧
      (s.control p).entered = (s.control p).passed ∨
    t.victim = s.victim ∧ (t.control p).entered = (s.control p).entered ∧
      ((t.control p).passed = (s.control p).passed ∨
        ∃ i, (s.control p).passed = i - 1 ∧ (t.control p).passed = i ∧
          (s.victim i = some p → ∀ q, Entered s i q → q = p)) := by
  have hrange := hinv.range p
  have hpos : 0 < Fintype.card P := Fintype.card_pos_iff.mpr ⟨p⟩
  cases hstep with
  | request hat =>
    have hcounters := Control.counters_enter_one (P := P) hpos
    right; right
    refine ⟨rfl, ?_, Or.inl ?_⟩ <;>
      simp only [goto_control_self, hat, hcounters] <;> rfl
  | announce hat | search hat | clear hat _ | blocked hat =>
    -- neither counter moves
    right; right
    refine ⟨rfl, ?_, Or.inl ?_⟩ <;> simp only [goto_control_self, hat] <;> rfl
  | @yield i hat =>
    rw [hat] at hrange
    left
    refine ⟨i, hrange.1, rfl, ?_, ?_, ?_, ?_⟩ <;> simp only [goto_control_self, hat] <;> rfl
  | @displaced i hat hother =>
    rw [hat] at hrange
    have hcounters := Control.counters_enter_succ hrange.2
    right; right
    refine ⟨rfl, ?_, Or.inr ⟨i, ?_, ?_, fun hv => absurd hv hother⟩⟩ <;>
      simp only [goto_control_self, hat, hcounters] <;> rfl
  | @pass i seen hat hall =>
    rw [hat] at hrange
    have hcounters := Control.counters_enter_succ hrange.2
    right; right
    refine ⟨rfl, ?_, Or.inr ⟨i, ?_, ?_, ?_⟩⟩
    · simp only [goto_control_self, hat, hcounters]; rfl
    · simp only [hat]; rfl
    · simp only [goto_control_self, hcounters]
    · intro hv q hq
      by_contra hne
      exact hinv.scanned p i seen hat hv q (hall q hne) hne hq
  | leave hat =>
    right; left
    refine ⟨rfl, ?_, ?_⟩ <;> simp only [goto_control_self, hat] <;> rfl

/-- One step keeps every level guarded. -/
theorem Guarded.step (hinv : Invariant s) (hstep : Step s p t) (hj : 1 ≤ j) :
    Guarded t j := by
  have hother : ∀ q, q ≠ p → t.control q = s.control q := fun q hq => hstep.control_of_ne hq
  rcases hstep.effect hinv with ⟨i, hi, hvictim, hbefore, hafter, hpast, hpast'⟩ |
    ⟨hvictim, hafter, hbefore⟩ | ⟨hvictim, hsame, hpast⟩
  · by_cases hij : j = i
    · -- the mover is the victim of the level it has just entered
      subst hij
      intro q _
      refine ⟨p, by simp [hvictim], hafter.ge, ?_⟩
      intro hpassed
      rw [Passed, hpast] at hpassed
      omega
    · -- other levels see neither the victim write nor a counter cross them
      refine (hinv.guarded j hj).move (by simp [hvictim, hij]) hother ?_ ?_
      · rw [Entered, Entered, hbefore, hafter]
        omega
      · intro _
        right
        rw [Entered, Entered, Passed, Passed, hbefore, hafter, hpast, hpast']
        omega
  · -- who leaves the lock was past every level, so it was alone where it was the victim
    refine (hinv.guarded j hj).move (by rw [hvictim]) hother ?_ ?_
    · rw [Entered, hafter]
      omega
    · intro hv
      left
      intro q hq
      refine (hinv.guarded j hj).alone hv ?_ hq
      rw [Entered, Passed, hbefore]
      exact id
  · refine (hinv.guarded j hj).move (by rw [hvictim]) hother
      (by rw [Entered, Entered, hsame]; exact id) ?_
    intro hv
    rw [Entered, Entered, hsame, Passed, Passed]
    rcases hpast with hpast | ⟨i, hbefore, hafter, halone⟩
    · exact Or.inr ⟨id, by rw [hpast]; exact id⟩
    · by_cases hij : j = i
      · -- the level just passed: the mover was displaced, or its scan has found it alone
        subst hij
        exact Or.inl (halone hv)
      · refine Or.inr ⟨id, ?_⟩
        omega

/-- One step keeps what the scans have seen. -/
theorem scanned_step (hinv : Invariant s) (hstep : Step s p t) {r : P}
    (hscan : t.control r = .scan i seen) (hv : t.victim i = some r) (hq : q ∈ seen)
    (hqr : q ≠ r) : ¬ Entered t i q := by
  by_cases hrp : r = p
  · -- the scanning contender moves: only a look adds to what it has seen
    subst hrp
    have hsame : t.control q = s.control q := hstep.control_of_ne hqr
    rw [Entered, hsame]
    cases hstep with
    | @clear x i' seen' hat hbelow =>
      rw [goto_control_self] at hscan
      obtain ⟨rfl, rfl⟩ := Control.scan.inj hscan
      rcases Finset.mem_insert.mp hq with rfl | hold
      · rw [hinv.level_eq] at hbelow
        exact not_le.mpr ((Control.entered_le_announced _).trans_lt hbelow)
      · exact hinv.scanned r i' seen' hat hv q hold hqr
    | search _ =>
      rw [goto_control_self] at hscan
      obtain ⟨-, rfl⟩ := Control.scan.inj hscan
      simp at hq
    | request _ | displaced _ _ | pass _ _ =>
      rw [goto_control_self, enter] at hscan
      split_ifs at hscan
    | announce _ | yield _ | blocked _ | leave _ =>
      rw [goto_control_self] at hscan
      cases hscan
  · have hscan' : s.control r = .scan i seen := (hstep.control_of_ne hrp).symm.trans hscan
    have hi : 1 ≤ i := by
      have hrange := hinv.range r
      rw [hscan'] at hrange
      exact hrange.1
    by_cases hqp : q = p
    · -- a contender that was seen moves: entering would make it the victim
      subst hqp
      rw [Entered]
      rcases hstep.effect hinv with ⟨i', hi', hvictim, hbefore, hafter, -⟩ |
        ⟨hvictim, hafter, -⟩ | ⟨hvictim, hsame, -⟩
      · have hne : i ≠ i' := by
          rintro rfl
          rw [hvictim, Function.update_self] at hv
          exact hqr (Option.some.inj hv)
        rw [hvictim, Function.update_of_ne hne] at hv
        have hold := hinv.scanned r i seen hscan' hv q hq hqr
        rw [Entered, hbefore] at hold
        omega
      · omega
      · rw [hvictim] at hv
        have hold := hinv.scanned r i seen hscan' hv q hq hqr
        rwa [Entered, ← hsame] at hold
    · rw [Entered, hstep.control_of_ne hqp]
      refine hinv.scanned r i seen hscan' ?_ q hq hqr
      rcases hstep.effect hinv with ⟨i', hi', hvictim, -⟩ | ⟨hvictim, -⟩ | ⟨hvictim, -⟩
      · have hne : i ≠ i' := by
          rintro rfl
          rw [hvictim, Function.update_self] at hv
          exact hrp (Option.some.inj hv).symm
        rwa [hvictim, Function.update_of_ne hne] at hv
      · rwa [hvictim] at hv
      · rwa [hvictim] at hv

/-- A step keeps every control in range and every level announced. -/
theorem Step.announced (hinv : Invariant s) (hstep : Step s p t) (q : P) :
    (t.control q).InRange ∧ t.level q = (t.control q).announced := by
  have hpos : 0 < Fintype.card P := Fintype.card_pos_iff.mpr ⟨p⟩
  have hrange := hinv.range p
  have hlevel := hinv.level_eq p
  by_cases hqp : q = p
  · subst hqp
    cases hstep with
    | request hat =>
      rw [hat] at hlevel
      rw [goto_control_self, goto_level, hlevel, (Control.counters_enter_one hpos).1]
      exact ⟨Control.inRange_enter le_rfl, rfl⟩
    | announce hat =>
      rw [hat] at hrange
      rw [goto_control_self, goto_level]
      exact ⟨hrange, Function.update_self ..⟩
    | displaced hat _ | pass hat _ =>
      rw [hat] at hrange hlevel
      rw [goto_control_self, goto_level, hlevel, (Control.counters_enter_succ hrange.2).1]
      exact ⟨Control.inRange_enter (by omega), rfl⟩
    | yield hat | search hat | clear hat _ | blocked hat =>
      rw [hat] at hrange hlevel
      rw [goto_control_self, goto_level]
      exact ⟨hrange, hlevel⟩
    | leave hat =>
      rw [goto_control_self, goto_level]
      exact ⟨trivial, Function.update_self ..⟩
  · have hlevel' : t.level q = s.level q := by
      cases hstep <;> simp [hqp]
    rw [hstep.control_of_ne hqp, hlevel']
    exact ⟨hinv.range q, hinv.level_eq q⟩

/-- Every step preserves the invariant. -/
theorem Invariant.step (hinv : Invariant s) (hstep : Step s p t) : Invariant t where
  range q := (hstep.announced hinv q).1
  level_eq q := (hstep.announced hinv q).2
  guarded _ hj := Guarded.step hinv hstep hj
  scanned _ _ _ hscan hv _ hq hqr := scanned_step hinv hstep hscan hv hq hqr

theorem Invariant.of_reachable (h : (machine P).Reachable s) : Invariant s :=
  h.invariant Invariant.of_initial fun hstep hinv => hinv.step hstep

/-- Contender `p` waits at level `i`. -/
def WaitsAt (s : State P) (i : ℕ) (p : P) : Prop :=
  s.control p = .wait i ∨ ∃ seen, s.control p = .scan i seen

omit [DecidableEq P] in
/-- Where a contender waits, some contender has become the victim. -/
theorem Invariant.exists_victim (hinv : Invariant s) (hp : WaitsAt s i p) :
    1 ≤ i ∧ i < Fintype.card P ∧ ∃ v, s.victim i = some v := by
  have hrange := hinv.range p
  have hentered : 1 ≤ i ∧ i < Fintype.card P ∧ Entered s i p := by
    rcases hp with hc | ⟨seen, hc⟩ <;> rw [hc] at hrange <;> rw [Entered, hc] <;>
      exact ⟨hrange.1, hrange.2, le_rfl⟩
  obtain ⟨hi, hcard, hentered⟩ := hentered
  obtain ⟨v, hv, -, -⟩ := hinv.guarded i hi p hentered
  exact ⟨hi, hcard, v, hv⟩

/-! ### Exclusion -/

omit [DecidableEq P] in
/-- Each level holds at least one contender back: by induction on the level, the
victim is past the level below and either is not past this one or is there alone. -/
theorem Invariant.card_passed_le (hinv : Invariant s) (hj : j < Fintype.card P) :
    (Finset.univ.filter (Passed s j)).card ≤ Fintype.card P - j := by
  classical
  induction j with
  | zero => exact Finset.card_filter_le _ _
  | succ j ih =>
    by_cases hsome : ∃ p, Passed s (j + 1) p
    · obtain ⟨p, hp⟩ := hsome
      obtain ⟨v, -, hentered, halone⟩ := hinv.guarded (j + 1) (by omega) p hp.entered
      by_cases hv : Passed s (j + 1) v
      · -- past this level, the victim is alone there
        have hsub : Finset.univ.filter (Passed s (j + 1)) ⊆ {v} := by
          intro q hq
          have hq : Passed s (j + 1) q := by simpa using hq
          simpa using halone hv q hq.entered
        have hone := Finset.card_le_card hsub
        rw [Finset.card_singleton] at hone
        omega
      · -- otherwise it counts for the level below and not for this one
        have hbelow : Passed s j v := by
          have hsucc := Control.entered_le_passed_succ (s.control v)
          rw [Entered] at hentered
          rw [Passed]
          omega
        have hsub : Finset.univ.filter (Passed s (j + 1)) ⊆
            (Finset.univ.filter (Passed s j)).erase v := by
          intro q hq
          have hq : Passed s (j + 1) q := by simpa using hq
          rw [Finset.mem_erase]
          have hq' : Passed s j q := (Nat.le_succ j).trans hq
          exact ⟨fun hqv => hv (hqv ▸ hq), by simpa using hq'⟩
        have hcard := Finset.card_le_card hsub
        rw [Finset.card_erase_of_mem (by simpa using hbelow)] at hcard
        have := ih (by omega)
        omega
    · have hempty : Finset.univ.filter (Passed s (j + 1)) = ∅ := by
        rw [Finset.filter_eq_empty_iff]
        exact fun p _ hp => hsome ⟨p, hp⟩
      rw [hempty]
      simp

omit [DecidableEq P] in
/-- The lock has at most one owner. -/
theorem Invariant.inside_unique (hinv : Invariant s) (hp : s.control p = .inside)
    (hq : s.control q = .inside) : p = q := by
  have hpos : 0 < Fintype.card P := Fintype.card_pos_iff.mpr ⟨p⟩
  have hcard := hinv.card_passed_le (j := Fintype.card P - 1) (by omega)
  have hpast : ∀ r, s.control r = .inside → Passed s (Fintype.card P - 1) r := by
    intro r hr
    rw [Passed, hr]
    exact le_rfl
  refine Finset.card_le_one.mp (hcard.trans (by omega)) p ?_ q ?_ <;> simp [hpast, hp, hq]

/-! ### Progress -/

/-- Contender `p` is not held back: it is about to write, or it waits at a level
whose victim it is not or that nobody else has announced. -/
def Ready (s : State P) (p : P) : Prop :=
  match s.control p with
  | .announce _ | .yield _ => True
  | .wait i | .scan i _ => s.victim i ≠ some p ∨ ∀ q, q ≠ p → s.level q < i
  | .outside | .inside => False

omit [Fintype P] [DecidableEq P] in
theorem WaitsAt.ready (hp : WaitsAt s i p)
    (hfree : s.victim i ≠ some p ∨ ∀ q, q ≠ p → s.level q < i) : Ready s p := by
  rcases hp with hp | ⟨seen, hp⟩ <;> simpa only [Ready, hp] using hfree

omit [DecidableEq P] in
/-- A contender that has announced a level and is not about to write waits there. -/
theorem Invariant.waitsAt (hinv : Invariant s) (hnone : s.control p ≠ .inside)
    (hready : ¬ Ready s p) (hlevel : 0 < s.level p) : WaitsAt s (s.level p) p := by
  rw [hinv.level_eq] at hlevel ⊢
  cases hc : s.control p with
  | outside => simp [hc, Control.announced] at hlevel
  | announce i | yield i => exact absurd (by simp [Ready, hc]) hready
  | wait i => exact Or.inl hc
  | scan i seen => exact Or.inr ⟨seen, hc⟩
  | inside => exact absurd hc hnone

omit [DecidableEq P] in
/-- While somebody competes and nobody owns the lock, somebody is not held back: on
the highest announced level either one contender is alone, or two are and the
victim is not both of them. -/
theorem Invariant.exists_ready (hinv : Invariant s) (hnone : ∀ p, s.control p ≠ .inside)
    (hsome : s.control p ≠ .outside) : ∃ q, Ready s q := by
  by_contra hstuck
  push Not at hstuck
  have hpos : 0 < s.level p := by
    have hrange := hinv.range p
    rw [hinv.level_eq]
    cases hc : s.control p with
    | outside => exact absurd hc hsome
    | announce i | yield i => exact absurd (by simp [Ready, hc]) (hstuck p)
    | wait i | scan i seen =>
      rw [hc] at hrange
      exact hrange.1
    | inside => exact absurd hc (hnone p)
  -- a contender on the highest level waits there as the victim
  obtain ⟨top, -, hmax⟩ := Finset.exists_max_image Finset.univ s.level ⟨p, Finset.mem_univ p⟩
  have htop : 0 < s.level top := hpos.trans_le (hmax p (Finset.mem_univ p))
  have hwaits := hinv.waitsAt (hnone top) (hstuck top) htop
  have hvictim : s.victim (s.level top) = some top := by
    by_contra hv
    exact hstuck top (hwaits.ready (Or.inl hv))
  by_cases halone : ∀ q, q ≠ top → s.level q < s.level top
  · exact hstuck top (hwaits.ready (Or.inr halone))
  · -- and whoever else is on that level is not the victim
    push Not at halone
    obtain ⟨q, hne, hle⟩ := halone
    have hlevel : s.level q = s.level top := le_antisymm (hmax q (Finset.mem_univ q)) hle
    have hwaits' := hinv.waitsAt (hnone q) (hstuck q) (htop.trans_le hle)
    refine hstuck q (hwaits'.ready (Or.inl ?_))
    rw [hlevel, hvictim]
    exact fun hsame => hne (Option.some.inj hsame).symm

end Sisop.Foundations.FilterLock
