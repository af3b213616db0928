import Sisop.Pmutex.Starvation

/-!
# How often a waiting thread is overtaken

A thread is past the doorway of `lock` once it has stored itself on hold at level 1.
From there until it returns, other threads may return from `lock` before it. With two
threads this happens at most once: the other one has then to store itself on hold
behind the waiting thread, and its next scan stops at that thread's node.

With three threads there is no bound. Two of them can keep level 1 open for each
other: whoever comes to it is put on hold there and frees the one before, which finds
nobody else above level 1 and climbs to the end, while the third one does not happen to
test its own condition. No thread starves, but nothing bounds its wait.

## Main definitions

* `Phase.pastDoorway` — the thread has put itself on hold at level 1
* `watched` — the threads, with the number of times one of them has been overtaken

## Main results

* `AtMostOnce.step` — what bounds the overtaking of two threads
* `Crossed.round` — a round in which a thread is overtaken once more
* `bounded_overtaking` — the bound for two threads, and none for three or more
-/

namespace Sisop.Pmutex

open Foundations FilterLock Machine

variable {T : Type}

/-- A thread at this place in `lock` has put itself on hold at level 1. -/
def LockPc.pastDoorway : LockPc → Bool
  | .storeLevel i | .storeOnhold i => 1 < i
  | .loadOnhold _ _ | .scan _ _ => true
  | .returned => false

/-- The thread is in `lock` and has put itself on hold at level 1. -/
def Phase.pastDoorway : Phase → Bool
  | .inLock _ pc => pc.pastDoorway
  | .outside | .searching | .critical | .exited => false

/-- A step of thread `a` is its return from `lock`. -/
def Returns (s : State T) (a : T) (s' : State T) : Prop :=
  s.phase a ≠ .critical ∧ s'.phase a = .critical

instance (s : State T) (a : T) (s' : State T) : Decidable (Returns s a s') :=
  inferInstanceAs (Decidable (_ ∧ _))

/-- The state of the threads, and how often others have returned from `lock` since one
of them went past the doorway. -/
structure Watched (T : Type) where
  state : State T
  overtaken : ℕ

variable [DecidableEq T]

/-- The record after a step of thread `a`: the count is for thread `t`, and is 0 while that
thread is not past the doorway. -/
def Watched.observe (x : Watched T) (t a : T) (s' : State T) : Watched T where
  state := s'
  overtaken :=
    if (s'.phase t).pastDoorway then
      if a ≠ t ∧ Returns x.state a s' then x.overtaken + 1 else x.overtaken
    else 0

/-- Every interleaving of the threads of a roster, with thread `t` watched. -/
def watched (r : Roster T) (t : T) : Machine (Watched T) T where
  initial x := (system r).initial x.state ∧ x.overtaken = 0
  step x a x' := Step x.state a x'.state ∧ x' = x.observe t a x'.state

variable [Fintype T] {r : Roster T} {s s' : State T} {t u v a : T} {w : List T}
  {my : Option ℕ} {pc : LockPc} {x x' : Watched T} {i j k n : ℕ} {flg : Bool}

/-! ### Two threads -/

/-- Thread `u` at this place in `lock` has still to put itself on hold, or is on hold and
has not yet looked at the node at position `k`. -/
def LockPc.Behind (s : State T) (u : T) (k : ℕ) : LockPc → Prop
  | .storeLevel _ | .storeOnhold _ | .returned => True
  | .loadOnhold i flg => s.heldAt i = some u ∧ flg = true
  | .scan i j => s.heldAt i = some u ∧ j ≤ k

/-- If thread `u` is in `lock`, then where it cannot return from it before `t` does. -/
def Behind (r : Roster T) (s : State T) (t u : T) : Prop :=
  ∀ my pc, s.phase u = .inLock my pc → pc.Behind s u (r.slot t)

omit [Fintype T] in
theorem behind_of_inLock (hphase : s'.phase u = .inLock my pc)
    (hpc : pc.Behind s' u (r.slot t)) : Behind r s' t u ∧ ¬ Returns s u s' := by
  refine ⟨fun my' pc' h => ?_, fun h => ?_⟩
  · obtain ⟨rfl, rfl⟩ := Phase.inLock.inj (hphase.symm.trans h)
    exact hpc
  · rw [Returns, hphase] at h
    exact nomatch h.2

/-- The only level of two threads is level 1. -/
theorem Sound.level_eq_one (hs : Sound r s) (hcard : Fintype.card T ≤ 2)
    (ht : s.phase t = .inLock my pc) : pc.level = 1 := by
  have hlevel := hs.level_of_inLock ht
  omega

/-- If there is another thread, the search is followed by the store of level 1. -/
theorem Sound.phase_afterSearch (hs : Sound r s) (hcard : 1 < Fintype.card T) :
    (s.enter s.p u (afterSearch s.p u)).phase u = .inLock (findNode s.p u) (.storeLevel 1) := by
  obtain ⟨x, habs, -⟩ := hs
  have hmore : 1 < s.p.size := by rwa [habs.memory.size]
  rw [enter_phase_self, afterSearch, forLevel, if_pos hmore, Phase.ofLock]
  intro h
  cases h

/-- A scan that comes to a thread waiting at the same level is broken off there. -/
theorem Sound.scan_blocked (hs : Sound r s) (hwaits : (s.phase t).Waits i) (hut : u ≠ t)
    (hu : s.phase u = .inLock my (.scan i j)) (hj : j ≤ r.slot t) (hstep : Step s u s') :
    s'.phase u = .inLock my (.loadOnhold i true) ∨
      j < r.slot t ∧ s'.phase u = .inLock my (.scan i (j + 1)) := by
  obtain ⟨x, habs, hinv⟩ := hs
  have hlevel : x.level t = i := by
    rw [hinv.level_eq, habs.control]
    obtain ⟨my', ⟨flg, ht⟩ | ⟨m, ht⟩⟩ := hwaits
    · rw [ht]
      cases flg <;> rfl
    · rw [ht]
      rfl
  cases hstep with
  | lock hout | search hout | unlock hout | exit hout => simp [hu] at hout
  | @access my' pc₀ pc' p' hin hnext =>
    obtain ⟨rfl, rfl⟩ := Phase.inLock.inj (hu.symm.trans hin)
    obtain ⟨rfl, -⟩ := habs.mypnode u my _ hu
    have hlt : j < r.owners.length :=
      hj.trans_lt (List.getElem?_eq_some_iff.mp (r.getElem?_slot t)).1
    obtain ⟨q, hq⟩ : ∃ q, r.owners[j]? = some q := ⟨_, List.getElem?_eq_getElem hlt⟩
    rw [habs.memory.lockStep_scan hq] at hnext
    obtain ⟨rfl, rfl⟩ := Prod.mk.inj (Option.some.inj hnext)
    rw [enter_phase_self]
    by_cases hend : j = r.slot t
    · -- the node of `t` is at the level, so that the scan does not go on
      obtain rfl : t = q := Option.some.inj ((r.getElem?_slot t).symm.trans (hend ▸ hq))
      rw [if_neg (Ne.symm hut), if_pos hlevel.ge]
      exact Or.inl rfl
    · have hbefore : j < r.slot t := lt_of_le_of_ne hj hend
      split_ifs
      · exact Or.inr ⟨hbefore, rfl⟩
      · exact Or.inl rfl
      · exact Or.inr ⟨hbefore, rfl⟩

omit [DecidableEq T] [Fintype T] in
/-- Past the doorway of level 1, the last level, a thread is in the waiting loop. -/
theorem waits_of_pastDoorway (hpast : (s.phase t).pastDoorway)
    (hlevel : ∀ my pc, s.phase t = .inLock my pc → pc.level = 1) : (s.phase t).Waits 1 := by
  cases ht : s.phase t with
  | outside | searching | critical | exited => simp [ht, Phase.pastDoorway] at hpast
  | inLock my pc =>
    have hone := hlevel my pc ht
    rw [ht, Phase.pastDoorway] at hpast
    cases pc with
    | storeLevel i | storeOnhold i =>
      simp only [LockPc.level] at hone
      simp [LockPc.pastDoorway, hone] at hpast
    | loadOnhold i flg =>
      obtain rfl : i = 1 := hone
      exact ⟨my, Or.inl ⟨flg, rfl⟩⟩
    | scan i j =>
      obtain rfl : i = 1 := hone
      exact ⟨my, Or.inr ⟨j, rfl⟩⟩
    | returned => simp [LockPc.level] at hone

/-- A thread that is behind a waiting one stays behind it, whatever its next step is. -/
theorem Behind.step_self (hs : Sound r s) (hcard : Fintype.card T ≤ 2)
    (hwaits : (s.phase t).Waits 1) (hut : u ≠ t) (hu : Behind r s t u) (hstep : Step s u s') :
    Behind r s' t u ∧ ¬ Returns s u s' := by
  cases hphase : s.phase u with
  | inLock my pc =>
    have hlevel := hs.level_eq_one hcard hphase
    have hhere := hu my pc hphase
    cases hs.lockMove hphase hstep with
    | announce hnext _ => exact behind_of_inLock hnext trivial
    | yield hnext hmine _ => exact behind_of_inLock hnext ⟨hmine, rfl⟩
    | leave hfree _ _ _ => exact absurd hhere hfree
    | search hmine hnext hheld =>
      exact behind_of_inLock hnext ⟨hheld ▸ hmine, Nat.zero_le _⟩
    | @look i j _ _ hheld | @blocked i j _ _ hheld | @clear i j _ hheld =>
      -- which of the three moves it is depends on the node of `t`
      obtain rfl : i = 1 := hlevel
      rcases hs.scan_blocked hwaits hut hphase hhere.2 hstep with hnext | ⟨hbefore, hnext⟩
      · exact behind_of_inLock hnext ⟨hheld ▸ hhere.1, rfl⟩
      · exact behind_of_inLock hnext ⟨hheld ▸ hhere.1, hbefore⟩
  | searching =>
    cases hstep with
    | lock hout | unlock hout | exit hout | access hout _ => simp [hphase] at hout
    | search _ =>
      have hmore : 1 < Fintype.card T := Fintype.one_lt_card_iff.mpr ⟨u, t, hut⟩
      exact behind_of_inLock (hs.phase_afterSearch hmore) trivial
  | outside | critical | exited =>
    -- the thread comes neither into the loop nor out of it
    cases hstep with
    | search hout | access hout _ => simp [hphase] at hout
    | lock _ | exit _ | unlock _ =>
      exact ⟨fun my' pc' h => by simp at h, fun h => by simp [Returns] at h⟩

/-- A step of the waiting thread leaves the other one behind it. -/
theorem Behind.step_other (hs : Sound r s) (hcard : Fintype.card T ≤ 2)
    (hwaits : (s.phase t).Waits 1) (hut : u ≠ t) (hu : Behind r s t u) (hstep : Step s t s') :
    Behind r s' t u := by
  intro my pc hphase
  rw [hstep.phase_of_ne hut] at hphase
  have hhere := hu my pc hphase
  have hlevel := hs.level_eq_one hcard hphase
  have hheld : s'.heldAt 1 = s.heldAt 1 := by
    rcases hs.heldAt_step hstep le_rfl with hsame | ⟨-, my', ht⟩
    · exact hsame
    · obtain ⟨my'', ⟨flg, ht'⟩ | ⟨m, ht'⟩⟩ := hwaits <;> simp [ht] at ht'
  cases pc with
  | storeLevel i | storeOnhold i | returned => trivial
  | loadOnhold i flg | scan i j =>
    obtain rfl : i = 1 := hlevel
    exact ⟨hheld.trans hhere.1, hhere.2⟩

/-- What holds of a watched thread beside one other. -/
structure AtMostOnce (r : Roster T) (t : T) (x : Watched T) : Prop where
  sound : Sound r x.state
  le : x.overtaken ≤ 1
  past : x.overtaken = 1 → (x.state.phase t).pastDoorway
  behind : x.overtaken = 1 → ∀ u, u ≠ t → Behind r x.state t u

theorem AtMostOnce.of_initial (hx : (watched r t).initial x) : AtMostOnce r t x where
  sound := exists_abstract (.of_initial hx.1)
  le := by rw [hx.2]; exact Nat.zero_le 1
  past h := by rw [hx.2] at h; cases h
  behind h := by rw [hx.2] at h; cases h

/-- A step of one of at most two threads keeps the bound. -/
theorem AtMostOnce.step (hcard : Fintype.card T ≤ 2) (hx : AtMostOnce r t x)
    (hstep : (watched r t).step x a x') : AtMostOnce r t x' := by
  obtain ⟨hmove, hobs⟩ := hstep
  have hsound : Sound r x'.state := exists_abstract_of_run (Machine.Run.single hmove) hx.sound
  have hcount := congrArg Watched.overtaken hobs
  simp only [Watched.observe] at hcount
  by_cases hpast : (x'.state.phase t).pastDoorway
  swap
  · rw [if_neg hpast] at hcount
    exact ⟨hsound, by omega, by omega, by omega⟩
  rw [if_pos hpast] at hcount
  -- a thread that has been overtaken once has the other one behind it
  have hbehind : x.overtaken = 1 → ∀ u, u ≠ t →
      Behind r x'.state t u ∧ (a ≠ t → ¬ Returns x.state a x'.state) := by
    intro hone u hut
    have hwaits := waits_of_pastDoorway (hx.past hone) fun my pc => hx.sound.level_eq_one hcard
    have hu := hx.behind hone u hut
    by_cases hat : a = t
    · subst hat
      exact ⟨hu.step_other hx.sound hcard hwaits hut hmove, fun h => absurd rfl h⟩
    · obtain rfl : a = u := by
        by_contra hau
        exact absurd hcard
          (not_le.mpr (Fintype.two_lt_card_iff.mpr ⟨a, t, u, hat, hau, Ne.symm hut⟩))
      obtain ⟨hstill, hno⟩ := hu.step_self hx.sound hcard hwaits hut hmove
      exact ⟨hstill, fun _ => hno⟩
  by_cases hret : a ≠ t ∧ Returns x.state a x'.state
  · rw [if_pos hret] at hcount
    have hzero : x.overtaken = 0 := by
      have hle := hx.le
      by_contra hne
      exact (hbehind (by omega) a hret.1).2 hret.1 hret.2
    refine ⟨hsound, by omega, fun _ => hpast, fun _ u hut => ?_⟩
    -- the other thread is the one that has just returned
    obtain rfl : u = a := by
      by_contra hua
      exact absurd hcard
        (not_le.mpr (Fintype.two_lt_card_iff.mpr ⟨u, t, a, hut, hua, Ne.symm hret.1⟩))
    intro my pc hphase
    rw [hret.2.2] at hphase
    cases hphase
  · rw [if_neg hret] at hcount
    have hle := hx.le
    exact ⟨hsound, by omega, fun _ => hpast,
      fun hone u hut => (hbehind (by omega) u hut).1⟩

/-- One of at most two threads is overtaken at most once. -/
theorem overtaken_le_one (hcard : Fintype.card T ≤ 2) (hx : (watched r t).Reachable x) :
    x.overtaken ≤ 1 :=
  (hx.invariant (I := AtMostOnce r t) AtMostOnce.of_initial
    fun hstep hy => hy.step hcard hstep).le

/-! ### Three threads and more -/

omit [Fintype T] in
/-- The steps of other threads do not move a thread. -/
theorem phase_of_run (hrun : (system r).Run s w s') (h : ∀ a ∈ w, a ≠ t) :
    s'.phase t = s.phase t := by
  induction hrun with
  | refl => rfl
  | @snoc _ _ w a _ hstep ih =>
    have hta : t ≠ a := Ne.symm (h a (by simp))
    rw [Step.phase_of_ne hstep hta, ih fun b hb => h b (by simp [hb])]

omit [Fintype T] in
/-- A run of the threads is one of the watched threads, and the returns of others from
`lock` in it are counted. -/
theorem exists_watched_run (hrun : (system r).Run s w s') (t : T) (n : ℕ) :
    ∃ m, (watched r t).Run ⟨s, n⟩ w ⟨s', m⟩ ∧
      ((s.phase t).pastDoorway → (∀ a ∈ w, a ≠ t) →
        n ≤ m ∧ ∀ u, Returns s u s' → n + 1 ≤ m) := by
  induction hrun with
  | refl => exact ⟨n, .refl _, fun _ _ => ⟨le_rfl, fun u h => absurd h.2 h.1⟩⟩
  | @snoc s₁ s₂ w a hinit hstep ih =>
    obtain ⟨m, hpath, hcount⟩ := ih
    refine ⟨((⟨s₁, m⟩ : Watched T).observe t a s₂).overtaken, hpath.snoc ⟨hstep, rfl⟩,
      fun hpast hlabels => ?_⟩
    have hothers : ∀ b ∈ w, b ≠ t := fun b hb => hlabels b (by simp [hb])
    have hat : a ≠ t := hlabels a (by simp)
    obtain ⟨hle, hret⟩ := hcount hpast hothers
    have hpast' : (s₂.phase t).pastDoorway := by
      rwa [Step.phase_of_ne hstep (Ne.symm hat), phase_of_run hinit hothers]
    simp only [Watched.observe, if_pos hpast']
    by_cases hnow : Returns s₁ a s₂
    · rw [if_pos ⟨hat, hnow⟩]
      exact ⟨by omega, fun _ _ => by omega⟩
    · rw [if_neg fun h => hnow h.2]
      refine ⟨hle, fun u hu => hret u ⟨hu.1, ?_⟩⟩
      -- who has not returned in the last step has returned before
      by_contra hbefore
      by_cases hua : u = a
      · subst hua
        exact hnow ⟨hbefore, hu.2⟩
      · exact hbefore ((Step.phase_of_ne hstep hua).symm.trans hu.2)

/-- A thread in `lock` can take a step. -/
theorem exists_step_inLock (hs : (system r).Reachable s) (hu : s.phase u = .inLock my pc) :
    ∃ s', Step s u s' := by
  obtain ⟨p', pc', hnext⟩ := exists_lockStep hs hu
  exact ⟨_, .access hu hnext⟩

/-- A thread about to announce a level comes to wait there by two steps of its own. -/
theorem exists_run_to_wait (hs : (system r).Reachable s)
    (hu : s.phase u = .inLock my (.storeLevel i)) :
    ∃ s', (system r).Run s [u, u] s' ∧ s'.phase u = .inLock my (.loadOnhold i true) ∧
      s'.heldAt i = some u ∧ ∀ k, 1 ≤ k → k ≠ i → s'.heldAt k = s.heldAt k := by
  obtain ⟨s₁, hstep₁⟩ := exists_step_inLock hs hu
  cases Sound.lockMove (exists_abstract hs) hu hstep₁ with
  | announce hphase₁ hheld₁ =>
    have hs₁ := hs.step hstep₁
    obtain ⟨s₂, hstep₂⟩ := exists_step_inLock hs₁ hphase₁
    cases Sound.lockMove (exists_abstract hs₁) hphase₁ hstep₂ with
    | yield hphase₂ hmine hother =>
      refine ⟨s₂, (Machine.Run.single hstep₁).snoc hstep₂, hphase₂, hmine, fun k hk hki => ?_⟩
      rw [hother k hk hki, hheld₁]

/-- A thread outside `lock` comes to wait at level 1 by steps of its own. -/
theorem exists_run_from_outside (hs : (system r).Reachable s) (hcard : 1 < Fintype.card T)
    (hu : s.phase u = .outside) :
    ∃ w s', (system r).Run s w s' ∧ (∀ a ∈ w, a = u) ∧ s'.heldAt 1 = some u ∧
      ∃ my, s'.phase u = .inLock my (.loadOnhold 1 true) := by
  have hlock : Step s u (s.enter s.p u .searching) := .lock hu
  have hsearch : Step (s.enter s.p u .searching) u
      ((s.enter s.p u .searching).enter s.p u (afterSearch s.p u)) := .search enter_phase_self
  have hs₂ := (hs.step hlock).step hsearch
  have hphase : ((s.enter s.p u .searching).enter s.p u (afterSearch s.p u)).phase u =
      .inLock (findNode s.p u) (.storeLevel 1) :=
    Sound.phase_afterSearch (s := s.enter s.p u .searching) (exists_abstract (hs.step hlock)) hcard
  obtain ⟨s', hrun, hwait, hmine, -⟩ := exists_run_to_wait hs₂ hphase
  exact ⟨_, s', ((Machine.Run.single hlock).snoc hsearch).trans hrun, by simp, hmine, _, hwait⟩

/-- A waiting thread that is not held back comes past its level by steps of its own. -/
theorem exists_run_of_free (hs : (system r).Reachable s)
    (hu : s.phase u = .inLock my (.loadOnhold i true))
    (hfree : s.heldAt i ≠ some u ∨ ∀ v, v ≠ u → (s.phase v).floor T < i) :
    ∃ w s', (system r).Run s w s' ∧ (∀ a ∈ w, a = u) ∧ s'.heldAt = s.heldAt ∧
      ((∃ my, s'.phase u = .inLock my (.storeLevel (i + 1))) ∨ s'.phase u = .critical) := by
  obtain ⟨hi, hcard⟩ : 1 ≤ i ∧ i < Fintype.card T :=
    Sound.level_of_inLock (exists_abstract hs) hu
  obtain ⟨y, habs, hinv⟩ := exists_abstract hs
  have hwaits : WaitsAt y i u := by
    left
    rw [habs.control u, hu]
    rfl
  obtain ⟨w, hrun, hlabels⟩ := leaves_waiting habs hinv hwaits <| by
    refine hfree.imp (fun hne => ?_) fun hbelow v hv => ?_
    · rwa [← habs.memory.heldAt hi hcard]
    · exact (habs.level_le_floor hinv v).trans_lt (hbelow v hv)
  refine ⟨w, _, hrun, hlabels, rfl, ?_⟩
  rw [enter_phase_self]
  exact ofLock_forLevel.imp_left fun h => ⟨_, h⟩

/-- A thread that has all others below it climbs to the end by steps of its own: by
induction on the levels above it. -/
theorem exists_run_to_critical (hs : (system r).Reachable s) (hi : 1 ≤ i)
    (hu : (∃ my, s.phase u = .inLock my (.storeLevel i)) ∨ s.phase u = .critical)
    (hbelow : ∀ v, v ≠ u → (s.phase v).floor T < i) :
    ∃ w s', (system r).Run s w s' ∧ (∀ a ∈ w, a = u) ∧ s'.phase u = .critical ∧
      ∀ k, 1 ≤ k → k < i → s'.heldAt k = s.heldAt k := by
  induction hleft : Fintype.card T - i generalizing s i with
  | zero =>
    rcases hu with ⟨my, hu⟩ | hu
    · have hlevel := (Sound.level_of_inLock (exists_abstract hs) hu).2
      simp only [LockPc.level] at hlevel
      omega
    · exact ⟨[], s, .refl s, by simp, hu, fun _ _ _ => rfl⟩
  | succ n ih =>
    rcases hu with ⟨my, hu⟩ | hu
    swap
    · exact ⟨[], s, .refl s, by simp, hu, fun _ _ _ => rfl⟩
    obtain ⟨s₁, hrun₁, hwait, -, hother₁⟩ := exists_run_to_wait hs hu
    have hs₁ := hs.run hrun₁
    have hsame₁ : ∀ v, v ≠ u → s₁.phase v = s.phase v := fun v hv =>
      phase_of_run hrun₁ (by simp [Ne.symm hv])
    obtain ⟨w₂, s₂, hrun₂, hlabels₂, hheld₂, hpassed⟩ := exists_run_of_free hs₁ hwait
      (Or.inr fun v hv => by rw [hsame₁ v hv]; exact hbelow v hv)
    have hsame₂ : ∀ v, v ≠ u → s₂.phase v = s₁.phase v := fun v hv =>
      phase_of_run hrun₂ fun a ha => by rw [hlabels₂ a ha]; exact Ne.symm hv
    obtain ⟨w₃, s₃, hrun₃, hlabels₃, hend, hheld₃⟩ := ih (hs₁.run hrun₂) (by omega) hpassed
      (fun v hv => by rw [hsame₂ v hv, hsame₁ v hv]; exact (hbelow v hv).trans (Nat.lt_succ_self i))
      (by omega)
    refine ⟨[u, u] ++ w₂ ++ w₃, s₃, (hrun₁.trans hrun₂).trans hrun₃, ?_, hend, fun k hk hki => ?_⟩
    · intro a ha
      simp only [List.mem_append] at ha
      rcases ha with (ha | ha) | ha
      · simpa using ha
      · exact hlabels₂ a ha
      · exact hlabels₃ a ha
    · rw [hheld₃ k hk (by omega), hheld₂, hother₁ k hk (by omega)]

/-- Thread `t` waits at level 1 and is not held there any more: thread `u` is. -/
structure Crossed (r : Roster T) (t u : T) (s : State T) : Prop where
  reachable : (system r).Reachable s
  ne : u ≠ t
  waits : ∃ my, s.phase t = .inLock my (.loadOnhold 1 true)
  held : s.heldAt 1 = some u
  next : ∃ my, s.phase u = .inLock my (.loadOnhold 1 true)
  others : ∀ v, v ≠ t → v ≠ u → s.phase v = .outside

/-- A round of two threads: `v` comes to level 1 and is held there, `u` is free, climbs to
the end while `t` waits, and unlocks. -/
theorem Crossed.round (hs : Crossed r t u s) (hcard : 2 < Fintype.card T) (hvt : v ≠ t)
    (hvu : v ≠ u) :
    ∃ w s₁ s₂, (system r).Run s w s₁ ∧ (∀ a ∈ w, a ≠ t) ∧ s₁.phase u = .critical ∧
      Step s₁ u s₂ ∧ Crossed r t v s₂ := by
  obtain ⟨my, hwaits⟩ := hs.waits
  obtain ⟨my', hnext⟩ := hs.next
  have hv := hs.others v hvt hvu
  obtain ⟨w₁, p₁, hrun₁, hlabels₁, hheld₁, my'', hwait₁⟩ :=
    exists_run_from_outside hs.reachable (by omega) hv
  have hsame₁ : ∀ a, a ≠ v → p₁.phase a = s.phase a := fun a ha =>
    phase_of_run hrun₁ fun b hb => by rw [hlabels₁ b hb]; exact Ne.symm ha
  have hp₁ := hs.reachable.run hrun₁
  -- `u` is not held back at level 1 any more
  have hu₁ : p₁.phase u = .inLock my' (.loadOnhold 1 true) := by
    rw [hsame₁ u (Ne.symm hvu), hnext]
  obtain ⟨w₂, p₂, hrun₂, hlabels₂, hheld₂, hpassed⟩ := exists_run_of_free hp₁ hu₁
    (Or.inl (by rw [hheld₁]; exact fun h => hvu (Option.some.inj h)))
  have hsame₂ : ∀ a, a ≠ u → p₂.phase a = p₁.phase a := fun a ha =>
    phase_of_run hrun₂ fun b hb => by rw [hlabels₂ b hb]; exact Ne.symm ha
  have hp₂ := hp₁.run hrun₂
  -- and nobody but `u` is above it
  have hbelow : ∀ a, a ≠ u → (p₂.phase a).floor T < 1 + 1 := by
    intro a hau
    rw [hsame₂ a hau]
    by_cases hav : a = v
    · rw [hav, hwait₁]
      exact Nat.lt_succ_self 1
    · rw [hsame₁ a hav]
      by_cases hat : a = t
      · rw [hat, hwaits]
        exact Nat.lt_succ_self 1
      · rw [hs.others a hat hau]
        exact Nat.zero_lt_two
  obtain ⟨w₃, p₃, hrun₃, hlabels₃, hend, hheld₃⟩ :=
    exists_run_to_critical hp₂ (by omega) hpassed hbelow
  have hsame₃ : ∀ a, a ≠ u → p₃.phase a = p₂.phase a := fun a ha =>
    phase_of_run hrun₃ fun b hb => by rw [hlabels₃ b hb]; exact Ne.symm ha
  have hp₃ := hp₂.run hrun₃
  have hunlock : Step p₃ u (p₃.enter (unlock p₃.p u) u .outside) := .unlock hend
  have hsame : ∀ a, a ≠ u → a ≠ v →
      (p₃.enter (unlock p₃.p u) u .outside).phase a = s.phase a := fun a hau hav => by
    rw [enter_phase_of_ne hau, hsame₃ a hau, hsame₂ a hau, hsame₁ a hav]
  refine ⟨w₁ ++ w₂ ++ w₃, p₃, _, (hrun₁.trans hrun₂).trans hrun₃, ?_, hend, hunlock,
    hp₃.step hunlock, hvt, ⟨my, ?_⟩, ?_, ⟨my'', ?_⟩, fun a hat hav => ?_⟩
  · intro a ha
    simp only [List.mem_append] at ha
    rcases ha with (ha | ha) | ha
    · rw [hlabels₁ a ha]
      exact hvt
    · rw [hlabels₂ a ha]
      exact hs.ne
    · rw [hlabels₃ a ha]
      exact hs.ne
  · rw [hsame t (Ne.symm hs.ne) (Ne.symm hvt), hwaits]
  · rw [heldAt_unlock p₃.p rfl]
    exact (hheld₃ 1 le_rfl (by omega)).trans ((congrFun hheld₂ 1).trans hheld₁)
  · rw [enter_phase_of_ne hvu, hsame₃ v hvu, hsame₂ v hvu, hwait₁]
  · by_cases hau : a = u
    · rw [hau, enter_phase_self]
    · rw [hsame a hau hav, hs.others a hat hau]

/-- Among three threads there is one beside any two. -/
theorem exists_third (hcard : 2 < Fintype.card T) (t u : T) : ∃ v, v ≠ t ∧ v ≠ u := by
  obtain ⟨v, -, hv⟩ := Finset.exists_mem_notMem_of_card_lt_card
    (s := {t, u}) (t := Finset.univ) (Finset.card_le_two.trans_lt hcard)
  simp only [Finset.mem_insert, Finset.mem_singleton, not_or] at hv
  exact ⟨v, hv⟩

/-- After enough rounds a waiting thread has been overtaken any number of times. -/
theorem exists_crossed (r : Roster T) (hcard : 2 < Fintype.card T) (t : T) (k : ℕ) :
    ∃ x u, (watched r t).Reachable x ∧ k ≤ x.overtaken ∧ Crossed r t u x.state := by
  induction k with
  | zero =>
    -- `t` comes to level 1 first, and `u` is held there instead of it
    obtain ⟨u, hut, -⟩ := exists_third hcard t t
    have hinit : (system r).initial ⟨r.registered, fun _ => .outside⟩ := ⟨rfl, fun _ => rfl⟩
    obtain ⟨w₁, s₁, hrun₁, hlabels₁, -, my, hwait₁⟩ :=
      exists_run_from_outside (.of_initial hinit) (by omega) (u := t) rfl
    have hs₁ := (Reachable.of_initial hinit).run hrun₁
    have hout : ∀ a, a ≠ t → s₁.phase a = .outside := fun a ha =>
      phase_of_run hrun₁ fun b hb => by rw [hlabels₁ b hb]; exact Ne.symm ha
    obtain ⟨w₂, s₂, hrun₂, hlabels₂, hheld₂, my', hwait₂⟩ :=
      exists_run_from_outside hs₁ (by omega) (hout u hut)
    have hsame₂ : ∀ a, a ≠ u → s₂.phase a = s₁.phase a := fun a ha =>
      phase_of_run hrun₂ fun b hb => by rw [hlabels₂ b hb]; exact Ne.symm ha
    obtain ⟨m, hpath, -⟩ := exists_watched_run (hrun₁.trans hrun₂) t 0
    exact ⟨⟨s₂, m⟩, u, ⟨_, _, ⟨hinit, rfl⟩, hpath⟩, Nat.zero_le _, hs₁.run hrun₂, hut,
      ⟨my, by rw [hsame₂ t (Ne.symm hut), hwait₁]⟩, hheld₂, ⟨my', hwait₂⟩,
      fun a hat hau => by rw [hsame₂ a hau, hout a hat]⟩
  | succ k ih =>
    obtain ⟨x, u, hx, hk, hs⟩ := ih
    obtain ⟨v, hvt, hvu⟩ := exists_third hcard t u
    obtain ⟨w, s₁, s₂, hrun, hlabels, hend, hunlock, hnext⟩ := hs.round hcard hvt hvu
    obtain ⟨my, hwaits⟩ := hs.waits
    obtain ⟨my', hu⟩ := hs.next
    have hpast : (x.state.phase t).pastDoorway := by
      rw [hwaits]
      rfl
    obtain ⟨m, hpath, hcount⟩ := exists_watched_run hrun t x.overtaken
    have hmore := (hcount hpast hlabels).2 u ⟨by simp [hu], hend⟩
    have hpast₁ : (s₁.phase t).pastDoorway := by rwa [phase_of_run hrun hlabels]
    obtain ⟨m', hpath', hcount'⟩ := exists_watched_run (Machine.Run.single hunlock) t m
    have hstill := (hcount' hpast₁ (by simp [hs.ne])).1
    exact ⟨⟨s₂, m'⟩, v, (hx.run hpath).run hpath', by simp only; omega, hnext⟩

/-- Bounded overtaking in `pmutex`: from the moment a thread is on hold at level 1 until it
returns from `lock`, at most one other return from `lock` comes before its own if there
are two threads, and with three threads or more there can be any number of them. -/
theorem bounded_overtaking (r : Roster T) (t : T) :
    (Fintype.card T ≤ 2 → ∀ x, (watched r t).Reachable x → x.overtaken ≤ 1) ∧
      (2 < Fintype.card T → ∀ k, ∃ x, (watched r t).Reachable x ∧ k ≤ x.overtaken) := by
  refine ⟨fun hcard x hx => overtaken_le_one hcard hx, fun hcard k => ?_⟩
  obtain ⟨x, -, hx, hk, -⟩ := exists_crossed r hcard t k
  exact ⟨x, hx, hk⟩

end Sisop.Pmutex
