import Mathlib.Order.Filter.AtTopBot.Finite
import Mathlib.Order.Filter.AtTopBot.Basic
import Sisop.Foundations.Behavior
import Sisop.Pmutex.Progress

/-!
# No thread starves in `lock`

Threads that are in `lock` or own it are assumed to be scheduled again and again; a
thread outside may stay there for ever. Then every thread that calls `lock` returns
from it.

The argument goes down from the highest level. Suppose a thread stays at level `i`
for ever. It is then the victim of the level for ever, so nobody else becomes the
victim of level `i` any more, and nobody comes up to the level. Threads already there
are not its victim and go on, threads above go on by what is known of the higher
levels, and both come out of the lock. From then on all other threads are below the
level, and the next full scan lets the thread pass.

## Main definitions

* `Phase.floor` — the level a thread has come to
* `Fair` — the threads in `lock` or past it are scheduled

## Main results

* `climbs` — every level is left
* `pmutex_starvation_free` — every call of `lock` returns
-/

namespace Sisop.Pmutex

open Foundations FilterLock Machine

variable {T : Type} [DecidableEq T] [Fintype T] {r : Roster T} {s s' : State T} {t u v : T}
  {my : Option ℕ} {pc : LockPc} {i j n : ℕ} {flg : Bool}

/-! ### What one step does -/

/-- The level that a thread in `lock` works at. -/
def LockPc.level : LockPc → ℕ
  | .storeLevel i | .storeOnhold i | .loadOnhold i _ | .scan i _ => i
  | .returned => 0

/-- The level a thread has come to; the owner has come past all of them. -/
def Phase.floor (T : Type) [Fintype T] : Phase → ℕ
  | .inLock _ pc => pc.level
  | .critical => Fintype.card T
  | .outside | .searching | .exited => 0

/-- The thread held at level `i`: what is stored in its `onhold` node. -/
def State.heldAt (s : State T) (i : ℕ) : Option T := (s.p.onhold[i - 1]?).join

/-- The thread is in the waiting loop of level `i`. -/
def Phase.Waits (i : ℕ) (phase : Phase) : Prop :=
  ∃ my, (∃ flg, phase = .inLock my (.loadOnhold i flg)) ∨ ∃ j, phase = .inLock my (.scan i j)

/-- What a state needs to stand for one of the filter lock. -/
def Sound (r : Roster T) (s : State T) : Prop := ∃ x, Abstracts r s x ∧ Invariant x

theorem Sound.level_of_inLock (hs : Sound r s) (ht : s.phase t = .inLock my pc) :
    1 ≤ pc.level ∧ pc.level < Fintype.card T := by
  obtain ⟨x, habs, hinv⟩ := hs
  have hne := (habs.mypnode t my pc ht).2
  have hrange := hinv.range t
  rw [habs.control t, ht, Phase.control] at hrange
  cases pc with
  | loadOnhold i flg => cases flg <;> exact hrange
  | storeLevel i | storeOnhold i | scan i j => exact hrange
  | returned => exact absurd rfl hne

/-- A thread above all levels owns the lock. -/
theorem Sound.critical_of_floor (hs : Sound r s) (h : Fintype.card T ≤ (s.phase t).floor T) :
    s.phase t = .critical := by
  cases ht : s.phase t with
  | critical => rfl
  | inLock my pc =>
    have hlevel := (hs.level_of_inLock ht).2
    rw [ht, Phase.floor] at h
    omega
  | outside | searching | exited =>
    have hpos : 0 < Fintype.card T := Fintype.card_pos_iff.mpr ⟨t⟩
    rw [ht, Phase.floor] at h
    omega

omit [DecidableEq T] in
theorem floor_forLevel {p : PmutexT T} (hsize : p.size = Fintype.card T)
    (hi : i ≤ Fintype.card T) : (Phase.ofLock my (forLevel p i)).floor T = i := by
  unfold forLevel
  split_ifs with h
  · rfl
  · simp only [Phase.ofLock, Phase.floor]
    omega

omit [DecidableEq T] [Fintype T] in
theorem ofLock_forLevel {p : PmutexT T} :
    Phase.ofLock my (forLevel p i) = .inLock my (.storeLevel i) ∨
      Phase.ofLock my (forLevel p i) = .critical := by
  unfold forLevel
  split_ifs
  · exact Or.inl rfl
  · exact Or.inr rfl

/-- What a thread's step in `lock` does to the thread itself and to the threads held. -/
inductive LockMove (T : Type) [Fintype T] (s : State T) (t : T) (my : Option ℕ) (s' : State T) :
    LockPc → Prop
  | announce {i : ℕ} (phase : s'.phase t = .inLock my (.storeOnhold i))
      (held : s'.heldAt = s.heldAt) : LockMove T s t my s' (.storeLevel i)
  | yield {i : ℕ} (phase : s'.phase t = .inLock my (.loadOnhold i true))
      (mine : s'.heldAt i = some t) (other : ∀ k, 1 ≤ k → k ≠ i → s'.heldAt k = s.heldAt k) :
      LockMove T s t my s' (.storeOnhold i)
  | leave {i : ℕ} {flg : Bool} (free : ¬ (s.heldAt i = some t ∧ flg = true))
      (floor : (s'.phase t).floor T = i + 1)
      (phase : s'.phase t = .inLock my (.storeLevel (i + 1)) ∨ s'.phase t = .critical)
      (held : s'.heldAt = s.heldAt) : LockMove T s t my s' (.loadOnhold i flg)
  | search {i : ℕ} (mine : s.heldAt i = some t) (phase : s'.phase t = .inLock my (.scan i 0))
      (held : s'.heldAt = s.heldAt) : LockMove T s t my s' (.loadOnhold i true)
  | look {i j : ℕ} (more : j < Fintype.card T) (phase : s'.phase t = .inLock my (.scan i (j + 1)))
      (held : s'.heldAt = s.heldAt) : LockMove T s t my s' (.scan i j)
  | blocked {i j : ℕ} (other : ∃ v, v ≠ t ∧ i ≤ (s.phase v).floor T)
      (phase : s'.phase t = .inLock my (.loadOnhold i true))
      (held : s'.heldAt = s.heldAt) : LockMove T s t my s' (.scan i j)
  | clear {i j : ℕ} (phase : s'.phase t = .inLock my (.loadOnhold i false))
      (held : s'.heldAt = s.heldAt) : LockMove T s t my s' (.scan i j)

/-- The level of a thread in memory is at most the one it has come to. -/
theorem Abstracts.level_le_floor {x : FilterLock.State T} (habs : Abstracts r s x)
    (hinv : Invariant x) (t : T) : x.level t ≤ (s.phase t).floor T := by
  rw [hinv.level_eq, habs.control]
  cases ht : s.phase t with
  | outside | searching | exited => exact le_rfl
  | critical => exact Nat.sub_le _ _
  | inLock my pc =>
    cases pc with
    | loadOnhold i flg => cases flg <;> exact le_rfl
    | storeLevel i => exact Nat.sub_le _ _
    | storeOnhold i | scan i j => exact le_rfl
    | returned => exact absurd rfl (habs.mypnode t my _ ht).2

omit [DecidableEq T] in
theorem Represents.heldAt {level : T → ℕ} {victim : ℕ → Option T}
    (hrep : Represents r s.p level victim) (hi : 1 ≤ i) (hcard : i < Fintype.card T) :
    s.heldAt i = victim i := by
  rw [State.heldAt, hrep.onhold i hi hcard]
  rfl

/-- The step of a thread in `lock` is one of the moves. -/
theorem Sound.lockMove (hs : Sound r s) (ht : s.phase t = .inLock my pc)
    (hstep : Step s t s') : LockMove T s t my s' pc := by
  have hlevel := hs.level_of_inLock ht
  obtain ⟨x, habs, hinv⟩ := hs
  have hmem := habs.memory
  cases hstep with
  | lock hout | search hout | unlock hout | exit hout => simp [ht] at hout
  | @access my' pc₀ pc' p' hin hnext =>
    obtain ⟨rfl, rfl⟩ := Phase.inLock.inj (ht.symm.trans hin)
    obtain ⟨rfl, hne⟩ := habs.mypnode t my pc ht
    cases pc with
    | storeLevel i =>
      rw [hmem.lockStep_storeLevel] at hnext
      obtain ⟨rfl, rfl⟩ := Prod.mk.inj (Option.some.inj hnext)
      exact .announce (by simp [Phase.ofLock]) rfl
    | storeOnhold i =>
      obtain ⟨hi, hcard⟩ : 1 ≤ i ∧ i < Fintype.card T := hlevel
      rw [hmem.lockStep_storeOnhold hi hcard] at hnext
      obtain ⟨rfl, rfl⟩ := Prod.mk.inj (Option.some.inj hnext)
      have hlt : i - 1 < s.p.onhold.length :=
        (List.getElem?_eq_some_iff.mp (hmem.onhold i hi hcard)).1
      refine .yield (by simp [Phase.ofLock]) ?_ fun k hk hki => ?_
      · simp [State.heldAt, hlt]
      · have hne : i - 1 ≠ k - 1 := by omega
        simp [State.heldAt, List.getElem?_set_ne hne]
    | loadOnhold i flg =>
      obtain ⟨hi, hcard⟩ : 1 ≤ i ∧ i < Fintype.card T := hlevel
      rw [hmem.lockStep_loadOnhold hi hcard, Option.map_eq_some_iff] at hnext
      obtain ⟨v, hv, hnext⟩ := hnext
      rw [← hmem.heldAt hi hcard] at hv
      split_ifs at hnext with hstay
      · obtain ⟨rfl, rfl⟩ := Prod.mk.inj hnext
        obtain ⟨rfl, rfl⟩ := hstay
        exact .search hv (by simp [Phase.ofLock]) rfl
      · obtain ⟨rfl, rfl⟩ := Prod.mk.inj hnext
        refine .leave ?_ ?_ ?_ rfl
        · rw [hv, Option.some.injEq]
          exact hstay
        · rw [enter_phase_self]
          exact floor_forLevel hmem.size hcard
        · rw [enter_phase_self]
          exact ofLock_forLevel
    | scan i j =>
      cases hj : r.owners[j]? with
      | none =>
        rw [hmem.lockStep_scan_end hj] at hnext
        obtain ⟨rfl, rfl⟩ := Prod.mk.inj (Option.some.inj hnext)
        exact .clear (by simp [Phase.ofLock]) rfl
      | some v =>
        have hmore : j < Fintype.card T := by
          rw [← r.length_owners]
          exact (List.getElem?_eq_some_iff.mp hj).1
        rw [hmem.lockStep_scan hj] at hnext
        obtain ⟨rfl, rfl⟩ := Prod.mk.inj (Option.some.inj hnext)
        by_cases hself : v = t
        · exact .look hmore (by simp [hself, Phase.ofLock]) rfl
        · by_cases hblock : i ≤ x.level v
          · exact .blocked ⟨v, hself, hblock.trans (habs.level_le_floor hinv v)⟩
              (by simp [hself, hblock, Phase.ofLock]) rfl
          · exact .look hmore (by simp [hself, hblock, Phase.ofLock]) rfl
    | returned => exact absurd rfl hne

omit [Fintype T] in
/-- A step moves its own thread only. -/
theorem Step.phase_of_ne (hstep : Step s t s') (h : u ≠ t) : s'.phase u = s.phase u := by
  cases hstep <;> exact enter_phase_of_ne h

omit [Fintype T] in
theorem heldAt_unlock (p : PmutexT T) (h : s'.p = unlock p t) :
    s'.heldAt i = ({ s' with p := p } : State T).heldAt i := by
  rw [State.heldAt, h, unlock]
  split <;> rfl

/-- Only the thread about to store it is put on hold by a step. -/
theorem Sound.heldAt_step (hs : Sound r s) (hstep : Step s t s') (hi : 1 ≤ i) :
    s'.heldAt i = s.heldAt i ∨
      s'.heldAt i = some t ∧ ∃ my, s.phase t = .inLock my (.storeOnhold i) := by
  cases ht : s.phase t with
  | inLock my pc =>
    cases hs.lockMove ht hstep with
    | @yield k _ hmine hother =>
      by_cases hk : i = k
      · subst hk
        exact Or.inr ⟨hmine, my, rfl⟩
      · exact Or.inl (hother i hi hk)
    | announce _ hheld | leave _ _ _ hheld | search _ _ hheld | look _ _ hheld
    | blocked _ _ hheld | clear _ hheld => exact Or.inl (congrFun hheld i)
  | outside | searching | critical | exited =>
    left
    cases hstep with
    | lock _ | search _ | exit _ => rfl
    | unlock _ => exact heldAt_unlock s.p rfl
    | access hin _ => simp [ht] at hin

omit [DecidableEq T] in
/-- A step in `lock` leaves the thread at its level, in the waiting loop if it is there, or
takes it to the announcement of the next level or out of `lock`. -/
theorem LockMove.floor (h : LockMove T s t my s' pc) (ht : s.phase t = .inLock my pc) :
    (s'.phase t).floor T = pc.level ∧
        ((s.phase t).Waits pc.level → (s'.phase t).Waits pc.level) ∨
      (s'.phase t).floor T = pc.level + 1 ∧
        ((∃ my, s'.phase t = .inLock my (.storeLevel (pc.level + 1))) ∨
          s'.phase t = .critical) := by
  cases h with
  | announce hphase _ =>
    left
    rw [hphase, ht]
    refine ⟨rfl, fun ⟨my', hwaits⟩ => ?_⟩
    rcases hwaits with ⟨flg, h⟩ | ⟨j, h⟩ <;> cases h
  | yield hphase _ _ | blocked _ hphase _ | clear hphase _ =>
    left
    rw [hphase]
    exact ⟨rfl, fun _ => ⟨my, Or.inl ⟨_, rfl⟩⟩⟩
  | search _ hphase _ | look _ hphase _ =>
    left
    rw [hphase]
    exact ⟨rfl, fun _ => ⟨my, Or.inr ⟨_, rfl⟩⟩⟩
  | leave _ hfloor hphase _ => exact Or.inr ⟨hfloor, hphase.imp_left fun h => ⟨my, h⟩⟩

/-! ### What happens sooner or later -/

/-- The thread is in `lock` or owns it. -/
def Phase.active (phase : Phase) : Prop := phase.insideLock ∨ phase = .critical

/-- Every thread that is in `lock` or owns it is scheduled sooner or later. -/
def Fair (b : (system r).Behavior) : Prop :=
  ∀ t, b.WeaklyFair (· = t) fun s => (s.phase t).active

section Threads

variable {b : (system r).Behavior} {I P Q : State T → Prop}

omit [Fintype T] in
/-- The rule for one thread: only its own steps have to lower the measure. -/
theorem Fair.leadsTo (hfair : Fair b) (t : T) (measure : Phase → ℕ) (hI : ∀ n, I (b.state n))
    (hactive : ∀ s, I s → P s → (s.phase t).active)
    (hother : ∀ s u s', I s → P s → Step s u s' → u ≠ t → s'.phase t = s.phase t → Q s' ∨ P s')
    (hself : ∀ s s', I s → P s → Step s t s' →
      Q s' ∨ P s' ∧ measure (s'.phase t) < measure (s.phase t)) :
    LeadsTo (fun n => P (b.state n)) fun n => Q (b.state n) := by
  refine Behavior.leadsTo_of_fair (fun s => measure (s.phase t)) hI (hfair t) hactive ?_
  intro s u s' hs _ hp hstep
  by_cases hut : u = t
  · subst hut
    exact (hself s s' hs hp hstep).imp_right fun ⟨hp', hless⟩ => ⟨hp', Or.inl hless⟩
  · have hsame : s'.phase t = s.phase t := hstep.phase_of_ne (Ne.symm hut)
    exact (hother s u s' hs hp hstep hut hsame).imp_right fun hp' =>
      ⟨hp', Or.inr ⟨hut, by rw [hsame]⟩⟩

omit [DecidableEq T] [Fintype T] in
theorem active_of_inLock (h : s.phase t = .inLock my pc) : (s.phase t).active := by
  rw [h]
  exact Or.inl rfl

omit [DecidableEq T] [Fintype T] in
/-- The place of a waiting thread. -/
theorem Phase.Waits.exists_inLock (h : (s.phase t).Waits i) :
    ∃ my pc, s.phase t = .inLock my pc ∧
      ((∃ flg, pc = .loadOnhold i flg) ∨ ∃ j, pc = .scan i j) := by
  obtain ⟨my, ⟨flg, ht⟩ | ⟨j, ht⟩⟩ := h
  · exact ⟨my, _, ht, Or.inl ⟨flg, rfl⟩⟩
  · exact ⟨my, _, ht, Or.inr ⟨j, rfl⟩⟩

/-- A thread about to announce a level comes to store itself on hold there. -/
theorem Fair.announces (hfair : Fair b) (hsound : ∀ n, Sound r (b.state n)) (t : T) (i : ℕ) :
    LeadsTo (fun n => ∃ my, (b.state n).phase t = .inLock my (.storeLevel i))
      fun n => ∃ my, (b.state n).phase t = .inLock my (.storeOnhold i) := by
  refine hfair.leadsTo (P := fun s => ∃ my, s.phase t = .inLock my (.storeLevel i))
    (Q := fun s => ∃ my, s.phase t = .inLock my (.storeOnhold i)) t (fun _ => 0) hsound ?_ ?_ ?_
  · rintro s - ⟨my, ht⟩
    exact active_of_inLock ht
  · rintro s u s' - ⟨my, ht⟩ - - hsame
    exact Or.inr ⟨my, hsame.trans ht⟩
  · rintro s s' hs ⟨my, ht⟩ hstep
    cases hs.lockMove ht hstep with
    | announce hphase _ => exact Or.inl ⟨my, hphase⟩

/-- A thread about to store itself on hold at a level does so and waits. -/
theorem Fair.yields (hfair : Fair b) (hsound : ∀ n, Sound r (b.state n)) (t : T) (i : ℕ) :
    LeadsTo (fun n => ∃ my, (b.state n).phase t = .inLock my (.storeOnhold i))
      fun n => ((b.state n).phase t).Waits i ∧ (b.state n).heldAt i = some t := by
  refine hfair.leadsTo (P := fun s => ∃ my, s.phase t = .inLock my (.storeOnhold i))
    (Q := fun s => (s.phase t).Waits i ∧ s.heldAt i = some t) t (fun _ => 0) hsound ?_ ?_ ?_
  · rintro s - ⟨my, ht⟩
    exact active_of_inLock ht
  · rintro s u s' - ⟨my, ht⟩ - - hsame
    exact Or.inr ⟨my, hsame.trans ht⟩
  · rintro s s' hs ⟨my, ht⟩ hstep
    cases hs.lockMove ht hstep with
    | yield hphase hmine _ => exact Or.inl ⟨⟨my, Or.inl ⟨true, hphase⟩⟩, hmine⟩

/-- What a waiting thread has left to do when nothing stops it: of a scan under way, and
of a full one before it has cleared `flg`. -/
def Phase.scanLeft (T : Type) [Fintype T] : Phase → ℕ
  | .inLock _ (.loadOnhold _ true) => Fintype.card T + 2
  | .inLock _ (.scan _ j) => Fintype.card T - j + 1
  | _ => 0

/-- What a waiting thread has left to do when it is not on hold: the scan under way. -/
def Phase.scanOnly (T : Type) [Fintype T] : Phase → ℕ
  | .inLock _ (.scan _ j) => Fintype.card T - j + 1
  | _ => 0

/-- A waiting thread that is not the one on hold leaves the level. -/
theorem Fair.displaced_climbs (hfair : Fair b) (hsound : ∀ n, Sound r (b.state n)) (t : T)
    (hi : 1 ≤ i) :
    LeadsTo (fun n => ((b.state n).phase t).Waits i ∧ (b.state n).heldAt i ≠ some t)
      fun n => ((b.state n).phase t).floor T = i + 1 := by
  refine hfair.leadsTo (P := fun s => (s.phase t).Waits i ∧ s.heldAt i ≠ some t)
    (Q := fun s => (s.phase t).floor T = i + 1) t (Phase.scanOnly T) hsound ?_ ?_ ?_
  · rintro s - ⟨hwaits, -⟩
    obtain ⟨my, pc, ht, -⟩ := hwaits.exists_inLock
    exact active_of_inLock ht
  · -- whoever is put on hold instead is another thread
    rintro s u s' hs ⟨hwaits, hheld⟩ hstep hut hsame
    refine Or.inr ⟨hsame ▸ hwaits, ?_⟩
    rcases hs.heldAt_step hstep hi with heq | ⟨heq, -⟩
    · rwa [heq]
    · rw [heq]
      exact fun h => hut (Option.some.inj h)
  · rintro s s' hs ⟨hwaits, hheld⟩ hstep
    obtain ⟨my, pc, ht, hpc⟩ := hwaits.exists_inLock
    have hmove := hs.lockMove ht hstep
    rcases hpc with ⟨flg, rfl⟩ | ⟨j, rfl⟩
    · cases hmove with
      | leave _ hfloor _ _ => exact Or.inl hfloor
      | search hmine _ _ => exact absurd hmine hheld
    · right
      rw [ht]
      cases hmove with
      | look hmore hphase hsame =>
        rw [hphase, hsame]
        refine ⟨⟨⟨my, Or.inr ⟨_, rfl⟩⟩, hheld⟩, ?_⟩
        simp only [Phase.scanOnly]
        omega
      | blocked _ hphase hsame | clear hphase hsame =>
        rw [hphase, hsame]
        refine ⟨⟨⟨my, Or.inl ⟨_, rfl⟩⟩, hheld⟩, ?_⟩
        simp only [Phase.scanOnly]
        omega

/-- A waiting thread leaves the level once all others are and stay below it. -/
theorem Fair.alone_climbs (hfair : Fair b) (hsound : ∀ n, Sound r (b.state n)) (t : T)
    (hbelow : ∀ n, ∀ v, v ≠ t → ((b.state n).phase v).floor T < i) :
    LeadsTo (fun n => ((b.state n).phase t).Waits i)
      fun n => ((b.state n).phase t).floor T = i + 1 := by
  refine hfair.leadsTo (I := fun s => Sound r s ∧ ∀ v, v ≠ t → (s.phase v).floor T < i)
    (P := fun s => (s.phase t).Waits i) (Q := fun s => (s.phase t).floor T = i + 1) t
    (Phase.scanLeft T) (fun n => ⟨hsound n, hbelow n⟩) ?_ ?_ ?_
  · rintro s - hwaits
    obtain ⟨my, pc, ht, -⟩ := hwaits.exists_inLock
    exact active_of_inLock ht
  · rintro s u s' - hwaits - - hsame
    exact Or.inr (hsame ▸ hwaits)
  · rintro s s' ⟨hs, hall⟩ hwaits hstep
    obtain ⟨my, pc, ht, hpc⟩ := hwaits.exists_inLock
    have hmove := hs.lockMove ht hstep
    rcases hpc with ⟨flg, rfl⟩ | ⟨j, rfl⟩
    · cases hmove with
      | leave _ hfloor _ _ => exact Or.inl hfloor
      | search _ hphase _ =>
        right
        rw [ht, hphase]
        exact ⟨⟨my, Or.inr ⟨_, rfl⟩⟩, by simp [Phase.scanLeft]⟩
    · right
      rw [ht]
      cases hmove with
      | look hmore hphase _ =>
        rw [hphase]
        refine ⟨⟨my, Or.inr ⟨_, rfl⟩⟩, ?_⟩
        simp only [Phase.scanLeft]
        omega
      | blocked hother _ _ =>
        obtain ⟨v, hv, hle⟩ := hother
        exact absurd (hall v hv) (not_lt.mpr hle)
      | clear hphase _ =>
        rw [hphase]
        exact ⟨⟨my, Or.inl ⟨_, rfl⟩⟩, by simp [Phase.scanLeft]⟩

omit [Fintype T] in
/-- The owner comes out of the lock. -/
theorem Fair.leaves (hfair : Fair b) (t : T) :
    LeadsTo (fun n => (b.state n).phase t = .critical)
      fun n => (b.state n).phase t = .outside := by
  refine hfair.leadsTo (I := fun _ => True) (P := fun s => s.phase t = .critical)
    (Q := fun s => s.phase t = .outside) t (fun _ => 0) (fun _ => trivial) ?_ ?_ ?_
  · rintro s - ht
    exact Or.inr ht
  · rintro s u s' - ht - - hsame
    exact Or.inr (hsame.trans ht)
  · rintro s s' - ht hstep
    left
    cases hstep with
    | unlock _ => exact enter_phase_self
    | lock h | search h | access h _ | exit h => simp [ht] at h

/-- The search finds the node of the thread. -/
theorem Fair.finds (hfair : Fair b) (hsound : ∀ n, Sound r (b.state n)) (t : T) :
    LeadsTo (fun n => (b.state n).phase t = .searching)
      fun n => ((b.state n).phase t).floor T = 1 := by
  refine hfair.leadsTo (P := fun s => s.phase t = .searching)
    (Q := fun s => (s.phase t).floor T = 1) t (fun _ => 0) hsound ?_ ?_ ?_
  · rintro s - ht
    rw [ht]
    exact Or.inl rfl
  · rintro s u s' - ht - - hsame
    exact Or.inr (hsame.trans ht)
  · rintro s s' ⟨x, habs, -⟩ ht hstep
    left
    cases hstep with
    | search _ =>
      rw [enter_phase_self]
      exact floor_forLevel habs.memory.size (Fintype.card_pos_iff.mpr ⟨t⟩)
    | lock h | unlock h | access h _ | exit h => simp [ht] at h

/-! ### One level -/

/-- If the levels above are always left, a thread above a level comes out of the lock. -/
theorem Fair.comes_out (hfair : Fair b) (hsound : ∀ n, Sound r (b.state n))
    (hhigher : ∀ j, i < j → j < Fintype.card T → ∀ t, LeadsTo
      (fun n => ((b.state n).phase t).floor T = j) fun n => ((b.state n).phase t).floor T = j + 1)
    (t : T) :
    LeadsTo (fun n => i < ((b.state n).phase t).floor T)
      fun n => ((b.state n).phase t).floor T = 0 := by
  apply LeadsTo.of_measure fun n => Fintype.card T - ((b.state n).phase t).floor T
  rintro k n ⟨hn, hk⟩
  by_cases hj : ((b.state n).phase t).floor T < Fintype.card T
  · obtain ⟨m, hnm, hm⟩ := hhigher _ hn hj t n rfl
    exact ⟨m, hnm, Or.inr ⟨by omega, by omega⟩⟩
  · -- above all levels it owns the lock
    obtain ⟨m, hnm, hm⟩ := hfair.leaves t n ((hsound n).critical_of_floor (not_lt.mp hj))
    exact ⟨m, hnm, Or.inl (by rw [hm]; rfl)⟩

/-- A thread that has not come to a level is below it after a step, or announces it. -/
theorem Sound.floor_step (hs : Sound r s) (hstep : Step s u s') (hcard : i < Fintype.card T)
    (ht : (s.phase t).floor T < i) :
    (s'.phase t).floor T < i ∨ ∃ my, s'.phase t = .inLock my (.storeLevel i) := by
  by_cases hut : t = u
  swap
  · left
    rwa [hstep.phase_of_ne hut]
  subst hut
  -- coming from a level below, `lock` announces the level or leaves it
  have hnext : ∀ k, k ≤ i → (s'.phase t).floor T = k →
      (∃ my, s'.phase t = .inLock my (.storeLevel k)) ∨ s'.phase t = .critical →
      (s'.phase t).floor T < i ∨ ∃ my, s'.phase t = .inLock my (.storeLevel i) := by
    rintro k hk hfloor (⟨my, hphase⟩ | hphase)
    · rcases hk.eq_or_lt with rfl | hlt
      · exact Or.inr ⟨my, hphase⟩
      · exact Or.inl (hfloor ▸ hlt)
    · rw [hphase, Phase.floor] at hfloor
      omega
  have hsearch : ∀ my, (s'.phase t) = .ofLock my (forLevel s.p 1) →
      (s'.phase t).floor T < i ∨ ∃ my, s'.phase t = .inLock my (.storeLevel i) := by
    intro my hphase
    obtain ⟨x, habs, -⟩ := hs
    refine hnext 1 (by omega) ?_ ?_
    · rw [hphase]
      exact floor_forLevel habs.memory.size (by omega)
    · rw [hphase]
      exact ofLock_forLevel.imp_left fun h => ⟨my, h⟩
  cases hphase : s.phase t with
  | inLock my pc =>
    rw [hphase] at ht
    rcases (hs.lockMove hphase hstep).floor hphase with ⟨hfloor, -⟩ | ⟨hfloor, hto⟩
    · exact Or.inl (hfloor ▸ ht)
    · exact hnext _ ht hfloor hto
  | outside | searching | critical | exited =>
    cases hstep with
    | search _ => exact hsearch _ enter_phase_self
    | lock _ | unlock _ | exit _ =>
      left
      rw [enter_phase_self]
      exact (Nat.zero_le _).trans_lt ht
    | access hin _ => simp [hphase] at hin

omit [DecidableEq T] in
/-- A thread that has come to a level is in `lock` there. -/
theorem exists_inLock_of_floor {phase : Phase} (hi : 1 ≤ i) (hcard : i < Fintype.card T)
    (h : phase.floor T = i) : ∃ my pc, phase = .inLock my pc ∧ pc.level = i := by
  cases phase with
  | inLock my pc => exact ⟨my, pc, rfl, h⟩
  | critical => exact absurd h hcard.ne'
  | outside | searching | exited =>
    simp only [Phase.floor] at h
    omega

/-- A thread stays at its level from one moment to the next, in the waiting loop if it is
there, or comes to the next level. -/
theorem stays_or_climbs (b : (system r).Behavior) (hsound : ∀ n, Sound r (b.state n)) (hi : 1 ≤ i)
    (hcard : i < Fintype.card T) (hn : ((b.state n).phase t).floor T = i) :
    ((b.state (n + 1)).phase t).floor T = i ∧
        (((b.state n).phase t).Waits i → ((b.state (n + 1)).phase t).Waits i) ∨
      ((b.state (n + 1)).phase t).floor T = i + 1 := by
  rcases b.next_cases n with ⟨-, hsame⟩ | ⟨u, -, hstep⟩
  · rw [hsame]
    exact Or.inl ⟨hn, id⟩
  · by_cases htu : t = u
    · subst htu
      obtain ⟨my, pc, ht, rfl⟩ := exists_inLock_of_floor hi hcard hn
      exact (((hsound n).lockMove ht hstep).floor ht).imp_right fun h => h.1
    · have hstep : Step (b.state n) u (b.state (n + 1)) := hstep
      rw [hstep.phase_of_ne htu]
      exact Or.inl ⟨hn, id⟩

/-- What a thread that stays at level `i` for ever, from moment `n` on, comes to. -/
structure Stuck (b : (system r).Behavior) (t : T) (i n : ℕ) : Prop where
  waits : ∀ m, n ≤ m → ((b.state m).phase t).Waits i
  held : ∀ m, n ≤ m → (b.state m).heldAt i = some t

/-- A thread that never leaves its level waits there, on hold for ever. -/
theorem Fair.exists_stuck (hfair : Fair b) (hsound : ∀ n, Sound r (b.state n)) (hi : 1 ≤ i)
    (hcard : i < Fintype.card T) (hn : ((b.state n).phase t).floor T = i)
    (hnever : ∀ m, n ≤ m → ((b.state m).phase t).floor T ≠ i + 1) :
    ∃ m, n ≤ m ∧ Stuck b t i m := by
  have hfloor : ∀ m, n ≤ m → ((b.state m).phase t).floor T = i := by
    intro m hm
    induction m, hm using Nat.le_induction with
    | base => exact hn
    | succ m hm ih =>
      rcases stays_or_climbs b hsound hi hcard ih with ⟨h, -⟩ | h
      · exact h
      · exact absurd h (hnever (m + 1) (by omega))
  -- its stores to level `i` come first
  obtain ⟨k, hnk, hk⟩ : ∃ k, n ≤ k ∧ ((b.state k).phase t).Waits i := by
    obtain ⟨my, pc, ht, hpc⟩ := exists_inLock_of_floor hi hcard hn
    have hyields := (hfair.yields hsound t i).mono (fun _ h => h) fun _ h => h.1
    cases pc with
    | storeLevel k =>
      obtain rfl : k = i := hpc
      exact ((hfair.announces hsound t k).trans hyields) n ⟨my, ht⟩
    | storeOnhold k =>
      obtain rfl : k = i := hpc
      exact hyields n ⟨my, ht⟩
    | loadOnhold k flg =>
      obtain rfl : k = i := hpc
      exact ⟨n, le_rfl, my, Or.inl ⟨flg, ht⟩⟩
    | scan k j =>
      obtain rfl : k = i := hpc
      exact ⟨n, le_rfl, my, Or.inr ⟨j, ht⟩⟩
    | returned =>
      simp only [LockPc.level] at hpc
      omega
  have hwaits : ∀ m, k ≤ m → ((b.state m).phase t).Waits i := by
    intro m hm
    induction m, hm using Nat.le_induction with
    | base => exact hk
    | succ m hm ih =>
      rcases stays_or_climbs b hsound hi hcard (hfloor m (hnk.trans hm)) with ⟨-, h⟩ | h
      · exact h ih
      · exact absurd h (hnever (m + 1) (by omega))
  refine ⟨k, hnk, hwaits, fun m hm => ?_⟩
  by_contra hheld
  obtain ⟨l, hml, hl⟩ := hfair.displaced_climbs hsound t hi m ⟨hwaits m hm, hheld⟩
  exact hnever l (by omega) hl

/-- While a thread is stuck at a level, nobody else is about to announce the level or to
store itself on hold there. -/
theorem Stuck.nobody_enters (hstuck : Stuck b t i n) (hfair : Fair b)
    (hsound : ∀ n, Sound r (b.state n)) (hu : u ≠ t) {m : ℕ} (hm : n ≤ m) (my : Option ℕ) :
    (b.state m).phase u ≠ .inLock my (.storeLevel i) ∧
      (b.state m).phase u ≠ .inLock my (.storeOnhold i) := by
  have hnot : ∀ m, n ≤ m → ∀ my, (b.state m).phase u ≠ .inLock my (.storeOnhold i) := by
    intro m hm my h
    obtain ⟨k, hmk, -, hk⟩ := hfair.yields hsound u i m ⟨my, h⟩
    rw [hstuck.held k (hm.trans hmk)] at hk
    exact hu (Option.some.inj hk).symm
  refine ⟨fun h => ?_, hnot m hm my⟩
  obtain ⟨k, hmk, my', hk⟩ := hfair.announces hsound u i m ⟨my, h⟩
  exact hnot k (hm.trans hmk) my' hk

/-- While a thread is stuck at a level, every other one comes below the level and stays
there. -/
theorem Stuck.eventually_below (hstuck : Stuck b t i n) (hfair : Fair b)
    (hsound : ∀ n, Sound r (b.state n)) (hi : 1 ≤ i) (hcard : i < Fintype.card T)
    (hhigher : ∀ j, i < j → j < Fintype.card T → ∀ t, LeadsTo
      (fun n => ((b.state n).phase t).floor T = j) fun n => ((b.state n).phase t).floor T = j + 1)
    (hu : u ≠ t) : ∀ᶠ m in Filter.atTop, ((b.state m).phase u).floor T < i := by
  have hstable : ∀ m, n ≤ m → ((b.state m).phase u).floor T < i →
      ((b.state (m + 1)).phase u).floor T < i := by
    intro m hm hlt
    rcases b.next_cases m with ⟨-, hsame⟩ | ⟨v, -, hstep⟩
    · rwa [hsame]
    · rcases (hsound m).floor_step hstep hcard hlt with h | ⟨my, h⟩
      · exact h
      · exact absurd h (hstuck.nobody_enters hfair hsound hu (by omega) my).1
  have hout := (hfair.comes_out hsound hhigher u).mono (fun _ h => h) fun _ h => h.trans_lt hi
  obtain ⟨k, hnk, hk⟩ : ∃ k, n ≤ k ∧ ((b.state k).phase u).floor T < i := by
    rcases lt_trichotomy (((b.state n).phase u).floor T) i with h | h | h
    · exact ⟨n, le_rfl, h⟩
    · -- at the level it waits and is not the one on hold
      obtain ⟨my, pc, hphase, hpc⟩ := exists_inLock_of_floor hi hcard h
      have hwaits : ((b.state n).phase u).Waits i := by
        have hnone := hstuck.nobody_enters hfair hsound hu le_rfl my
        cases pc with
        | storeLevel k | storeOnhold k =>
          obtain rfl : k = i := hpc
          simp [hphase] at hnone
        | loadOnhold k flg =>
          obtain rfl : k = i := hpc
          exact ⟨my, Or.inl ⟨flg, hphase⟩⟩
        | scan k j =>
          obtain rfl : k = i := hpc
          exact ⟨my, Or.inr ⟨j, hphase⟩⟩
        | returned =>
          simp only [LockPc.level] at hpc
          omega
      have hheld : (b.state n).heldAt i ≠ some u := by
        rw [hstuck.held n le_rfl]
        exact fun h => hu (Option.some.inj h).symm
      obtain ⟨k, hnk, hk⟩ := hfair.displaced_climbs hsound u hi n ⟨hwaits, hheld⟩
      obtain ⟨l, hkl, hl⟩ := hout k (by omega)
      exact ⟨l, hnk.trans hkl, hl⟩
    · exact hout n h
  rw [Filter.eventually_atTop]
  refine ⟨k, fun m hm => ?_⟩
  induction m, hm using Nat.le_induction with
  | base => exact hk
  | succ m hm ih => exact hstable m (hnk.trans hm) ih

/-- A level is left if those above are: nobody stays at it for ever. -/
theorem Fair.climbs_of_higher (hfair : Fair b) (hsound : ∀ n, Sound r (b.state n)) (hi : 1 ≤ i)
    (hcard : i < Fintype.card T)
    (hhigher : ∀ j, i < j → j < Fintype.card T → ∀ t, LeadsTo
      (fun n => ((b.state n).phase t).floor T = j) fun n => ((b.state n).phase t).floor T = j + 1)
    (t : T) :
    LeadsTo (fun n => ((b.state n).phase t).floor T = i)
      fun n => ((b.state n).phase t).floor T = i + 1 := by
  intro n hn
  by_contra hnever
  push Not at hnever
  obtain ⟨m, hnm, hstuck⟩ := hfair.exists_stuck hsound hi hcard hn hnever
  have hall : ∀ᶠ k in Filter.atTop, ∀ u, u ≠ t → ((b.state k).phase u).floor T < i := by
    rw [Filter.eventually_all]
    intro u
    by_cases hu : u = t
    · exact Filter.Eventually.of_forall fun _ h => absurd hu h
    · exact (hstuck.eventually_below hfair hsound hi hcard hhigher hu).mono fun _ h _ => h
  obtain ⟨k, hk⟩ := Filter.eventually_atTop.mp hall
  -- from a moment on all others are below, and a full scan lets the thread pass
  have hfair' : Fair (b.drop (max k m)) := fun u => (hfair u).drop _
  obtain ⟨l, -, hl⟩ := hfair'.alone_climbs (i := i) (fun l => hsound _) t
    (fun l => hk _ ((le_max_left k m).trans (Nat.le_add_right _ l))) 0
    (hstuck.waits _ (le_max_right k m))
  exact hnever (max k m + l) (by omega) hl

/-- Every level is left: by induction from the highest one down. -/
theorem Fair.climbs (hfair : Fair b) (hsound : ∀ n, Sound r (b.state n)) (hi : 1 ≤ i)
    (hcard : i < Fintype.card T) (t : T) :
    LeadsTo (fun n => ((b.state n).phase t).floor T = i)
      fun n => ((b.state n).phase t).floor T = i + 1 := by
  induction hk : Fintype.card T - i using Nat.strongRecOn generalizing i t with
  | ind k ih =>
    refine hfair.climbs_of_higher hsound hi hcard (fun j hij hj u => ?_) t
    exact ih (Fintype.card T - j) (by omega) (by omega) hj u rfl

/-- A thread in `lock` comes to own it. -/
theorem Fair.acquires (hfair : Fair b) (hsound : ∀ n, Sound r (b.state n)) (t : T) :
    LeadsTo (fun n => ((b.state n).phase t).insideLock)
      fun n => (b.state n).phase t = .critical := by
  have hfound : LeadsTo (fun n => 1 ≤ ((b.state n).phase t).floor T)
      fun n => (b.state n).phase t = .critical := by
    apply LeadsTo.of_measure fun n => Fintype.card T - ((b.state n).phase t).floor T
    rintro k n ⟨hn, hk⟩
    by_cases hcard : ((b.state n).phase t).floor T < Fintype.card T
    · obtain ⟨m, hnm, hm⟩ := hfair.climbs hsound hn hcard t n rfl
      exact ⟨m, hnm, Or.inr ⟨by omega, by omega⟩⟩
    · exact ⟨n, le_rfl, Or.inl ((hsound n).critical_of_floor (not_lt.mp hcard))⟩
  intro n hin
  cases hphase : (b.state n).phase t with
  | outside | critical | exited => simp [hphase, Phase.insideLock] at hin
  | searching =>
    exact ((hfair.finds hsound t).trans (hfound.mono (fun _ h => h.ge) fun _ h => h)) n hphase
  | inLock my pc =>
    apply hfound n
    rw [hphase]
    exact ((hsound n).level_of_inLock hphase).1

end Threads

/-! ### Every call of `lock` returns -/

/-- A thread that is in `lock` or owns it can take a step. -/
theorem enabled_of_active (hs : (system r).Reachable s) (ht : (s.phase t).active) :
    (system r).Enabled (· = t) s := by
  cases hphase : s.phase t with
  | outside | exited => simp [hphase, Phase.active, Phase.insideLock] at ht
  | searching => exact ⟨t, _, rfl, .search hphase⟩
  | inLock my pc =>
    obtain ⟨p', pc', hnext⟩ := exists_lockStep hs hphase
    exact ⟨t, _, rfl, .access hphase hnext⟩
  | critical => exact ⟨t, _, rfl, .unlock hphase⟩

/-- Fair behaviours start in every reachable state. -/
theorem exists_fair [Encodable T] (hs : (system r).Reachable s) :
    ∃ b : (system r).Behavior, b.state 0 = s ∧ Fair b := by
  obtain ⟨b, hstart, hfair⟩ := (system r).exists_fair_behavior (fun t a => a = t) s
  refine ⟨b, hstart, fun t => (hfair t).mono fun n => ?_⟩
  exact enabled_of_active (b.reachable (hstart ▸ hs) n)

/-- No starvation in `pmutex`: if the threads that are in `lock` or own it are scheduled
again and again, every thread that is in `lock` returns from it. -/
theorem pmutex_starvation_free (r : Roster T) (b : (system r).Behavior)
    (hreach : (system r).Reachable (b.state 0)) (hfair : Fair b) (t : T) {n : ℕ}
    (hin : ((b.state n).phase t).insideLock) :
    ∃ m, n ≤ m ∧ (b.state m).phase t = .critical :=
  hfair.acquires (fun m => exists_abstract (b.reachable hreach m)) t n hin

/-- Two threads that have both called `lock`: each of them gets it. -/
theorem pmutex_starvation_free_two_threads :
    ∃ b : (system twoThreads).Behavior, (system twoThreads).Reachable (b.state 0) ∧ Fair b ∧
      (∃ m, (b.state m).phase 0 = .critical) ∧ ∃ m, (b.state m).phase 1 = .critical := by
  have hinit : (system twoThreads).Reachable ⟨twoThreads.registered, fun _ => .outside⟩ :=
    .of_initial ⟨rfl, fun _ => rfl⟩
  have hboth := (hinit.step (a := 0) (.lock rfl)).step (a := 1) (.lock rfl)
  obtain ⟨b, hstart, hfair⟩ := exists_fair hboth
  have hreach : (system twoThreads).Reachable (b.state 0) := hstart ▸ hboth
  have hin : ∀ t, ((b.state 0).phase t).insideLock := by
    rw [hstart]
    decide
  refine ⟨b, hreach, hfair, ?_, ?_⟩
  · obtain ⟨m, -, hm⟩ := pmutex_starvation_free twoThreads b hreach hfair 0 (hin 0)
    exact ⟨m, hm⟩
  · obtain ⟨m, -, hm⟩ := pmutex_starvation_free twoThreads b hreach hfair 1 (hin 1)
    exact ⟨m, hm⟩

end Sisop.Pmutex
