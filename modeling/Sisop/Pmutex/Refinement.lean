import Sisop.Foundations.FilterLock
import Sisop.Pmutex.Basic

/-!
# `pmutex` refines the filter lock

The lists of a registered mutex represent the levels and victims of the abstract
filter lock: the node of a thread carries its level, the `onhold` node of a level its
victim. A thread scanning `pnode` at position `j` has seen the owners of the first
`j` nodes, itself apart. Every step of the threads is then one step of the abstract
lock or none: skipping one's own node and finding the scan's end change nothing.

## Main results

* `lockStep_storeLevel` to `lockStep_scan_end` — what the next access of `lock` does
* `simulates` — the threads of a roster simulate the filter lock
* `exists_lockStep` — no access of `lock` is undefined
-/

namespace Sisop.Pmutex

open Foundations FilterLock

variable {T : Type} [DecidableEq T] [Fintype T] {r : Roster T} {p : PmutexT T}
  {level : T → ℕ} {victim : ℕ → Option T} {t v : T} {i j : ℕ} {flg : Bool}

namespace Roster

/-- The owners along `pnode`: the last registered thread first. -/
def owners (r : Roster T) : List T := r.ths.reverse

omit [DecidableEq T] [Fintype T] in
theorem nodup_owners (r : Roster T) : r.owners.Nodup := List.nodup_reverse.mpr r.nodup

omit [DecidableEq T] [Fintype T] in
theorem mem_owners (r : Roster T) (t : T) : t ∈ r.owners := List.mem_reverse.mpr (r.mem t)

theorem toFinset_owners (r : Roster T) : r.owners.toFinset = Finset.univ := by
  ext t
  simp [r.mem_owners t]

theorem length_owners (r : Roster T) : r.owners.length = Fintype.card T := by
  rw [← List.toFinset_card_of_nodup r.nodup_owners, r.toFinset_owners, Finset.card_univ]

/-- The position of a thread's node in `pnode`. -/
def slot (r : Roster T) (t : T) : ℕ := r.owners.idxOf t

omit [Fintype T] in
theorem getElem?_slot (r : Roster T) (t : T) : r.owners[r.slot t]? = some t := by
  rw [slot, List.getElem?_eq_getElem (List.idxOf_lt_length_of_mem (r.mem_owners t))]
  exact congrArg some (List.getElem_idxOf _)

omit [Fintype T] in
/-- A node of `pnode` owned by `t` is the node of `t`. -/
theorem eq_slot (r : Roster T) {k : ℕ} (h : r.owners[k]? = some t) : k = r.slot t := by
  have hk : k < r.owners.length := (List.getElem?_eq_some_iff.mp h).1
  exact (List.getElem?_inj hk r.nodup_owners).mp (h.trans (r.getElem?_slot t).symm)

end Roster

/-! ### Memory -/

/-- The lists of a mutex represent the levels of a roster's threads and the victims
of the levels `1, ..., card T - 1`. -/
structure Represents (r : Roster T) (p : PmutexT T) (level : T → ℕ)
    (victim : ℕ → Option T) : Prop where
  owners : p.pnode.map PnodeT.owner = r.owners
  size : p.size = Fintype.card T
  level_eq : ∀ nd ∈ p.pnode, level nd.owner = nd.level
  onhold : ∀ i, 1 ≤ i → i < Fintype.card T → p.onhold[i - 1]? = some (victim i)

omit [DecidableEq T] [Fintype T] in
private theorem foldl_pmutexAdd (ths : List T) (p : PmutexT T) :
    ths.foldl pmutexAdd p = {
      size := p.size + ths.length
      onhold := List.replicate ths.length none ++ p.onhold
      pnode := ths.reverse.map (fun t => { level := 0, owner := t }) ++ p.pnode } := by
  induction ths generalizing p with
  | nil => simp
  | cons t ths ih =>
    rw [List.foldl_cons, ih]
    simp only [pmutexAdd, List.length_cons, List.reverse_cons, List.map_append, List.map_cons,
      List.map_nil, List.append_assoc, List.singleton_append, List.replicate_succ']
    congr 1
    omega

/-- After registration every thread is at level 0 and no level has a victim. -/
theorem represents_registered (r : Roster T) :
    Represents r r.registered (fun _ => 0) fun _ => none := by
  rw [Roster.registered, foldl_pmutexAdd]
  constructor
  · simp [pmutexCreate, Roster.owners, Function.comp_def]
  · rw [← r.length_owners, Roster.owners, List.length_reverse]
    simp [pmutexCreate]
  · intro nd hnd
    simp only [pmutexCreate, List.append_nil, List.mem_map] at hnd
    obtain ⟨_, -, rfl⟩ := hnd
    rfl
  · intro i hi hcard
    rw [← r.length_owners, Roster.owners, List.length_reverse] at hcard
    have hlt : i - 1 < r.ths.length := by omega
    simp [pmutexCreate, hlt]

namespace Represents

omit [DecidableEq T] in
/-- The node at a position, its owner and its level. -/
theorem getElem?_pnode (hrep : Represents r p level victim) {k : ℕ}
    (h : r.owners[k]? = some t) : p.pnode[k]? = some { level := level t, owner := t } := by
  rw [← hrep.owners, List.getElem?_map, Option.map_eq_some_iff] at h
  obtain ⟨nd, hnd, rfl⟩ := h
  rw [hnd, hrep.level_eq nd (List.mem_of_getElem? hnd)]

theorem findNode_eq (hrep : Represents r p level victim) (t : T) :
    findNode p t = some (r.slot t) := by
  rw [findNode, List.findIdx?_eq_some_iff_getElem]
  have hmine := List.getElem?_eq_some_iff.mp (hrep.getElem?_pnode (r.getElem?_slot t))
  obtain ⟨hlt, heq⟩ := hmine
  refine ⟨hlt, by simp [heq], ?_⟩
  intro k hk
  have hother : r.owners[k]? = some p.pnode[k].owner := by
    rw [← hrep.owners, List.getElem?_map, List.getElem?_eq_getElem]
    rfl
  simp only [decide_eq_true_eq]
  intro hown
  rw [hown] at hother
  exact hk.ne (r.eq_slot hother)

/-- Storing to a thread's level changes that thread's level. -/
theorem storeLevel (hrep : Represents r p level victim) (t : T) (l : ℕ) :
    Represents r (storeLevel p (r.slot t) l) (Function.update level t l) victim where
  owners := by rw [map_owner_storeLevel, hrep.owners]
  size := hrep.size
  level_eq := by
    intro nd hnd
    obtain ⟨k, hk⟩ := List.getElem?_of_mem hnd
    rw [Pmutex.storeLevel, List.getElem?_modify, Option.map_eq_map, Option.map_eq_some_iff] at hk
    obtain ⟨old, hold, rfl⟩ := hk
    have howner : r.owners[k]? = some old.owner := by
      rw [← hrep.owners, List.getElem?_map, hold]
      rfl
    -- a node is the one stored to exactly when its owner is the thread
    split_ifs with hslot
    · have hself : old.owner = t := by
        rw [← hslot, r.getElem?_slot] at howner
        exact (Option.some.inj howner).symm
      simp [hself]
    · have hne : old.owner ≠ t := by
        rintro rfl
        exact hslot (r.eq_slot howner).symm
      simp [hne, hrep.level_eq old (List.mem_of_getElem? hold)]
  onhold := hrep.onhold

omit [DecidableEq T] in
/-- Storing to the `onhold` node of a level changes that level's victim. -/
theorem storeOnhold (hrep : Represents r p level victim) (hi : 1 ≤ i)
    (hcard : i < Fintype.card T) (t : T) :
    Represents r { p with onhold := p.onhold.set (i - 1) (some t) } level
      (Function.update victim i (some t)) where
  owners := hrep.owners
  size := hrep.size
  level_eq := hrep.level_eq
  onhold := by
    intro k hk hkcard
    have hlt : i - 1 < p.onhold.length := (List.getElem?_eq_some_iff.mp (hrep.onhold i hi hcard)).1
    by_cases hki : k = i
    · subst hki
      simp [hlt]
    · rw [List.getElem?_set_ne (by omega), Function.update_of_ne hki]
      exact hrep.onhold k hk hkcard

theorem unlock (hrep : Represents r p level victim) (t : T) :
    Represents r (unlock p t) (Function.update level t 0) victim := by
  rw [Pmutex.unlock, hrep.findNode_eq t]
  exact hrep.storeLevel t 0

/-! ### The accesses of `lock` -/

theorem lockStep_storeLevel (hrep : Represents r p level victim) :
    lockStep p (some (r.slot t)) (.storeLevel i) =
      some (Pmutex.storeLevel p (r.slot t) i, .storeOnhold i) := by
  simp [lockStep, hrep.getElem?_pnode (r.getElem?_slot t)]

theorem lockStep_storeOnhold (hrep : Represents r p level victim) (hi : 1 ≤ i)
    (hcard : i < Fintype.card T) :
    lockStep p (some (r.slot t)) (.storeOnhold i) =
      some ({ p with onhold := p.onhold.set (i - 1) (some t) }, .loadOnhold i true) := by
  simp [lockStep, hrep.getElem?_pnode (r.getElem?_slot t), hrep.onhold i hi hcard]

theorem lockStep_loadOnhold (hrep : Represents r p level victim) (hi : 1 ≤ i)
    (hcard : i < Fintype.card T) :
    lockStep p (some (r.slot t)) (.loadOnhold i flg) = (victim i).map fun v =>
      if v = t ∧ flg then (p, .scan i 0) else (p, forLevel p (i + 1)) := by
  cases hv : victim i with
  | none => simp [lockStep, hrep.onhold i hi hcard, hv]
  | some v =>
    simp only [lockStep, hrep.getElem?_pnode (r.getElem?_slot t), hrep.onhold i hi hcard, hv,
      Option.bind_eq_bind, Option.bind_some, Option.map_some]
    split_ifs <;> rfl

theorem lockStep_scan (hrep : Represents r p level victim) (hj : r.owners[j]? = some v) :
    lockStep p (some (r.slot t)) (.scan i j) = some (p,
      if v = t then .scan i (j + 1)
      else if i ≤ level v then .loadOnhold i true
      else .scan i (j + 1)) := by
  have hlt : j < p.size := by
    rw [hrep.size, ← r.length_owners]
    exact (List.getElem?_eq_some_iff.mp hj).1
  simp only [lockStep, hlt, if_true, hrep.getElem?_pnode (r.getElem?_slot t),
    hrep.getElem?_pnode hj, Option.bind_eq_bind, Option.bind_some]
  split_ifs <;> rfl

theorem lockStep_scan_end (hrep : Represents r p level victim) (hj : r.owners[j]? = none) :
    lockStep p (some (r.slot t)) (.scan i j) = some (p, .loadOnhold i false) := by
  have hge : ¬ j < p.size := by
    rw [hrep.size, ← r.length_owners]
    exact not_lt.mpr (List.getElem?_eq_none_iff.mp hj)
  simp [lockStep, hge]

end Represents

/-! ### Control -/

/-- What a thread scanning `pnode` at position `j` has seen: the owners of the nodes
before it, itself apart. -/
def Roster.seen (r : Roster T) (t : T) (j : ℕ) : Finset T := (r.owners.take j).toFinset.erase t

omit [Fintype T] in
theorem Roster.seen_succ (r : Roster T) (hj : r.owners[j]? = some v) :
    r.seen t (j + 1) = (insert v (r.owners.take j).toFinset).erase t := by
  rw [seen, List.take_add_one, hj]
  ext w
  simp

omit [Fintype T] in
theorem Roster.seen_succ_self (r : Roster T) (hj : r.owners[j]? = some t) :
    r.seen t (j + 1) = r.seen t j := by
  rw [r.seen_succ hj, seen, Finset.erase_insert_eq_erase]

omit [Fintype T] in
theorem Roster.seen_succ_of_ne (r : Roster T) (hj : r.owners[j]? = some v) (hv : v ≠ t) :
    r.seen t (j + 1) = insert v (r.seen t j) := by
  rw [r.seen_succ hj, seen, Finset.erase_insert_of_ne hv]

theorem Roster.seen_end (r : Roster T) (hj : r.owners[j]? = none) :
    r.seen t j = Finset.univ.erase t := by
  rw [seen, List.take_of_length_le (List.getElem?_eq_none_iff.mp hj), r.toFinset_owners]

/-- The control of the abstract lock that a place in `lock` stands for. -/
def LockPc.control (r : Roster T) (t : T) : LockPc → Control T
  | .storeLevel i => .announce i
  | .storeOnhold i => .yield i
  | .loadOnhold i true => .wait i
  | .loadOnhold i false => .scan i (Finset.univ.erase t)
  | .scan i j => .scan i (r.seen t j)
  | .returned => .inside

/-- The control of the abstract lock that a phase stands for. -/
def Phase.control (r : Roster T) (t : T) : Phase → Control T
  | .outside | .searching | .exited => .outside
  | .inLock _ pc => pc.control r t
  | .critical => .inside

@[simp] theorem control_ofLock (my : Option ℕ) (pc : LockPc) :
    (Phase.ofLock my pc).control r t = pc.control r t := by
  cases pc <;> rfl

theorem control_forLevel (hsize : p.size = Fintype.card T) :
    (forLevel p i).control r t = enter T i := by
  rw [forLevel, enter, hsize]
  split_ifs <;> rfl

/-- A concrete state, the abstract state it stands for, and the pointer every thread
inside `lock` has found. -/
structure Abstracts (r : Roster T) (s : State T) (x : FilterLock.State T) : Prop where
  memory : Represents r s.p x.level x.victim
  control : ∀ t, x.control t = (s.phase t).control r t
  mypnode : ∀ t my pc, s.phase t = .inLock my pc → my = some (r.slot t) ∧ pc ≠ .returned

/-- The owner of the abstract lock is the thread between `lock` and `unlock`. -/
theorem Abstracts.inside_iff {s : State T} {x : FilterLock.State T} (habs : Abstracts r s x) :
    x.control t = .inside ↔ s.phase t = .critical := by
  rw [habs.control t]
  cases hphase : s.phase t with
  | outside | searching | exited | critical => simp [Phase.control]
  | inLock my pc =>
    have hne := (habs.mypnode t my pc hphase).2
    cases pc with
    | loadOnhold i flg => cases flg <;> simp [Phase.control, LockPc.control]
    | storeLevel i | storeOnhold i | scan i j => simp [Phase.control, LockPc.control]
    | returned => exact absurd rfl hne

/-- A thread that competes for the abstract lock has found its node. -/
theorem Abstracts.outside_iff {s : State T} {x : FilterLock.State T} (habs : Abstracts r s x) :
    x.control t = .outside ↔
      s.phase t = .outside ∨ s.phase t = .searching ∨ s.phase t = .exited := by
  rw [habs.control t]
  cases hphase : s.phase t with
  | outside | searching | exited | critical => simp [Phase.control]
  | inLock my pc =>
    cases pc with
    | loadOnhold i flg => cases flg <;> simp [Phase.control, LockPc.control]
    | storeLevel i | storeOnhold i | scan i j | returned => simp [Phase.control, LockPc.control]

section Steps

variable {s : State T} {x : FilterLock.State T} {me : T} {p' : PmutexT T} {phase : Phase}

/-- A thread's move to a phase is matched by its abstract move to the phase's control. -/
theorem Abstracts.enter (habs : Abstracts r s x) {level' : T → ℕ} {victim' : ℕ → Option T}
    (hmemory : Represents r p' level' victim')
    (hmy : ∀ my pc, phase = .inLock my pc → my = some (r.slot me) ∧ pc ≠ .returned) :
    Abstracts r (s.enter p' me phase)
      ({ x with level := level', victim := victim' }.goto me (phase.control r me)) where
  memory := hmemory
  control t := by
    by_cases ht : t = me
    · subst ht
      simp
    · rw [goto_control_of_ne _ ht, enter_phase_of_ne ht]
      exact habs.control t
  mypnode t my pc ht := by
    by_cases hme : t = me
    · subst hme
      rw [enter_phase_self] at ht
      exact hmy my pc ht
    · rw [enter_phase_of_ne hme] at ht
      exact habs.mypnode t my pc ht

/-- A thread's move that changes neither memory nor the control it stands for is
matched by no move. -/
theorem Abstracts.stutter (habs : Abstracts r s x)
    (hcontrol : phase.control r me = (s.phase me).control r me)
    (hmy : ∀ my pc, phase = .inLock my pc → my = some (r.slot me) ∧ pc ≠ .returned) :
    Abstracts r (s.enter s.p me phase) x := by
  have hmoved := habs.enter habs.memory hmy
  have hsame : x.goto me (phase.control r me) = x := by
    rw [hcontrol, ← habs.control me]
    simp [FilterLock.State.goto]
  exact hsame ▸ hmoved

/-- The accesses of `lock` are matched: by one abstract step, or by none when a scan
skips its own node or comes to its end. -/
theorem Abstracts.access (habs : Abstracts r s x) (hinv : Invariant x) {my : Option ℕ}
    {pc pc' : LockPc} (hpc : s.phase me = .inLock my pc)
    (hnext : lockStep s.p my pc = some (p', pc')) :
    ∃ w y, (machine T).Run x w y ∧ Abstracts r (s.enter p' me (.ofLock my pc')) y := by
  obtain ⟨rfl, -⟩ := habs.mypnode me my pc hpc
  have hmem := habs.memory
  have hcontrol : x.control me = pc.control r me := by rw [habs.control me, hpc]; rfl
  have hrange := hinv.range me
  rw [hcontrol] at hrange
  have hmy : ∀ my' pc'', Phase.ofLock (some (r.slot me)) pc' = .inLock my' pc'' →
      my' = some (r.slot me) ∧ pc'' ≠ .returned := by
    intro my' pc'' h
    obtain ⟨rfl, rfl, hne⟩ := ofLock_eq_inLock h
    exact ⟨rfl, hne⟩
  -- a matching abstract step leads to the control of `pc'`
  have hmatch : ∀ {level' victim'}, Represents r p' level' victim' →
      FilterLock.Step x me
        ({ x with level := level', victim := victim' }.goto me (pc'.control r me)) →
      ∃ w y, (machine T).Run x w y ∧
        Abstracts r (s.enter p' me (.ofLock (some (r.slot me)) pc')) y := by
    intro level' victim' hrep hstep
    refine ⟨[me], _, Machine.Run.single hstep, ?_⟩
    rw [← control_ofLock (some (r.slot me)) pc']
    exact habs.enter hrep hmy
  have hskip : p' = s.p → pc'.control r me = pc.control r me →
      ∃ w y, (machine T).Run x w y ∧
        Abstracts r (s.enter p' me (.ofLock (some (r.slot me)) pc')) y := by
    rintro rfl hsame
    refine ⟨[], x, .refl x, habs.stutter ?_ hmy⟩
    rw [control_ofLock, hpc]
    exact hsame
  cases pc with
  | storeLevel i =>
    rw [hmem.lockStep_storeLevel] at hnext
    obtain ⟨rfl, rfl⟩ := Prod.mk.inj (Option.some.inj hnext)
    exact hmatch (hmem.storeLevel me i) (.announce hcontrol)
  | storeOnhold i =>
    rw [hmem.lockStep_storeOnhold hrange.1 hrange.2] at hnext
    obtain ⟨rfl, rfl⟩ := Prod.mk.inj (Option.some.inj hnext)
    exact hmatch (hmem.storeOnhold hrange.1 hrange.2 me) (.yield hcontrol)
  | loadOnhold i flg =>
    have hrange' : 1 ≤ i ∧ i < Fintype.card T := by cases flg <;> exact hrange
    rw [hmem.lockStep_loadOnhold hrange'.1 hrange'.2, Option.map_eq_some_iff] at hnext
    obtain ⟨v, hv, hnext⟩ := hnext
    have hfor : (forLevel s.p (i + 1)).control r me = FilterLock.enter T (i + 1) :=
      control_forLevel hmem.size
    cases flg with
    | false =>
      -- the scan came to its end: whoever the victim is, the waiting is over
      simp only [Bool.false_eq_true, and_false, if_false] at hnext
      obtain ⟨rfl, rfl⟩ := Prod.mk.inj hnext
      apply hmatch hmem
      rw [hfor]
      exact .pass hcontrol (by simp)
    | true =>
      by_cases hself : v = me
      · -- still the victim: a scan starts at the head of `pnode`
        simp only [hself, and_self, if_true] at hnext
        obtain ⟨rfl, rfl⟩ := Prod.mk.inj hnext
        apply hmatch hmem
        have hempty : r.seen me 0 = ∅ := by simp [Roster.seen]
        rw [LockPc.control, hempty]
        exact .search hcontrol
      · simp only [hself, false_and, if_false] at hnext
        obtain ⟨rfl, rfl⟩ := Prod.mk.inj hnext
        apply hmatch hmem
        rw [hfor]
        exact .displaced hcontrol (by rw [hv]; exact fun h => hself (Option.some.inj h))
  | scan i j =>
    cases hj : r.owners[j]? with
    | none =>
      rw [hmem.lockStep_scan_end hj] at hnext
      obtain ⟨rfl, rfl⟩ := Prod.mk.inj (Option.some.inj hnext)
      exact hskip rfl (by rw [LockPc.control, LockPc.control, r.seen_end hj])
    | some v =>
      rw [hmem.lockStep_scan hj] at hnext
      obtain ⟨rfl, rfl⟩ := Prod.mk.inj (Option.some.inj hnext)
      by_cases hself : v = me
      · -- the thread's own node adds nothing to what it has seen
        subst hself
        apply hskip rfl
        rw [if_pos rfl, LockPc.control, LockPc.control, r.seen_succ_self hj]
      · rw [if_neg hself] at hmatch ⊢
        split_ifs at hmatch ⊢ with hlevel
        · exact hmatch hmem (.blocked hcontrol)
        · apply hmatch hmem
          rw [LockPc.control, r.seen_succ_of_ne hj hself]
          exact .clear hcontrol (not_le.mp hlevel)
  | returned => cases hnext

/-- Every step of the threads is matched by one abstract step or by none. -/
theorem Abstracts.step (habs : Abstracts r s x) (hinv : Invariant x) {s' : State T}
    (hstep : Step s me s') : ∃ w y, (machine T).Run x w y ∧ Abstracts r s' y := by
  have hmem := habs.memory
  have hcontrol := habs.control me
  cases hstep with
  | lock hout =>
    refine ⟨[], x, .refl x, habs.stutter ?_ fun _ _ h => by cases h⟩
    rw [hout]
    rfl
  | search hin =>
    rw [hin] at hcontrol
    refine ⟨[me], _, Machine.Run.single (.request hcontrol), ?_⟩
    have henter : (afterSearch s.p me).control r me = FilterLock.enter T 1 := by
      rw [afterSearch, control_ofLock, control_forLevel hmem.size]
    rw [← henter]
    apply habs.enter hmem
    intro my pc h
    obtain ⟨rfl, rfl, hne⟩ := ofLock_eq_inLock h
    exact ⟨hmem.findNode_eq me, hne⟩
  | access hpc hnext => exact habs.access hinv hpc hnext
  | unlock howns =>
    rw [howns] at hcontrol
    refine ⟨[me], _, Machine.Run.single (.leave hcontrol), ?_⟩
    exact habs.enter (hmem.unlock me) fun _ _ h => by cases h
  | exit hout =>
    refine ⟨[], x, .refl x, habs.stutter ?_ fun _ _ h => by cases h⟩
    rw [hout]
    rfl

end Steps

theorem Abstracts.of_initial {s : State T} (hs : (system r).initial s) :
    ∃ x, (machine T).initial x ∧ Abstracts r s x := by
  obtain ⟨hp, hphase⟩ := hs
  refine ⟨⟨fun _ => 0, fun _ => none, fun _ => .outside⟩, fun _ => ⟨rfl, rfl⟩, ?_, ?_, ?_⟩
  · rw [hp]
    exact represents_registered r
  · intro t
    rw [hphase t]
    rfl
  · intro t my pc h
    rw [hphase t] at h
    cases h

/-- The threads of a roster simulate the filter lock. -/
theorem simulates (r : Roster T) : (system r).Simulates (machine T)
    fun s x => Abstracts r s x ∧ Invariant x where
  initial hs := by
    obtain ⟨x, hx, habs⟩ := Abstracts.of_initial hs
    exact ⟨x, hx, habs, .of_initial hx⟩
  step := by
    rintro s me s' x hstep ⟨habs, hinv⟩
    obtain ⟨w, y, hrun, habs'⟩ := habs.step hinv hstep
    exact ⟨w, y, hrun, habs', hrun.invariant (fun h hi => hi.step h) hinv⟩

/-- A run leads from states that stand for an abstract state that satisfies the
invariant of the filter lock to such states. -/
theorem exists_abstract_of_run {s s' : State T} {w : List T} (hrun : (system r).Run s w s')
    (hs : ∃ x, Abstracts r s x ∧ Invariant x) : ∃ x, Abstracts r s' x ∧ Invariant x := by
  refine hrun.invariant (I := fun s => ∃ x, Abstracts r s x ∧ Invariant x) ?_ hs
  rintro s me s' hstep ⟨x, hx⟩
  obtain ⟨-, y, -, hy⟩ := (simulates r).step hstep hx
  exact ⟨y, hy⟩

/-- Every reachable state of the threads stands for an abstract state that satisfies
the invariant of the filter lock. -/
theorem exists_abstract {s : State T} (hs : (system r).Reachable s) :
    ∃ x, Abstracts r s x ∧ Invariant x := by
  obtain ⟨x, -, hx⟩ := (simulates r).reachable hs
  exact ⟨x, hx⟩

/-- No access of a thread in `lock` is undefined: the search has found its node, and the
`onhold` node of a level has been stored to before its `data` is used. -/
theorem exists_lockStep {s : State T} (hs : (system r).Reachable s) {my : Option ℕ}
    {pc : LockPc} (hpc : s.phase t = .inLock my pc) :
    ∃ p' pc', lockStep s.p my pc = some (p', pc') := by
  obtain ⟨x, habs, hinv⟩ := exists_abstract hs
  obtain ⟨rfl, hne⟩ := habs.mypnode t my pc hpc
  have hmem := habs.memory
  have hcontrol : x.control t = pc.control r t := by rw [habs.control t, hpc]; rfl
  have hrange := hinv.range t
  rw [hcontrol] at hrange
  cases pc with
  | storeLevel i => exact ⟨_, _, hmem.lockStep_storeLevel⟩
  | storeOnhold i => exact ⟨_, _, hmem.lockStep_storeOnhold hrange.1 hrange.2⟩
  | loadOnhold i flg =>
    have hwaits : WaitsAt x i t := by
      cases flg
      · exact Or.inr ⟨_, hcontrol⟩
      · exact Or.inl hcontrol
    obtain ⟨hi, hcard, v, hv⟩ := hinv.exists_victim hwaits
    rw [hmem.lockStep_loadOnhold hi hcard, hv]
    exact ⟨_, _, rfl⟩
  | scan i j =>
    cases hj : r.owners[j]? with
    | none => exact ⟨_, _, hmem.lockStep_scan_end hj⟩
    | some v => exact ⟨_, _, hmem.lockStep_scan hj⟩
  | returned => exact absurd rfl hne

end Sisop.Pmutex
