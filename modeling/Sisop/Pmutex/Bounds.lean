import Sisop.Pmutex.Basic

/-!
# `lock` stays inside the lists

The loops of `lock` count to `size` and do not test the cursors they move along `pnode`
and `onhold`. Where `size` is the number of nodes of either list, every cursor that is
read through stands at a node, in any interleaving of the threads that own one. A
thread may be registered more than once: it uses the first of its nodes.

## Main definitions

* `Matched` — `size` is the length of both lists
* `callers` — the threads that own a node, free to lock, unlock, lock again or exit
* `scanReads` — the nodes of `pnode` that a thread has read in its latest scan

## Main results

* `Fits.lockStep` — one access keeps the cursors inside the lists
* `lockSafe_of_matched` — no access in any run is undefined
-/

namespace Sisop.Pmutex

open Foundations

variable {T : Type}

/-- The counter is the length of both lists. -/
structure Matched (p : PmutexT T) : Prop where
  pnode : p.pnode.length = p.size
  onhold : p.onhold.length = p.size

/-- The threads that own a node. -/
def PmutexT.owners (p : PmutexT T) : List T := p.pnode.map PnodeT.owner

/-- The position of `holdlist` in `onhold`. -/
def LockPc.holdlist : LockPc → Option ℕ
  | .storeLevel i | .storeOnhold i | .loadOnhold i _ | .scan i _ => some (i - 1)
  | .returned => none

/-- What a step of a thread in `lock` does in the scan of `pnode`. -/
inductive Event (T : Type)
  /-- The thread has started a scan. -/
  | began (t : T)
  /-- The thread has read the node at position `j`. -/
  | read (t : T) (j : ℕ)
  /-- The thread has come to the end of the scan. -/
  | completed (t : T)
  /-- The thread has taken another step. -/
  | moved (t : T)

variable [DecidableEq T]

/-- What a step of thread `t` has done. -/
def eventOf (s s' : State T) (t : T) : Event T :=
  match s.phase t, s'.phase t with
  | .inLock _ (.scan _ j), _ => if j < s.p.size then .read t j else .completed t
  | _, .inLock _ (.scan _ _) => .began t
  | _, _ => .moved t

/-- Every interleaving of the threads that own a node of `p`. -/
def callers (p : PmutexT T) : Machine (State T) (Event T) where
  initial s := s.p = p ∧ ∀ t, s.phase t = .outside
  step s e s' := ∃ t ∈ p.owners, Step s t s' ∧ e = eventOf s s' t

/-- The positions of `pnode` that a thread has read since it last started a scan. -/
def scanReads (t : T) (w : List (Event T)) : List ℕ :=
  w.foldl (fun reads e =>
    match e with
    | .began u => if u = t then [] else reads
    | .read u j => if u = t then reads ++ [j] else reads
    | .completed _ | .moved _ => reads) []

/-- A place in `lock` of thread `t`: it has found its own node, `holdlist` is at one of
the first `size` nodes of `onhold`, and the next access is defined. -/
structure PlaceSafe (p : PmutexT T) (t : T) (mypnode : Option ℕ) (pc : LockPc) : Prop where
  found : ∃ k nd, mypnode = some k ∧ p.pnode[k]? = some nd ∧ nd.owner = t
  holdlist : ∃ m, pc.holdlist = some m ∧ m < p.size ∧ m < p.onhold.length
  access : lockStep p mypnode pc ≠ none

/-- Calls of `lock` on `p` find the caller's node, read exactly `size` nodes of `pnode`
in each complete scan and step through at most `size` nodes of `onhold`, and follow no
null pointer. -/
def LockSafe (p : PmutexT T) : Prop :=
  ∀ s w s', (callers p).initial s → (callers p).Run s w s' →
    (∀ t my pc, s'.phase t = .inLock my pc → PlaceSafe s'.p t my pc) ∧
    ∀ t v, w = v ++ [.completed t] → scanReads t v = List.range p.size

section Reads

variable {t u : T} {w : List (Event T)} {j : ℕ} {s s' : State T}

@[simp] theorem scanReads_began : scanReads t (w ++ [.began u]) =
    if u = t then [] else scanReads t w := by
  simp [scanReads]

@[simp] theorem scanReads_read : scanReads t (w ++ [.read u j]) =
    if u = t then scanReads t w ++ [j] else scanReads t w := by
  simp [scanReads]

@[simp] theorem scanReads_completed :
    scanReads t (w ++ [.completed u]) = scanReads t w := by
  simp [scanReads]

@[simp] theorem scanReads_moved : scanReads t (w ++ [.moved u]) = scanReads t w := by
  simp [scanReads]

/-- A thread's step is no read of another thread. -/
theorem scanReads_eventOf_of_ne (h : u ≠ t) :
    scanReads t (w ++ [eventOf s s' u]) = scanReads t w := by
  unfold eventOf
  split
  · split <;> simp [h]
  · simp [h]
  · simp

omit [DecidableEq T] in
/-- The end of a scan is found by the thread whose scan it is. -/
theorem eq_of_eventOf_completed (h : eventOf s s' u = .completed t) :
    u = t ∧ ∃ my i j, s.phase t = .inLock my (.scan i j) ∧ ¬ j < s.p.size := by
  unfold eventOf at h
  split at h
  · rename_i _ my i j hphase
    split_ifs at h with hj
    obtain rfl := Event.completed.inj h
    exact ⟨rfl, my, i, j, hphase, hj⟩
  · cases h
  · cases h

end Reads

/-! ### One access -/

/-- A mutex with the given owners along `pnode`, all of whose lists have the right
length. -/
structure Fits (owners : List T) (p : PmutexT T) : Prop where
  owners_eq : p.owners = owners
  size : p.size = owners.length
  onhold : p.onhold.length = owners.length

/-- The `onhold` node of level `i` has been stored to. -/
def Stored (p : PmutexT T) (i : ℕ) : Prop := ∃ v, p.onhold[i - 1]? = some (some v)

/-- The cursors of a place in `lock` are inside the lists. -/
def LockPc.Inside (p : PmutexT T) : LockPc → Prop
  | .storeLevel i | .storeOnhold i => 1 ≤ i ∧ i < p.size
  | .loadOnhold i _ => 1 ≤ i ∧ i < p.size ∧ Stored p i
  | .scan i j => 1 ≤ i ∧ i < p.size ∧ Stored p i ∧ j ≤ p.size
  | .returned => True

variable {owners : List T} {p p' : PmutexT T} {t : T} {k i j l : ℕ} {pc pc' : LockPc}

omit [DecidableEq T] in
/-- Cursors stay inside while the lists keep their length and what is stored. -/
theorem LockPc.Inside.mono (h : pc.Inside p) (hsize : p'.size = p.size)
    (hstored : ∀ i, Stored p i → Stored p' i) : pc.Inside p' := by
  cases pc with
  | storeLevel i | storeOnhold i => simpa [LockPc.Inside, hsize] using h
  | loadOnhold i flg => exact ⟨h.1, hsize ▸ h.2.1, hstored i h.2.2⟩
  | scan i j => exact ⟨h.1, hsize ▸ h.2.1, hstored i h.2.2.1, hsize ▸ h.2.2.2⟩
  | returned => trivial

namespace Fits

omit [DecidableEq T] in
theorem getElem?_pnode (h : Fits owners p) (hk : owners[k]? = some t) :
    ∃ nd, p.pnode[k]? = some nd ∧ nd.owner = t := by
  rw [← h.owners_eq, PmutexT.owners, List.getElem?_map, Option.map_eq_some_iff] at hk
  exact hk

omit [DecidableEq T] in
theorem exists_pnode (h : Fits owners p) (hj : j < p.size) : ∃ nd, p.pnode[j]? = some nd := by
  obtain ⟨nd, hnd, -⟩ := h.getElem?_pnode (List.getElem?_eq_getElem (h.size ▸ hj))
  exact ⟨nd, hnd⟩

/-- The search finds a node of the thread. -/
theorem findNode (h : Fits owners p) (ht : t ∈ owners) :
    ∃ k, findNode p t = some k ∧ owners[k]? = some t := by
  cases hk : Pmutex.findNode p t with
  | none =>
    rw [Pmutex.findNode, List.findIdx?_eq_none_iff] at hk
    rw [← h.owners_eq] at ht
    obtain ⟨nd, hnd, hown⟩ := List.mem_map.mp ht
    exact absurd hown (by simpa using hk nd hnd)
  | some k =>
    refine ⟨k, rfl, ?_⟩
    obtain ⟨hlt, hown, -⟩ := List.findIdx?_eq_some_iff_getElem.mp hk
    rw [← h.owners_eq, PmutexT.owners, List.getElem?_map, List.getElem?_eq_getElem hlt]
    simpa using hown

omit [DecidableEq T] in
theorem storeLevel (h : Fits owners p) (k l : ℕ) : Fits owners (storeLevel p k l) where
  owners_eq := by rw [PmutexT.owners, map_owner_storeLevel, ← PmutexT.owners, h.owners_eq]
  size := h.size
  onhold := h.onhold

theorem unlock (h : Fits owners p) (t : T) : Fits owners (unlock p t) := by
  unfold Pmutex.unlock
  split
  · exact h.storeLevel _ _
  · exact h

omit [DecidableEq T] in
theorem inside_forLevel (hi : 1 ≤ i) : (forLevel p i).Inside p := by
  unfold forLevel
  split
  · exact ⟨hi, by assumption⟩
  · trivial

/-- What one access of `lock` does when the cursors are inside the lists. -/
structure Accessed (owners : List T) (p : PmutexT T) (pc : LockPc) (p' : PmutexT T)
    (pc' : LockPc) : Prop where
  fits : Fits owners p'
  stored : ∀ i, Stored p i → Stored p' i
  inside : pc'.Inside p'
  scan : ∀ i j, pc' = .scan i j → (∃ i flg, pc = .loadOnhold i flg) ∧ j = 0 ∨
    ∃ i m, pc = .scan i m ∧ m < p.size ∧ j = m + 1

/-- The next access is defined and keeps the cursors inside the lists. -/
theorem lockStep (h : Fits owners p) (hk : owners[k]? = some t) (hpc : pc.Inside p)
    (hne : pc ≠ .returned) :
    ∃ p' pc', lockStep p (some k) pc = some (p', pc') ∧ Accessed owners p pc p' pc' := by
  obtain ⟨mine, hmine, -⟩ := h.getElem?_pnode hk
  cases pc with
  | storeLevel i =>
    refine ⟨Pmutex.storeLevel p k i, .storeOnhold i,
      by simp only [Pmutex.lockStep, hmine, Option.bind_eq_bind, Option.bind_some],
      h.storeLevel k i, fun _ hs => hs, hpc, ?_⟩
    rintro _ _ ⟨⟩
  | storeOnhold i =>
    have hlt : i - 1 < p.onhold.length := by
      rw [h.onhold, ← h.size]
      have := hpc.2
      omega
    have hself : Stored { p with onhold := p.onhold.set (i - 1) (some mine.owner) } i :=
      ⟨mine.owner, by simp [hlt]⟩
    refine ⟨{ p with onhold := p.onhold.set (i - 1) (some mine.owner) }, .loadOnhold i true,
      by simp only [Pmutex.lockStep, hmine, List.getElem?_eq_getElem hlt, Option.bind_eq_bind,
        Option.bind_some],
      ⟨h.owners_eq, h.size, by simpa using h.onhold⟩, ?_, ⟨hpc.1, hpc.2, hself⟩, ?_⟩
    · rintro m ⟨v, hv⟩
      by_cases hm : m - 1 = i - 1
      · rw [Stored, hm]
        exact hself
      · exact ⟨v, by rw [List.getElem?_set_ne (Ne.symm hm), hv]⟩
    · rintro _ _ ⟨⟩
  | loadOnhold i flg =>
    obtain ⟨hi, hlt, v, hv⟩ := hpc
    simp only [Pmutex.lockStep, hmine, hv, Option.bind_eq_bind, Option.bind_some]
    split_ifs
    · refine ⟨_, _, rfl, h, fun _ hs => hs, ⟨hi, hlt, ⟨v, hv⟩, Nat.zero_le _⟩, ?_⟩
      rintro _ _ ⟨⟩
      exact Or.inl ⟨⟨i, flg, rfl⟩, rfl⟩
    · refine ⟨_, _, rfl, h, fun _ hs => hs, inside_forLevel (by omega), ?_⟩
      intro a b hscan
      unfold forLevel at hscan
      split at hscan <;> cases hscan
  | scan i j =>
    obtain ⟨hi, hlt, hstored, hj⟩ := hpc
    by_cases hless : j < p.size
    · obtain ⟨listaux, haux⟩ := h.exists_pnode hless
      simp only [Pmutex.lockStep, if_pos hless, hmine, haux, Option.bind_eq_bind,
        Option.bind_some]
      -- the cursor moves on past the thread's own node and past a lower level
      have hnext : Accessed owners p (.scan i j) p (.scan i (j + 1)) := by
        refine ⟨h, fun _ hs => hs, ⟨hi, hlt, hstored, hless⟩, ?_⟩
        rintro _ _ ⟨⟩
        exact Or.inr ⟨i, j, rfl, hless, rfl⟩
      split_ifs
      · exact ⟨_, _, rfl, hnext⟩
      · refine ⟨_, _, rfl, h, fun _ hs => hs, ⟨hi, hlt, hstored⟩, ?_⟩
        rintro _ _ ⟨⟩
      · exact ⟨_, _, rfl, hnext⟩
    · simp only [Pmutex.lockStep, if_neg hless]
      refine ⟨_, _, rfl, h, fun _ hs => hs, ⟨hi, hlt, hstored⟩, ?_⟩
      rintro _ _ ⟨⟩
  | returned => exact absurd rfl hne

end Fits

/-! ### Runs -/

/-- All cursors are inside the lists, and a thread at position `j` of a scan has read
the nodes before it. -/
structure AllInside (owners : List T) (w : List (Event T)) (s : State T) : Prop where
  fits : Fits owners s.p
  place : ∀ t my pc, s.phase t = .inLock my pc →
    ∃ k, my = some k ∧ owners[k]? = some t ∧ pc.Inside s.p ∧ pc ≠ .returned
  reads : ∀ t my i j, s.phase t = .inLock my (.scan i j) → scanReads t w = List.range j

namespace AllInside

variable {w : List (Event T)} {s : State T} {me : T} {phase : Phase}

/-- A thread's move keeps the invariant if it does for the thread itself. -/
theorem enter (h : AllInside owners w s) (hfits : Fits owners p')
    (hstored : ∀ i, Stored s.p i → Stored p' i)
    (hplace : ∀ my pc, phase = .inLock my pc →
      ∃ k, my = some k ∧ owners[k]? = some me ∧ pc.Inside p' ∧ pc ≠ .returned)
    (hreads : ∀ my i j, phase = .inLock my (.scan i j) →
      scanReads me (w ++ [eventOf s (s.enter p' me phase) me]) = List.range j) :
    AllInside owners (w ++ [eventOf s (s.enter p' me phase) me]) (s.enter p' me phase) where
  fits := hfits
  place t my pc ht := by
    by_cases hme : t = me
    · subst hme
      rw [enter_phase_self] at ht
      exact hplace my pc ht
    · rw [enter_phase_of_ne hme] at ht
      obtain ⟨k, hk, hown, hpc, hne⟩ := h.place t my pc ht
      exact ⟨k, hk, hown, hpc.mono (hfits.size.trans h.fits.size.symm) hstored, hne⟩
  reads t my i j ht := by
    by_cases hme : t = me
    · subst hme
      rw [enter_phase_self] at ht
      exact hreads my i j ht
    · rw [enter_phase_of_ne hme] at ht
      rw [scanReads_eventOf_of_ne (Ne.symm hme)]
      exact h.reads t my i j ht

/-- An access of `lock` records what it reads. -/
theorem access (h : AllInside owners w s) {my : Option ℕ} (hpc : s.phase me = .inLock my pc)
    (hnext : Pmutex.lockStep s.p my pc = some (p', pc')) :
    AllInside owners (w ++ [eventOf s (s.enter p' me (.ofLock my pc')) me])
      (s.enter p' me (.ofLock my pc')) := by
  obtain ⟨k, rfl, hown, hinside, hne⟩ := h.place me my pc hpc
  obtain ⟨p₁, pc₁, hdone, hacc⟩ := h.fits.lockStep hown hinside hne
  obtain ⟨rfl, rfl⟩ := Prod.mk.inj (Option.some.inj (hdone.symm.trans hnext))
  apply h.enter hacc.fits hacc.stored
  · intro my' pc'' h'
    obtain ⟨rfl, rfl, hne'⟩ := ofLock_eq_inLock h'
    exact ⟨k, rfl, hown, hacc.inside, hne'⟩
  · intro my' i j h'
    obtain ⟨rfl, hscan, -⟩ := ofLock_eq_inLock h'
    rcases hacc.scan i j hscan.symm with ⟨⟨i', flg, rfl⟩, rfl⟩ | ⟨i', m, rfl, hm, rfl⟩
    · -- a scan starts with nothing read
      simp [eventOf, hpc, h']
    · simp [eventOf, hpc, hm, h.reads me _ _ _ hpc, List.range_succ]

/-- One step of a thread that owns a node keeps the invariant. -/
theorem step (h : AllInside owners w s) (hme : me ∈ owners) {s' : State T}
    (hstep : Step s me s') : AllInside owners (w ++ [eventOf s s' me]) s' := by
  cases hstep with
  | lock | exit => exact h.enter h.fits (fun _ hs => hs) (by simp) (by simp)
  | search =>
    apply h.enter h.fits (fun _ hs => hs)
    · intro my pc hphase
      obtain ⟨k, hfound, hown⟩ := h.fits.findNode hme
      unfold afterSearch forLevel at hphase
      split_ifs at hphase with hlevel
      · obtain ⟨rfl, rfl⟩ := Phase.inLock.inj hphase
        exact ⟨k, hfound, hown, ⟨le_rfl, hlevel⟩, by simp⟩
      · cases hphase
    · intro my i j hphase
      unfold afterSearch forLevel at hphase
      split_ifs at hphase <;> cases hphase
  | access hpc hnext => exact h.access hpc hnext
  | unlock =>
    refine h.enter (h.fits.unlock me) (fun i hs => ?_) (by simp) (by simp)
    unfold Pmutex.unlock
    split <;> exact hs

end AllInside

/-- Where the counter matches the lists, calls of `lock` are safe. -/
theorem lockSafe_of_matched (hmatched : Matched p) : LockSafe p := by
  have hfits : Fits p.owners p := by
    refine ⟨rfl, ?_, ?_⟩ <;> simp [PmutexT.owners, hmatched.pnode, hmatched.onhold]
  have hinv : ∀ {s w s'}, (callers p).initial s → (callers p).Run s w s' →
      AllInside p.owners w s' := by
    rintro s w s' ⟨hp, hout⟩ hrun
    refine hrun.history_invariant (I := AllInside p.owners) ?_ ?_
    · rintro w s e s' ⟨t, ht, hstep, rfl⟩ hs
      exact hs.step ht hstep
    · exact ⟨hp ▸ hfits, by simp [hout], by simp [hout]⟩
  intro s w s' hs hrun
  constructor
  · intro t my pc hpc
    obtain ⟨k, rfl, hown, hinside, hne⟩ := (hinv hs hrun).place t my pc hpc
    have hshape := (hinv hs hrun).fits
    obtain ⟨nd, hnd, howner⟩ := hshape.getElem?_pnode hown
    refine ⟨⟨k, nd, rfl, hnd, howner⟩, ?_, ?_⟩
    · have honhold : s'.p.onhold.length = s'.p.size := hshape.onhold.trans hshape.size.symm
      rw [honhold]
      cases pc with
      | storeLevel i | storeOnhold i =>
        have := hinside.2
        exact ⟨i - 1, rfl, by omega, by omega⟩
      | loadOnhold i | scan i =>
        have := hinside.2.1
        exact ⟨i - 1, rfl, by omega, by omega⟩
      | returned => exact absurd rfl hne
    · obtain ⟨p', pc', hnext, -⟩ := hshape.lockStep hown hinside hne
      simp [hnext]
  · rintro t v rfl
    obtain ⟨s₁, hrun₁, u, -, -, hevent⟩ := hrun.of_append_singleton
    obtain ⟨rfl, my, i, j, hphase, hj⟩ := eq_of_eventOf_completed hevent.symm
    have hinv₁ := hinv hs hrun₁
    obtain ⟨k, -, -, hinside, -⟩ := hinv₁.place _ _ _ hphase
    have hend : j = p.size := by
      have := hinside.2.2.2
      have hsize : s₁.p.size = p.size := hinv₁.fits.size.trans hfits.size.symm
      omega
    rw [hinv₁.reads _ _ _ _ hphase, hend]

end Sisop.Pmutex
