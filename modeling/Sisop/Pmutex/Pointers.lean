import Sisop.Pmutex.Memory
import Sisop.Pmutex.Exclusion

/-!
# `lock` and `unlock` by pointers

The cursors of `lock` and `unlock` are pointers into the lists that registration has
built. The searches at their starts follow the links to the null pointer, one turn of the
loop at a time; the loops over the levels and over the threads count to `size` and follow
the links without a test. Each access goes through the heap and is undefined when it meets
the null pointer, a block of the wrong kind, or `data` that is not initialised.

For any addresses that `malloc` has returned, this program simulates the one with lists
and positions. So no access of it is undefined and it excludes what that one excludes, and
it leaves the lists such that `pmutex_destroy` frees all blocks.

## Main definitions

* `Memory.lockStep`, `Memory.next` — the next access of `lock`, the next step of a thread
* `pointers` — all threads of a roster in memory
* `Mirrors` — a state with lists that a state with pointers stands for

## Main results

* `Laid.lockStep` — an access by pointers is the access by positions
* `Mirrors.step` — one step by pointers is at most one step by positions
* `pointers_safe` — every access is defined, and one thread at most owns the mutex
-/

namespace Sisop.Pmutex

open Foundations

variable {A O T : Type}

/-- The node that `data` points to. -/
def Data.node? : Data A O → Option A
  | .pnode node => some node
  | .uninitialised | .owner _ => none

/-- The owner that `data` is. -/
def Data.owner? : Data A O → Option O
  | .owner o => some o
  | .uninitialised | .pnode _ => none

/-- Where a thread is in `lock` past the search, with its cursors. -/
inductive PointerPc (A : Type)
  | storeLevel (i : ℕ) (holdlist : Option A)
  | storeOnhold (i : ℕ) (holdlist : Option A)
  | loadOnhold (i : ℕ) (flg : Bool) (holdlist : Option A)
  | scan (i j : ℕ) (holdlist listaux : Option A)
  | returned

/-- Where a thread is, with its cursors. -/
inductive PointerPhase (A : Type)
  | outside
  /-- In the search of `lock`. -/
  | searching (listaux : Option A)
  | inLock (mypnode : Option A) (pc : PointerPc A)
  | critical
  /-- In the search of `unlock`. -/
  | unlocking (listaux : Option A)
  | exited

/-- The phase of a thread whose call of `lock` has come to `pc`. -/
def PointerPhase.ofLock (mypnode : Option A) : PointerPc A → PointerPhase A
  | .returned => .critical
  | pc => .inLock mypnode pc

namespace Memory

/-- Read a `pnode_t`: its `level` and its `owner`. -/
def loadPnode (heap : Blocks A (Block A O)) (a : A) : Option (ℕ × O) :=
  match heap a with
  | some (.pnode level owner) => some (level, owner)
  | some (.list _ _) | none => none

/-- The test of the loop over the levels. -/
def forLevel (m : Memory A O) (i : ℕ) (holdlist : Option A) : PointerPc A :=
  if i < m.size then .storeLevel i holdlist else .returned

variable [DecidableEq A]

/-- Store to the `level` of a `pnode_t`. -/
def storeLevel (heap : Blocks A (Block A O)) (a : A) (level : ℕ) :
    Option (Blocks A (Block A O)) :=
  (loadPnode heap a).map fun node => heap.fill a (.pnode level node.2)

/-- Store to the `data` of a `list_t`. -/
def storeData (heap : Blocks A (Block A O)) (a : A) (data : Data A O) :
    Option (Blocks A (Block A O)) :=
  (loadList heap a).map fun cell => heap.fill a (.list data cell.2)

variable [DecidableEq T] (deref : O → T)

/-- The next shared access of `lock`, with the local computation up to the one after it. -/
def lockStep (m : Memory A O) (mypnode : Option A) :
    PointerPc A → Option (Memory A O × PointerPc A)
  -- `mypnode->level = i`
  | .storeLevel i holdlist => do
    let node ← mypnode
    let heap ← storeLevel m.heap node i
    some ({ m with heap }, .storeOnhold i holdlist)
  -- `holdlist->data = (void*)mypnode->owner`, then `flg = 1`
  | .storeOnhold i holdlist => do
    let node ← mypnode
    let (_, mine) ← loadPnode m.heap node
    let hold ← holdlist
    let heap ← storeData m.heap hold (.owner mine)
    some ({ m with heap }, .loadOnhold i true holdlist)
  -- the condition of the waiting loop, and `holdlist = holdlist->next` after it
  | .loadOnhold i flg holdlist => do
    let hold ← holdlist
    let (data, next) ← loadList m.heap hold
    let held ← data.owner?
    let node ← mypnode
    let (_, mine) ← loadPnode m.heap node
    if deref held = deref mine ∧ flg then
      some (m, .scan i 0 holdlist m.pnode)
    else
      some (m, m.forLevel (i + 1) next)
  -- one turn of the loop over the threads
  | .scan i j holdlist listaux =>
    if j < m.size then do
      let cell ← listaux
      let (data, next) ← loadList m.heap cell
      let other ← data.node?
      let (level, owner) ← loadPnode m.heap other
      let node ← mypnode
      let (_, mine) ← loadPnode m.heap node
      if deref owner = deref mine then
        some (m, .scan i (j + 1) holdlist next)
      else if i ≤ level then
        some (m, .loadOnhold i true holdlist)
      else
        some (m, .scan i (j + 1) holdlist next)
    else
      some (m, .loadOnhold i false holdlist)
  | .returned => none

omit [DecidableEq A] in
/-- One turn of the search at the start of `lock` and of `unlock`: whether the node under
the cursor is that of `me`, the node, and the link to the next cell. -/
def look (heap : Blocks A (Block A O)) (me : T) (listaux : A) :
    Option (Bool × A × Option A) := do
  let (data, next) ← loadList heap listaux
  let curr ← data.node?
  let (_, owner) ← loadPnode heap curr
  some (deref owner = me, curr, next)

/-- The next step of thread `me` in `lock` or `unlock`. Outside of them it is free. -/
def next (m : Memory A O) (me : T) : PointerPhase A → Option (Memory A O × PointerPhase A)
  | .outside | .exited => none
  | .searching none => some (m, .ofLock none (m.forLevel 1 m.onhold))
  | .searching (some listaux) => do
    let (mine, curr, next) ← look deref m.heap me listaux
    if mine then
      some (m, .ofLock (some curr) (m.forLevel 1 m.onhold))
    else
      some (m, .searching next)
  | .inLock mypnode pc => do
    let (m', pc') ← lockStep deref m mypnode pc
    some (m', .ofLock mypnode pc')
  | .critical => some (m, .unlocking m.pnode)
  | .unlocking none => some (m, .outside)
  | .unlocking (some listaux) => do
    let (mine, curr, next) ← look deref m.heap me listaux
    if mine then
      let heap ← storeLevel m.heap curr 0
      some ({ m with heap }, .outside)
    else
      some (m, .unlocking next)

end Memory

/-- The mutex in memory, and where every thread is. -/
structure PointerState (A O T : Type) where
  mem : Memory A O
  phase : T → PointerPhase A

variable [DecidableEq T]

/-- Put one thread into a phase. -/
def PointerState.enter (s : PointerState A O T) (mem : Memory A O) (me : T)
    (phase : PointerPhase A) : PointerState A O T where
  mem := mem
  phase := Function.update s.phase me phase

variable [DecidableEq A]

/-- One step of thread `me`. -/
inductive PointerStep (deref : O → T) : PointerState A O T → T → PointerState A O T → Prop
  | lock {s : PointerState A O T} {me : T} (out : s.phase me = .outside) :
      PointerStep deref s me (s.enter s.mem me (.searching s.mem.pnode))
  | next {s : PointerState A O T} {me : T} {m' : Memory A O} {phase' : PointerPhase A}
      (goes : s.mem.next deref me (s.phase me) = some (m', phase')) :
      PointerStep deref s me (s.enter m' me phase')
  | exit {s : PointerState A O T} {me : T} (out : s.phase me = .outside) :
      PointerStep deref s me (s.enter s.mem me .exited)

/-- Every interleaving of the threads after `pmutex_create` and a call of `pmutex_add` for
each of the owners, in a heap and with whatever `malloc` has returned. -/
def pointers (deref : O → T) (heap : Blocks A (Block A O)) (owners : List O) :
    Machine (PointerState A O T) T where
  initial s := (∃ m₀, (calls heap).initial m₀ ∧
    (calls heap).Run m₀ (owners.map .add) s.mem) ∧ ∀ t, s.phase t = .outside
  step := PointerStep deref

/-! ### One access -/

/-- The cell of `pnode` at a position. -/
def Layout.cell (L : Layout A) (k : ℕ) : Option A := (L.pnode[k]?).map Prod.fst

/-- The node at a position. -/
def Layout.node (L : Layout A) (k : ℕ) : Option A := (L.pnode[k]?).map Prod.snd

/-- The cursors of a place in `lock`. -/
def LockPc.pointers (L : Layout A) : LockPc → PointerPc A
  | .storeLevel i => .storeLevel i L.onhold[i - 1]?
  | .storeOnhold i => .storeOnhold i L.onhold[i - 1]?
  | .loadOnhold i flg => .loadOnhold i flg L.onhold[i - 1]?
  | .scan i j => .scan i j L.onhold[i - 1]? (L.cell j)
  | .returned => .returned

/-- The levels of `lock` are counted from 1. -/
def LockPc.Counted : LockPc → Prop
  | .storeLevel i | .storeOnhold i | .loadOnhold i _ | .scan i _ => 1 ≤ i
  | .returned => True

namespace Laid

variable {deref : O → T} {L : Layout A} {m m' : Memory A O} {p p' : PmutexT T} {a : A}
  {c : A × A} {nd : PnodeT T} {k l : ℕ} {t me : T}

omit [DecidableEq T] [DecidableEq A]

theorem blocks_perm (L : Layout A) :
    (L.pnode.map Prod.snd ++ L.pnode.map Prod.fst ++ L.onhold).Perm L.blocks := by
  refine List.Perm.append_right _ ?_
  have hperm := List.map_append_flatMap_perm L.pnode Prod.snd fun c => [c.1]
  rwa [← List.map_eq_flatMap] at hperm

/-- Nodes, cells of `pnode` and cells of `onhold` are different blocks. -/
theorem distinct (h : Laid deref L m p) :
    (L.pnode.map Prod.snd).Nodup ∧ L.onhold.Nodup ∧ (∀ c ∈ L.pnode, ∀ c' ∈ L.pnode, c.1 ≠ c'.2) ∧
      ∀ a ∈ L.onhold, ∀ c ∈ L.pnode, a ≠ c.1 ∧ a ≠ c.2 := by
  have hnodup := (blocks_perm L).nodup_iff.mpr h.nodup
  obtain ⟨hpnode, honhold, hapart⟩ := List.nodup_append.mp hnodup
  obtain ⟨hnodes, -, hcells⟩ := List.nodup_append.mp hpnode
  refine ⟨hnodes, honhold, fun c hc c' hc' heq => ?_, fun a ha c hc => ⟨?_, ?_⟩⟩
  · exact hcells _ (List.mem_map_of_mem hc') _ (List.mem_map_of_mem hc) heq.symm
  · rintro rfl
    exact hapart _ (List.mem_append_right _ (List.mem_map_of_mem hc)) _ ha rfl
  · rintro rfl
    exact hapart _ (List.mem_append_left _ (List.mem_map_of_mem hc)) _ ha rfl

theorem pnode_eq (h : Laid deref L m p) : m.pnode = L.cell 0 := by
  rw [h.pnode.head_eq, List.getElem?_map]
  rfl

theorem onhold_eq (h : Laid deref L m p) : m.onhold = L.onhold[0]? := h.onhold.head_eq

/-- Following `pnode` finds the node at each position. -/
theorem exists_pnode (h : Laid deref L m p) (hnd : p.pnode[k]? = some nd) :
    ∃ c, L.pnode[k]? = some c ∧ Memory.loadList m.heap c.1 = some (.pnode c.2, L.cell (k + 1)) ∧
      ∃ o, Memory.loadPnode m.heap c.2 = some (nd.level, o) ∧ deref o = nd.owner := by
  have hk : k < L.pnode.length := by
    rw [h.nodes.length_eq]
    exact (List.getElem?_eq_some_iff.mp hnd).1
  obtain ⟨nd', hnd', ⟨q, hcell⟩, o, hnode, howner⟩ := h.nodeAt (List.getElem?_eq_getElem hk)
  obtain rfl := Option.some.inj (hnd.symm.trans hnd')
  refine ⟨_, List.getElem?_eq_getElem hk, ?_, o, by rw [Memory.loadPnode, hnode], howner⟩
  have hnext := h.pnode.next_eq (k := k) (a := L.pnode[k].1) (by
    rw [List.getElem?_map, List.getElem?_eq_getElem hk]
    rfl)
  rw [links_of_list hcell, List.getElem?_map] at hnext
  rw [Memory.loadList, hcell, Option.some.inj hnext]
  rfl

/-- Following `onhold` finds the cell of each level. -/
theorem exists_onhold (h : Laid deref L m p) {held : Option T} (hheld : p.onhold[k]? = some held) :
    ∃ a data, L.onhold[k]? = some a ∧
      Memory.loadList m.heap a = some (data, L.onhold[k + 1]?) ∧ data.held deref = some held := by
  have hk : k < L.onhold.length := by
    rw [h.holds.length_eq]
    exact (List.getElem?_eq_some_iff.mp hheld).1
  obtain ⟨held', hheld', data, q, hcell, hdata⟩ := h.holdAt (List.getElem?_eq_getElem hk)
  obtain rfl := Option.some.inj (hheld.symm.trans hheld')
  refine ⟨_, data, List.getElem?_eq_getElem hk, ?_, hdata⟩
  have hnext := h.onhold.next_eq (List.getElem?_eq_getElem hk)
  rw [links_of_list hcell] at hnext
  rw [Memory.loadList, hcell, Option.some.inj hnext]

variable [DecidableEq A]

/-- A store to the level of a node. -/
theorem storeLevel (h : Laid deref L m p) (hnode : L.node k = some a) (l : ℕ) :
    ∃ heap, Memory.storeLevel m.heap a l = some heap ∧
      Laid deref L { m with heap } (Pmutex.storeLevel p k l) ∧
        ∀ b ∉ L.blocks, heap b = m.heap b := by
  obtain ⟨c, hc, rfl⟩ := Option.map_eq_some_iff.mp hnode
  obtain ⟨nd, hnd, ⟨q, hcell⟩, o, hload, howner⟩ := h.nodeAt hc
  obtain ⟨hnodes, -, hcells, hholds⟩ := h.distinct
  have hmem := List.mem_of_getElem? hc
  have hsame : ∀ {b}, b ≠ c.2 → m.heap.fill c.2 (.pnode l o) b = m.heap b :=
    fun hb => Blocks.fill_of_ne hb
  refine ⟨m.heap.fill c.2 (.pnode l o), by rw [Memory.storeLevel, Memory.loadPnode, hload]; rfl,
    ⟨h.size, ?_, ?_, ?_, ?_, h.nodup⟩, fun b hb => hsame ?_⟩
  · refine h.pnode.congr fun b hb => ?_
    obtain ⟨c', hc', rfl⟩ := List.mem_map.mp hb
    exact links_congr (hsame (hcells c' hc' c hmem))
  · exact h.onhold.congr fun b hb => links_congr (hsame (hholds b hb c hmem).2)
  · refine List.forall₂_iff_get.mpr ⟨?_, fun j hj hj' => ?_⟩
    · rw [h.nodes.length_eq, Pmutex.storeLevel, List.length_modify]
    · have hat := h.nodes.get hj (by rwa [← h.nodes.length_eq])
      simp only [List.get_eq_getElem, Pmutex.storeLevel, List.getElem_modify] at hat ⊢
      have hcell := hcells _ (List.getElem_mem hj) c hmem
      by_cases hkj : k = j
      · -- the node that is stored to
        subst hkj
        obtain rfl : L.pnode[k] = c := (List.getElem?_eq_some_iff.mp hc).2
        obtain ⟨q', hcell'⟩ := hat.1
        refine ⟨⟨q', (hsame hcell).trans hcell'⟩, o, ?_⟩
        rw [if_pos rfl]
        refine ⟨Blocks.fill_self, ?_⟩
        rw [howner, ← (List.getElem?_eq_some_iff.mp hnd).2]
      · rw [if_neg hkj]
        refine hat.congr (hsame hcell) (hsame fun heq => hkj ?_)
        have hk : k < L.pnode.length := (List.getElem?_eq_some_iff.mp hc).1
        have hsnd : (L.pnode.map Prod.snd).get ⟨k, by simpa using hk⟩ =
            (L.pnode.map Prod.snd).get ⟨j, by simpa using hj⟩ := by
          simp [heq, (List.getElem?_eq_some_iff.mp hc).2]
        exact Fin.mk.inj (List.nodup_iff_injective_get.mp hnodes hsnd)
  · refine List.forall₂_iff_get.mpr ⟨h.holds.length_eq, fun j hj hj' => ?_⟩
    exact (h.holds.get hj hj').congr (hsame (hholds _ (List.get_mem L.onhold ⟨j, hj⟩) c hmem).2)
  · rintro rfl
    exact hb (mem_blocks.mpr (Or.inl ⟨c, hmem, Or.inl rfl⟩))

/-- A store to the `data` of a cell of `onhold`. -/
theorem storeData (h : Laid deref L m p) (ha : L.onhold[k]? = some a) (o : O) :
    ∃ heap, Memory.storeData m.heap a (.owner o) = some heap ∧
      Laid deref L { m with heap } { p with onhold := p.onhold.set k (some (deref o)) } ∧
        ∀ b ∉ L.blocks, heap b = m.heap b := by
  obtain ⟨held, hheld, data, q, hcell, -⟩ := h.holdAt ha
  obtain ⟨-, honhold, -, hholds⟩ := h.distinct
  have hmem := List.mem_of_getElem? ha
  have hload : Memory.loadList m.heap a = some (data, q) := by rw [Memory.loadList, hcell]
  have hsame : ∀ {b}, b ≠ a → m.heap.fill a (.list (.owner o) q) b = m.heap b :=
    fun hb => Blocks.fill_of_ne hb
  -- the link stays what it was
  have hlinks : ∀ b, links (m.heap.fill a (.list (.owner o) q)) b = links m.heap b := by
    intro b
    by_cases hb : b = a
    · subst hb
      rw [links_of_list hcell, links_of_list Blocks.fill_self]
    · exact links_congr (hsame hb)
  refine ⟨m.heap.fill a (.list (.owner o) q), by rw [Memory.storeData, hload]; rfl,
    ⟨h.size, h.pnode.congr fun b _ => hlinks b, h.onhold.congr fun b _ => hlinks b, ?_, ?_,
      h.nodup⟩, fun b hb => hsame ?_⟩
  · refine List.forall₂_iff_get.mpr ⟨h.nodes.length_eq, fun j hj hj' => ?_⟩
    have hapart := hholds a hmem _ (List.get_mem L.pnode ⟨j, hj⟩)
    exact (h.nodes.get hj hj').congr (hsame hapart.1.symm) (hsame hapart.2.symm)
  · refine List.forall₂_iff_get.mpr ⟨?_, fun j hj hj' => ?_⟩
    · rw [h.holds.length_eq, List.length_set]
    · have hat := h.holds.get hj (by rwa [← h.holds.length_eq])
      simp only [List.get_eq_getElem, List.getElem_set] at hat ⊢
      obtain ⟨hk, hka⟩ := List.getElem?_eq_some_iff.mp ha
      by_cases hkj : k = j
      · subst hkj
        rw [if_pos rfl, hka]
        exact ⟨_, _, Blocks.fill_self, rfl⟩
      · rw [if_neg hkj]
        refine hat.congr (hsame fun heq => hkj ?_)
        exact honhold.getElem_inj_iff.mp (hka.trans heq.symm)
  · rintro rfl
    exact hb (mem_blocks.mpr (Or.inr hmem))

omit [DecidableEq A] in
theorem forLevel (h : Laid deref L m p) {i : ℕ} (hi : 1 ≤ i) :
    m.forLevel i L.onhold[i - 1]? = (Pmutex.forLevel p i).pointers L ∧
      (Pmutex.forLevel p i).Counted := by
  rw [Memory.forLevel, Pmutex.forLevel, h.size]
  split_ifs
  · exact ⟨rfl, hi⟩
  · exact ⟨rfl, trivial⟩

variable [DecidableEq T]

/-- An access of `lock` by positions that is defined is one by pointers. -/
theorem lockStep (h : Laid deref L m p) {my : Option ℕ} {pc pc' : LockPc} (hpc : pc.Counted)
    (hstep : Pmutex.lockStep p my pc = some (p', pc')) :
    ∃ m', Memory.lockStep deref m (my.bind L.node) (pc.pointers L) = some (m', pc'.pointers L) ∧
      Laid deref L m' p' ∧ (∀ b ∉ L.blocks, m'.heap b = m.heap b) ∧ pc'.Counted := by
  cases pc with
  | storeLevel i =>
    simp only [Pmutex.lockStep, Option.bind_eq_bind, Option.bind_eq_some_iff, Option.some.injEq,
      Prod.mk.injEq] at hstep
    obtain ⟨k, rfl, nd, hnd, rfl, rfl⟩ := hstep
    obtain ⟨c, hc, -⟩ := h.exists_pnode hnd
    have hnode : L.node k = some c.2 := by rw [Layout.node, hc]; rfl
    obtain ⟨heap, hstore, hlaid, hframe⟩ := h.storeLevel hnode i
    refine ⟨{ m with heap }, ?_, hlaid, hframe, hpc⟩
    simp only [LockPc.pointers, Memory.lockStep, Option.bind_some, hnode, hstore,
      Option.bind_eq_bind]
  | storeOnhold i =>
    simp only [Pmutex.lockStep, Option.bind_eq_bind, Option.bind_eq_some_iff, Option.some.injEq,
      Prod.mk.injEq] at hstep
    obtain ⟨k, rfl, nd, hnd, held, hheld, rfl, rfl⟩ := hstep
    obtain ⟨c, hc, -, o, hload, howner⟩ := h.exists_pnode hnd
    obtain ⟨a, -, ha, -, -⟩ := h.exists_onhold hheld
    have hnode : L.node k = some c.2 := by rw [Layout.node, hc]; rfl
    obtain ⟨heap, hstore, hlaid, hframe⟩ := h.storeData ha o
    refine ⟨{ m with heap }, ?_, howner ▸ hlaid, hframe, hpc⟩
    simp only [LockPc.pointers, Memory.lockStep, Option.bind_some, hnode, hload, ha, hstore,
      Option.bind_eq_bind]
  | loadOnhold i flg =>
    simp only [Pmutex.lockStep, Option.bind_eq_bind, Option.bind_eq_some_iff] at hstep
    obtain ⟨k, rfl, nd, hnd, _, hheld, held, rfl, hstep⟩ := hstep
    obtain ⟨c, hc, -, o, hload, howner⟩ := h.exists_pnode hnd
    obtain ⟨a, data, ha, hcell, hdata⟩ := h.exists_onhold hheld
    have hnode : L.node k = some c.2 := by rw [Layout.node, hc]; rfl
    obtain ⟨o', rfl, hderef⟩ : ∃ o', data = .owner o' ∧ deref o' = held := by
      cases data with
      | owner o' => exact ⟨o', rfl, by simpa [Data.held] using hdata⟩
      | uninitialised | pnode node => simp [Data.held] at hdata
    have hi : 1 ≤ i := hpc
    have hnext : L.onhold[i - 1 + 1]? = L.onhold[i + 1 - 1]? := by congr 1; omega
    have hcursor : (LockPc.loadOnhold i flg).pointers L = .loadOnhold i flg (some a) := by
      rw [LockPc.pointers, ha]
    rw [hcursor]
    simp only [Memory.lockStep, hcell, Data.owner?, Option.bind_some, hnode, hload,
      Option.bind_eq_bind, hderef, howner]
    split_ifs at hstep with hwaits
    · obtain ⟨rfl, rfl⟩ := Prod.mk.inj (Option.some.inj hstep)
      refine ⟨m, ?_, h, fun _ _ => rfl, hi⟩
      rw [if_pos hwaits, h.pnode_eq, LockPc.pointers, ha]
    · obtain ⟨rfl, rfl⟩ := Prod.mk.inj (Option.some.inj hstep)
      obtain ⟨hlevel, hcounted⟩ := h.forLevel (i := i + 1) (by omega)
      refine ⟨m, ?_, h, fun _ _ => rfl, hcounted⟩
      rw [if_neg hwaits, hnext, hlevel]
  | scan i j =>
    have hi : 1 ≤ i := hpc
    by_cases hj : j < p.size
    · simp only [Pmutex.lockStep, if_pos hj, Option.bind_eq_bind, Option.bind_eq_some_iff] at hstep
      obtain ⟨k, rfl, mine, hmine, nd, hnd, hstep⟩ := hstep
      obtain ⟨c, hc, -, o, hload, howner⟩ := h.exists_pnode hmine
      obtain ⟨c', hc', hcell, o', hload', howner'⟩ := h.exists_pnode hnd
      have hnode : L.node k = some c.2 := by rw [Layout.node, hc]; rfl
      have hlistaux : L.cell j = some c'.1 := by rw [Layout.cell, hc']; rfl
      simp only [LockPc.pointers, Memory.lockStep, h.size, if_pos hj, hlistaux, hcell, Data.node?,
        hload', hnode, hload, Option.bind_some, Option.bind_eq_bind, howner, howner']
      split_ifs at hstep with hown hlevel
      · obtain ⟨rfl, rfl⟩ := Prod.mk.inj (Option.some.inj hstep)
        exact ⟨m, by rw [if_pos hown], h, fun _ _ => rfl, hi⟩
      · obtain ⟨rfl, rfl⟩ := Prod.mk.inj (Option.some.inj hstep)
        exact ⟨m, by rw [if_neg hown, if_pos hlevel], h, fun _ _ => rfl, hi⟩
      · obtain ⟨rfl, rfl⟩ := Prod.mk.inj (Option.some.inj hstep)
        exact ⟨m, by rw [if_neg hown, if_neg hlevel], h, fun _ _ => rfl, hi⟩
    · simp only [Pmutex.lockStep, if_neg hj] at hstep
      obtain ⟨rfl, rfl⟩ := Prod.mk.inj (Option.some.inj hstep)
      refine ⟨m, ?_, h, fun _ _ => rfl, hi⟩
      simp only [LockPc.pointers, Memory.lockStep, h.size, if_neg hj]
  | returned => simp [Pmutex.lockStep] at hstep

omit [DecidableEq A] in
/-- A turn of a search looks at the node at its position. -/
theorem look (h : Laid deref L m p) (hnd : p.pnode[k]? = some nd) (me : T) :
    ∃ c, L.pnode[k]? = some c ∧ Memory.look deref m.heap me c.1 =
      some (decide (nd.owner = me), c.2, L.cell (k + 1)) := by
  obtain ⟨c, hc, hcell, o, hnode, howner⟩ := h.exists_pnode hnd
  refine ⟨c, hc, ?_⟩
  simp only [Memory.look, hcell, Data.node?, hnode, Option.bind_eq_bind, Option.bind_some, howner]

end Laid

/-! ### All threads -/

section Search

variable {p p' : PmutexT T} {my : Option ℕ} {pc pc' : LockPc} {me : T} {k : ℕ}

omit [DecidableEq A]

theorem owners_lockStep (h : lockStep p my pc = some (p', pc')) : p'.owners = p.owners := by
  cases pc with
  | storeLevel i =>
    simp only [lockStep, Option.bind_eq_bind, Option.bind_eq_some_iff, Option.some.injEq,
      Prod.mk.injEq] at h
    obtain ⟨k, -, -, -, rfl, -⟩ := h
    exact map_owner_storeLevel p k i
  | storeOnhold i =>
    simp only [lockStep, Option.bind_eq_bind, Option.bind_eq_some_iff, Option.some.injEq,
      Prod.mk.injEq] at h
    obtain ⟨-, -, -, -, -, -, rfl, -⟩ := h
    rfl
  | loadOnhold i flg =>
    simp only [lockStep, Option.bind_eq_bind, Option.bind_eq_some_iff] at h
    obtain ⟨_, _, _, _, _, _, _, _, h⟩ := h
    split_ifs at h <;> rw [(Prod.mk.inj (Option.some.inj h)).1]
  | scan i j =>
    by_cases hj : j < p.size
    · simp only [lockStep, if_pos hj, Option.bind_eq_bind, Option.bind_eq_some_iff] at h
      obtain ⟨_, _, _, _, _, _, h⟩ := h
      split_ifs at h <;> rw [(Prod.mk.inj (Option.some.inj h)).1]
    · simp only [lockStep, if_neg hj] at h
      rw [(Prod.mk.inj (Option.some.inj h)).1]
  | returned => simp [lockStep] at h

theorem owners_unlock (p : PmutexT T) (me : T) : (unlock p me).owners = p.owners := by
  unfold unlock
  split
  · exact map_owner_storeLevel p _ 0
  · rfl

/-- The search stops at the first node of the thread. -/
theorem findNode_eq_some (hbefore : ∀ j < k, p.owners[j]? ≠ some me)
    (hk : p.owners[k]? = some me) : findNode p me = some k := by
  rw [PmutexT.owners, List.getElem?_map, Option.map_eq_some_iff] at hk
  obtain ⟨nd, hnd, howner⟩ := hk
  obtain ⟨hlt, hget⟩ := List.getElem?_eq_some_iff.mp hnd
  rw [findNode, List.findIdx?_eq_some_iff_getElem]
  refine ⟨hlt, by simp [hget, howner], fun j hj => ?_⟩
  have hne := hbefore j hj
  rw [PmutexT.owners, List.getElem?_map, List.getElem?_eq_getElem (hj.trans hlt)] at hne
  simpa using hne

/-- The search of a thread without a node ends with the null pointer. -/
theorem findNode_eq_none (hbefore : ∀ j < k, p.owners[j]? ≠ some me)
    (hk : p.pnode[k]? = none) : findNode p me = none := by
  rw [findNode, List.findIdx?_eq_none_iff]
  intro nd hnd
  obtain ⟨j, hj⟩ := List.mem_iff_getElem?.mp hnd
  have hlt : j < k := (List.getElem?_eq_some_iff.mp hj).1.trans_le (List.getElem?_eq_none_iff.mp hk)
  have hne := hbefore j hlt
  rw [PmutexT.owners, List.getElem?_map, hj] at hne
  simpa using hne

end Search

/-- A search has come to a position, and no node before it is that of `me`. -/
def Sought (L : Layout A) (owners : List T) (me : T) (listaux : Option A) : Prop :=
  ∃ k, listaux = L.cell k ∧ ∀ j < k, owners[j]? ≠ some me

/-- What the phase of thread `me` stands for. A thread owns the mutex until `unlock` has
stored to its level. -/
inductive Stands (L : Layout A) (owners : List T) (me : T) : PointerPhase A → Phase → Prop
  | outside : Stands L owners me .outside .outside
  | searching {listaux : Option A} (sought : Sought L owners me listaux) :
      Stands L owners me (.searching listaux) .searching
  | inLock {my : Option ℕ} {pc : LockPc} (counted : pc.Counted) :
      Stands L owners me (.inLock (my.bind L.node) (pc.pointers L)) (.inLock my pc)
  | critical : Stands L owners me .critical .critical
  | unlocking {listaux : Option A} (sought : Sought L owners me listaux) :
      Stands L owners me (.unlocking listaux) .critical
  | exited : Stands L owners me .exited .exited

/-- A state with pointers in a layout, with the rest of the heap as it was, and the state
with lists that it stands for. -/
structure Mirrors (deref : O → T) (L : Layout A) (heap₀ : Blocks A (Block A O))
    (s : PointerState A O T) (x : State T) : Prop where
  laid : Laid deref L s.mem x.p
  others : ∀ a ∉ L.blocks, s.mem.heap a = heap₀ a
  place : ∀ t, Stands L x.p.owners t (s.phase t) (x.phase t)

namespace Mirrors

variable {deref : O → T} {L : Layout A} {heap₀ : Blocks A (Block A O)} {s s' : PointerState A O T}
  {x : State T} {me : T} {m' : Memory A O} {p' : PmutexT T} {phase : PointerPhase A}
  {phase' : Phase} {my : Option ℕ} {pc : LockPc}

omit [DecidableEq A]

omit [DecidableEq T] in
theorem stands_ofLock (hpc : pc.Counted) {owners : List T} :
    Stands L owners me (.ofLock (my.bind L.node) (pc.pointers L)) (.ofLock my pc) := by
  cases pc with
  | returned => exact .critical
  | storeLevel i | storeOnhold i | loadOnhold i flg | scan i j => exact .inLock hpc

/-- A step of both. -/
theorem enter (h : Mirrors deref L heap₀ s x) (hlaid : Laid deref L m' p')
    (hframe : ∀ a ∉ L.blocks, m'.heap a = s.mem.heap a) (howners : p'.owners = x.p.owners)
    (hstands : Stands L x.p.owners me phase phase') :
    Mirrors deref L heap₀ (s.enter m' me phase) (x.enter p' me phase') where
  laid := hlaid
  others a ha := (hframe a ha).trans (h.others a ha)
  place t := by
    rw [enter_p, howners]
    by_cases ht : t = me
    · subst ht
      rw [enter_phase_self]
      simpa [PointerState.enter] using hstands
    · rw [enter_phase_of_ne ht]
      simpa [PointerState.enter, ht] using h.place t

/-- A step of which nothing is seen with lists. -/
theorem stutter (h : Mirrors deref L heap₀ s x)
    (hstands : Stands L x.p.owners me phase (x.phase me)) :
    Mirrors deref L heap₀ (s.enter s.mem me phase) x where
  laid := h.laid
  others := h.others
  place t := by
    by_cases ht : t = me
    · subst ht
      simpa [PointerState.enter] using hstands
    · simpa [PointerState.enter, ht] using h.place t

/-- A search that is at a position looks at the node there, or has come to the end. -/
theorem sought_cases (h : Mirrors deref L heap₀ s x) {listaux : Option A}
    (hsought : Sought L x.p.owners me listaux) :
    (listaux = none ∧ findNode x.p me = none) ∨
      ∃ a curr next mine, listaux = some a ∧
        Memory.look deref s.mem.heap me a = some (mine, curr, next) ∧
        (mine = true → ∃ k, findNode x.p me = some k ∧ L.node k = some curr) ∧
        (mine = false → Sought L x.p.owners me next) := by
  obtain ⟨k, rfl, hbefore⟩ := hsought
  cases hnd : x.p.pnode[k]? with
  | none =>
    refine Or.inl ⟨?_, findNode_eq_none hbefore hnd⟩
    rw [List.getElem?_eq_none_iff, ← h.laid.nodes.length_eq] at hnd
    rw [Layout.cell, List.getElem?_eq_none hnd]
    rfl
  | some nd =>
    obtain ⟨c, hc, hlook⟩ := h.laid.look hnd me
    have howner : x.p.owners[k]? = some nd.owner := by
      rw [PmutexT.owners, List.getElem?_map, hnd]
      rfl
    refine Or.inr ⟨c.1, c.2, L.cell (k + 1), decide (nd.owner = me), by rw [Layout.cell, hc]; rfl,
      hlook, fun hmine => ⟨k, ?_, by rw [Layout.node, hc]; rfl⟩,
      fun hother => ⟨k + 1, rfl, fun j hj => ?_⟩⟩
    · exact findNode_eq_some hbefore (by rw [howner, of_decide_eq_true hmine])
    · rcases Nat.lt_succ_iff_lt_or_eq.mp hj with hlt | rfl
      · exact hbefore j hlt
      · rw [howner]
        simpa using of_decide_eq_false hother

omit [DecidableEq T] in
theorem sought_start (h : Mirrors deref L heap₀ s x) (me : T) :
    Sought L x.p.owners me s.mem.pnode :=
  ⟨0, h.laid.pnode_eq, fun _ hj => absurd hj (Nat.not_lt_zero _)⟩

variable [Fintype T] {r : Roster T} [DecidableEq A]

/-- A thread that has called `lock` or `unlock` has a next step, which is none or one with
lists. -/
theorem exists_next (h : Mirrors deref L heap₀ s x) (hx : (system r).Reachable x) (me : T)
    (hout : s.phase me ≠ .outside) (hexited : s.phase me ≠ .exited) :
    ∃ m' phase, s.mem.next deref me (s.phase me) = some (m', phase) ∧
      ∃ w x', (system r).Run x w x' ∧ Mirrors deref L heap₀ (s.enter m' me phase) x' := by
  have hplace := h.place me
  generalize hphase : s.phase me = phase at hplace hout hexited
  generalize hxphase : x.phase me = phase' at hplace
  cases hplace with
  | outside => exact absurd rfl hout
  | exited => exact absurd rfl hexited
  | critical =>
    refine ⟨_, _, rfl, [], x, .refl x, h.stutter ?_⟩
    rw [hxphase]
    exact .unlocking (h.sought_start me)
  | searching hsought =>
    have hfound : ∀ node, node = (findNode x.p me).bind L.node →
        ∃ w x', (system r).Run x w x' ∧ Mirrors deref L heap₀
          (s.enter s.mem me (.ofLock node (s.mem.forLevel 1 s.mem.onhold))) x' := by
      intro node hnode
      obtain ⟨hlevel, hcounted⟩ := h.laid.forLevel (i := 1) le_rfl
      refine ⟨[me], _, .single (.search hxphase), h.enter h.laid (fun _ _ => rfl) rfl ?_⟩
      rw [h.laid.onhold_eq, hlevel, hnode]
      exact stands_ofLock hcounted
    rcases h.sought_cases hsought with
      ⟨rfl, hnone⟩ | ⟨a, curr, next, mine, rfl, hlook, hmine, hother⟩
    · exact ⟨_, _, rfl, hfound none (by rw [hnone]; rfl)⟩
    · cases mine with
      | true =>
        obtain ⟨k, hk, hnode⟩ := hmine rfl
        refine ⟨s.mem, .ofLock (some curr) (s.mem.forLevel 1 s.mem.onhold),
          by simp [Memory.next, hlook], ?_⟩
        exact hfound (some curr) (by rw [hk, Option.bind_some, hnode])
      | false =>
        refine ⟨s.mem, .searching next, by simp [Memory.next, hlook], [], x, .refl x, h.stutter ?_⟩
        rw [hxphase]
        exact .searching (hother rfl)
  | @inLock my pc hcounted =>
    obtain ⟨p', pc', hstep⟩ := exists_lockStep hx hxphase
    obtain ⟨m', hnext, hlaid, hframe, hcounted'⟩ := h.laid.lockStep hcounted hstep
    exact ⟨m', .ofLock (my.bind L.node) (pc'.pointers L), by simp [Memory.next, hnext], [me], _,
      .single (.access hxphase hstep),
      h.enter hlaid hframe (owners_lockStep hstep) (stands_ofLock hcounted')⟩
  | unlocking hsought =>
    rcases h.sought_cases hsought with
      ⟨rfl, hnone⟩ | ⟨a, curr, next, mine, rfl, hlook, hmine, hother⟩
    · refine ⟨s.mem, .outside, rfl, [me], _, .single (.unlock hxphase),
        h.enter ?_ (fun _ _ => rfl) (owners_unlock x.p me) .outside⟩
      rw [unlock, hnone]
      exact h.laid
    · cases mine with
      | true =>
        obtain ⟨k, hk, hnode⟩ := hmine rfl
        obtain ⟨heap, hstore, hlaid, hframe⟩ := h.laid.storeLevel hnode 0
        refine ⟨{ s.mem with heap }, .outside, by simp [Memory.next, hlook, hstore], [me], _,
          .single (.unlock hxphase), h.enter ?_ hframe (owners_unlock x.p me) .outside⟩
        rw [unlock, hk]
        exact hlaid
      | false =>
        refine ⟨s.mem, .unlocking next, by simp [Memory.next, hlook], [], x, .refl x, h.stutter ?_⟩
        rw [hxphase]
        exact .unlocking (hother rfl)

/-- Every step by pointers is a step with lists, or nothing is seen of it. -/
theorem step (h : Mirrors deref L heap₀ s x) (hx : (system r).Reachable x)
    (hstep : PointerStep deref s me s') :
    ∃ w x', (system r).Run x w x' ∧ Mirrors deref L heap₀ s' x' := by
  cases hstep with
  | lock out =>
    have hplace := h.place me
    rw [out] at hplace
    generalize hphase : x.phase me = phase at hplace
    cases hplace
    exact ⟨[me], _, .single (.lock hphase),
      h.enter h.laid (fun _ _ => rfl) rfl (.searching (h.sought_start me))⟩
  | exit out =>
    have hplace := h.place me
    rw [out] at hplace
    generalize hphase : x.phase me = phase at hplace
    cases hplace
    exact ⟨[me], _, .single (.exit hphase), h.enter h.laid (fun _ _ => rfl) rfl .exited⟩
  | next goes =>
    obtain ⟨m', phase, hnext, hrun⟩ := h.exists_next hx me
      (by rintro hphase; rw [hphase] at goes; cases goes)
      (by rintro hphase; rw [hphase] at goes; cases goes)
    obtain ⟨rfl, rfl⟩ := Prod.mk.inj (Option.some.inj (hnext.symm.trans goes))
    exact hrun

end Mirrors

/-! ### Registration -/

/-- The mutex with the threads that its owners point to. -/
def PmutexT.map (deref : O → T) (p : PmutexT O) : PmutexT T where
  size := p.size
  onhold := p.onhold.map (Option.map deref)
  pnode := p.pnode.map fun nd => ⟨nd.level, deref nd.owner⟩

section Registration

variable {deref : O → T} {L : Layout A} {m : Memory A O} {p : PmutexT O} {owners : List O}
  {heap₀ : Blocks A (Block A O)}

omit [DecidableEq T] [DecidableEq A]

theorem Data.held_eq (data : Data A O) :
    data.held deref = (data.held id).map (Option.map deref) := by
  cases data <;> rfl

/-- What is laid out with owners is so with the threads they point to. -/
theorem Laid.map (h : Laid id L m p) (deref : O → T) : Laid deref L m (p.map deref) where
  size := h.size
  pnode := h.pnode
  onhold := h.onhold
  nodes := by
    rw [PmutexT.map, List.forall₂_map_right_iff]
    refine h.nodes.imp fun c nd hat => ?_
    obtain ⟨hcell, o, hnode, howner⟩ := hat
    exact ⟨hcell, o, hnode, congrArg deref howner⟩
  holds := by
    rw [PmutexT.map, List.forall₂_map_right_iff]
    refine h.holds.imp fun a held hat => ?_
    obtain ⟨data, q, hcell, hdata⟩ := hat
    exact ⟨data, q, hcell, by rw [Data.held_eq, hdata]; rfl⟩
  nodup := h.nodup

theorem map_after_adds (deref : O → T) (p : PmutexT O) (owners : List O) :
    (after p (owners.map .add)).map deref = (owners.map deref).foldl pmutexAdd (p.map deref) := by
  induction owners generalizing p with
  | nil => rfl
  | cons o owners ih => exact ih (pmutexAdd p o)

theorem length_after_adds (p : PmutexT O) (owners : List O) :
    (after p (owners.map .add)).pnode.length = p.pnode.length + owners.length := by
  induction owners generalizing p with
  | nil => rfl
  | cons o owners ih =>
    have hcons := ih (pmutexAdd p o)
    rw [pmutexAdd, List.length_cons] at hcons
    rw [List.length_cons]
    exact hcons.trans (by omega)

/-- Registration alone forgets nothing. -/
theorem noneDropped_adds [DecidableEq O] (owners : List O) : NoneDropped (owners.map Op.add) := by
  intro before owner rest heq hcreate
  have hmem : Op.create ∈ owners.map Op.add := by
    rw [heq]
    exact List.mem_append_right _ (List.mem_cons_of_mem _ hcreate)
  obtain ⟨o, -, ho⟩ := List.mem_map.mp hmem
  cases ho

end Registration

/-- A thread is past `lock` and has not stored to its level in `unlock`. -/
def PointerPhase.Owns : PointerPhase A → Prop
  | .critical | .unlocking _ => True
  | .outside | .searching _ | .inLock _ _ | .exited => False

omit [DecidableEq T] [DecidableEq A] in
theorem Stands.critical_of_owns {L : Layout A} {owners : List T} {me : T} {phase : PointerPhase A}
    {phase' : Phase} (h : Stands L owners me phase phase') (howns : phase.Owns) :
    phase' = .critical := by
  cases h with
  | critical | unlocking => rfl
  | outside | searching | inLock | exited => exact howns.elim

variable [Fintype T]

/-- The program with pointers, whatever addresses `malloc` has returned and in every
interleaving: it does what the program with lists does, no access of it is undefined, at
most one thread is between the return of `lock` and the store of `unlock`, and destroying
the mutex gives back exactly the heap there was before its creation. -/
theorem pointers_safe (r : Roster T) (deref : O → T) {owners : List O}
    (howners : owners.map deref = r.ths) (heap₀ : Blocks A (Block A O)) {s : PointerState A O T}
    (hs : (pointers deref heap₀ owners).Reachable s) :
    (∃ L x, (system r).Reachable x ∧ Mirrors deref L heap₀ s x) ∧
      (∀ t, s.phase t ≠ .outside → s.phase t ≠ .exited →
        (s.mem.next deref t (s.phase t)).isSome) ∧
      (∀ t u, (s.phase t).Owns → (s.phase u).Owns → t = u) ∧
      ∀ fuel, owners.length < fuel →
        ∃ m', s.mem.pmutexDestroy fuel = some m' ∧ m'.heap = heap₀ := by
  classical
  obtain ⟨s₀, w, ⟨⟨m₀, hinit, hcalls⟩, hout⟩, hrun⟩ := hs
  obtain ⟨L, dropped, hledger⟩ := Ledger.of_run hinit hcalls
  obtain rfl : dropped = [] := hledger.none_dropped.mpr (noneDropped_adds owners)
  have hlaid : Laid deref L s₀.mem r.registered := by
    rw [Roster.registered, ← howners]
    exact map_after_adds deref pmutexCreate owners ▸ hledger.laid.map deref
  -- the layout stays the same in the whole run
  obtain ⟨x, hx, hmir⟩ := hrun.invariant
    (I := fun s => ∃ x, (system r).Reachable x ∧ Mirrors deref L heap₀ s x)
    (fun hstep hinv => by
      obtain ⟨x, hx, hmir⟩ := hinv
      obtain ⟨v, x', hv, hmir'⟩ := hmir.step hx hstep
      exact ⟨x', hx.run hv, hmir'⟩)
    ⟨⟨r.registered, fun _ => .outside⟩, .of_initial ⟨rfl, fun _ => rfl⟩, hlaid,
      fun a ha => hledger.others a ha (by simp), fun t => by rw [hout]; exact .outside⟩
  refine ⟨⟨L, x, hx, hmir⟩, fun t h1 h2 => ?_, fun t u ht hu => ?_, fun fuel hfuel => ?_⟩
  · obtain ⟨m', phase, hnext, -⟩ := hmir.exists_next hx t h1 h2
    rw [hnext]
    rfl
  · exact critical_unique hx ((hmir.place t).critical_of_owns ht)
      ((hmir.place u).critical_of_owns hu)
  · have hpnode : L.pnode.length = owners.length := by
      rw [hledger.laid.nodes.length_eq, length_after_adds]
      simp [pmutexCreate]
    have honhold : L.onhold.length = owners.length := by
      rw [hledger.laid.holds.length_eq, (after_lists _ rfl).1, length_after_adds]
      simp [pmutexCreate]
    have hend := hmir.laid.pmutexDestroy fuel
    rw [if_neg (by omega)] at hend
    refine ⟨_, hend, ?_⟩
    funext a
    by_cases ha : a ∈ L.blocks
    · exact (if_pos ha).trans (hledger.fresh a (Or.inl ha)).symm
    · exact (if_neg ha).trans (hmir.others a ha)

/-- Two threads, registered through pointers 100 and 101 to their identifiers. Thread 0 has
called `lock`, and the first turn of its search has passed the node of thread 1. -/
theorem pointers_safe_two_threads :
    ∃ s : PointerState ℕ ℕ (Fin 2),
      (pointers (fun o => if o = 101 then 1 else 0) (fun _ => none) [100, 101]).Reachable s ∧
        s.phase 0 = .searching (some 11) ∧
        (s.mem.next (fun o => if o = 101 then 1 else 0) 0 (s.phase 0)).isSome ∧
        ∃ m', s.mem.pmutexDestroy 3 = some m' ∧ m'.heap = fun _ => none := by
  let deref : ℕ → Fin 2 := fun o => if o = 101 then 1 else 0
  let garbage : Memory ℕ ℕ := ⟨7, none, none, fun _ => none⟩
  have hadds : (calls fun _ => none).Run garbage.pmutexCreate ([100, 101].map .add) _ :=
    .cons (.add 10 11 12 (by decide) (by decide))
      (.single (.add 20 21 22 (by decide) (by decide)))
  have hinit : (pointers deref (fun _ => none) [100, 101]).Reachable ⟨_, fun _ => .outside⟩ :=
    .of_initial ⟨⟨_, ⟨garbage, rfl, rfl⟩, hadds⟩, fun _ => rfl⟩
  have hturn := (hinit.step (a := 0) (.lock rfl)).step (a := 0) (.next rfl)
  obtain ⟨-, hdefined, -, hdestroy⟩ := pointers_safe twoThreads deref (by decide) _ hturn
  exact ⟨_, hturn, rfl, hdefined 0 (by simp [PointerState.enter]) (by simp [PointerState.enter]),
    hdestroy 3 (by decide)⟩

end Sisop.Pmutex
