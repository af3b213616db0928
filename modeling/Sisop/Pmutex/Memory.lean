import Mathlib.Data.List.TakeWhile
import Sisop.Foundations.LinkedList
import Sisop.Pmutex.Registration

/-!
# The lists of `pmutex` in memory

Every `pmutex_add` allocates three blocks: a node, the cell of `pnode` that points to it,
and a cell of `onhold` whose `data` nobody has stored to. `pmutex_destroy` walks along both
lists and frees the blocks, each node before its cell. `pmutex_create` forgets the lists.

Here the heap is a partial map from addresses, `malloc` gives any block that is not
allocated, and following the null pointer, freeing or reading what is not allocated, and
using `data` of the wrong kind are undefined. An owner is what is added: a pointer to the
`pthread_t` of a thread.

## Main definitions

* `Memory` — the mutex and the heap
* `Memory.pmutexCreate`, `Memory.pmutexAdd`, `Memory.pmutexDestroy` — the functions
* `Laid` — a layout of blocks that stands for a mutex with lists
* `calls` — all sequences of calls on one mutex, whatever `malloc` gives
* `NoneDropped` — no call of `pmutex_create` forgets a list that is not empty

## Main results

* `Laid.pmutexDestroy` — what is destroyed, is freed once, and nothing else is
* `destroy_restores_heap_iff` — when the heap is as it was before the mutex was created
-/

namespace Sisop.Pmutex

open Foundations

variable {A O T : Type}

/-- What the `data` of a `list_t` may be. -/
inductive Data (A O : Type)
  | uninitialised
  | pnode (node : A)
  | owner (o : O)
  deriving DecidableEq

/-- A block of the heap: a `list_t` or a `pnode_t`. -/
inductive Block (A O : Type)
  | list (data : Data A O) (next : Option A)
  | pnode (level : ℕ) (owner : O)
  deriving DecidableEq

/-- A `pmutex_t`, and the heap in which its functions work. -/
structure Memory (A O : Type) where
  size : ℕ
  onhold : Option A
  pnode : Option A
  heap : Blocks A (Block A O)

namespace Memory

/-- Read a `list_t`: its `data` and its `next`. -/
def loadList (heap : Blocks A (Block A O)) (a : A) : Option (Data A O × Option A) :=
  match heap a with
  | some (.list data next) => some (data, next)
  | some (.pnode _ _) | none => none

/-- `pmutex_create`. -/
def pmutexCreate (m : Memory A O) : Memory A O :=
  { m with size := 0, onhold := none, pnode := none }

variable [DecidableEq A]

/-- `pmutex_add`, with the three blocks that `malloc` returns. -/
def pmutexAdd (m : Memory A O) (owner : O) (pnew plist holdp : A) : Memory A O where
  size := m.size + 1
  onhold := some holdp
  pnode := some plist
  heap := ((m.heap.fill pnew (.pnode 0 owner)).fill plist (.list (.pnode pnew) m.pnode)).fill
    holdp (.list .uninitialised m.onhold)

/-- One turn of the first loop of `pmutex_destroy`, with the next value of `p->pnode`. -/
def freePnode (heap : Blocks A (Block A O)) (plist : A) :
    Option (Option A × Blocks A (Block A O)) :=
  match loadList heap plist with
  | some (.pnode data, next) => do
    -- `free(plist->data)`
    let heap ← heap.free data
    -- `plist->next = NULL`
    let (data, _) ← loadList heap plist
    let heap := heap.fill plist (.list data none)
    let heap ← heap.free plist
    some (next, heap)
  | some (.uninitialised, _) | some (.owner _, _) | none => none

/-- One turn of the second loop, with the next value of `p->onhold`. -/
def freeHold (heap : Blocks A (Block A O)) (plist : A) :
    Option (Option A × Blocks A (Block A O)) := do
  let (_, next) ← loadList heap plist
  let heap ← heap.free plist
  some (next, heap)

/-- `pmutex_destroy`, if its loops come to an end within `fuel` tests each and nothing in
them is undefined. -/
def pmutexDestroy (fuel : ℕ) (m : Memory A O) : Option (Memory A O) := do
  let heap ← freeLoop freePnode fuel m.heap m.pnode
  let heap ← freeLoop freeHold fuel heap m.onhold
  some { m with heap, pnode := none, onhold := none }

end Memory

/-! ### Layouts -/

/-- The link of a block that is a cell. -/
def Block.link : Block A O → Option (Option A)
  | .list _ next => some next
  | .pnode _ _ => none

/-- The links of a heap. -/
def links (heap : Blocks A (Block A O)) (a : A) : Option (Option A) := (heap a).bind Block.link

/-- The blocks of a mutex: the cells of `pnode` with their nodes, and the cells of
`onhold`. -/
structure Layout (A : Type) where
  pnode : List (A × A)
  onhold : List A

/-- All blocks of a layout, in the order in which they are freed. -/
def Layout.blocks (L : Layout A) : List A := (L.pnode.flatMap fun c => [c.2, c.1]) ++ L.onhold

/-- What the `data` of a cell of `onhold` stands for. -/
def Data.held (deref : O → T) : Data A O → Option (Option T)
  | .uninitialised => some none
  | .owner o => some (some (deref o))
  | .pnode _ => none

/-- A cell points to a node. -/
def NodeAt (deref : O → T) (heap : Blocks A (Block A O)) (c : A × A) (nd : PnodeT T) : Prop :=
  (∃ next, heap c.1 = some (.list (.pnode c.2) next)) ∧
    ∃ o, heap c.2 = some (.pnode nd.level o) ∧ deref o = nd.owner

/-- A cell of `onhold` holds the pointer to a thread, or nothing yet. -/
def HoldAt (deref : O → T) (heap : Blocks A (Block A O)) (a : A) (held : Option T) : Prop :=
  ∃ data next, heap a = some (.list data next) ∧ data.held deref = some held

/-- The blocks of a layout make up the lists of a mutex, and no two of them are the same.
What owners point to is given. -/
structure Laid (deref : O → T) (L : Layout A) (m : Memory A O) (p : PmutexT T) : Prop where
  size : m.size = p.size
  pnode : Chain (links m.heap) m.pnode (L.pnode.map Prod.fst)
  onhold : Chain (links m.heap) m.onhold L.onhold
  nodes : List.Forall₂ (NodeAt deref m.heap) L.pnode p.pnode
  holds : List.Forall₂ (HoldAt deref m.heap) L.onhold p.onhold
  nodup : L.blocks.Nodup

section Laid

variable {deref : O → T} {L : Layout A} {m : Memory A O} {p : PmutexT T} {a : A}
  {heap heap' : Blocks A (Block A O)} {c : A × A} {nd : PnodeT T} {held : Option T}

theorem mem_blocks : a ∈ L.blocks ↔ (∃ c ∈ L.pnode, a = c.2 ∨ a = c.1) ∨ a ∈ L.onhold := by
  simp [Layout.blocks]

theorem NodeAt.congr (h : NodeAt deref heap c nd) (hcell : heap' c.1 = heap c.1)
    (hnode : heap' c.2 = heap c.2) : NodeAt deref heap' c nd := by
  rw [NodeAt, hcell, hnode]
  exact h

theorem HoldAt.congr (h : HoldAt deref heap a held) (heq : heap' a = heap a) :
    HoldAt deref heap' a held := by
  rw [HoldAt, heq]
  exact h

theorem links_congr (h : heap' a = heap a) : links heap' a = links heap a := by
  rw [links, links, h]

theorem links_of_list {data : Data A O} {q : Option A} (h : heap a = some (.list data q)) :
    links heap a = some q := by
  rw [links, h]
  rfl

namespace Laid

theorem nodeAt (h : Laid deref L m p) {k : ℕ} (hc : L.pnode[k]? = some c) :
    ∃ nd, p.pnode[k]? = some nd ∧ NodeAt deref m.heap c nd := by
  obtain ⟨hk, rfl⟩ := List.getElem?_eq_some_iff.mp hc
  have hk' : k < p.pnode.length := h.nodes.length_eq ▸ hk
  exact ⟨_, List.getElem?_eq_getElem hk', h.nodes.get hk hk'⟩

theorem holdAt (h : Laid deref L m p) {k : ℕ} (ha : L.onhold[k]? = some a) :
    ∃ held, p.onhold[k]? = some held ∧ HoldAt deref m.heap a held := by
  obtain ⟨hk, rfl⟩ := List.getElem?_eq_some_iff.mp ha
  have hk' : k < p.onhold.length := h.holds.length_eq ▸ hk
  exact ⟨_, List.getElem?_eq_getElem hk', h.holds.get hk hk'⟩

/-- Every block of the layout is allocated. -/
theorem isSome_of_mem (h : Laid deref L m p) (ha : a ∈ L.blocks) : (m.heap a).isSome := by
  rcases mem_blocks.mp ha with ⟨c, hc, hac⟩ | ha
  · obtain ⟨k, hk⟩ := List.mem_iff_getElem?.mp hc
    obtain ⟨nd, -, ⟨next, hcell⟩, o, hnode, -⟩ := h.nodeAt hk
    rcases hac with rfl | rfl
    · rw [hnode]; rfl
    · rw [hcell]; rfl
  · obtain ⟨k, hk⟩ := List.mem_iff_getElem?.mp ha
    obtain ⟨held, -, data, next, hcell, -⟩ := h.holdAt hk
    rw [hcell]; rfl

/-- A mutex without nodes has no blocks. -/
theorem blocks_eq_nil_iff (h : Laid deref L m p) (hlists : p.onhold.length = p.pnode.length) :
    L.blocks = [] ↔ p.pnode = [] := by
  rw [← List.length_eq_zero_iff (l := p.pnode), ← h.nodes.length_eq]
  rw [← h.nodes.length_eq, ← h.holds.length_eq] at hlists
  constructor
  · intro hnil
    have hcells := List.flatMap_eq_nil_iff.mp (List.append_eq_nil_iff.mp hnil).1
    rw [List.length_eq_zero_iff, List.eq_nil_iff_forall_not_mem]
    exact fun c hc => absurd (hcells c hc) (by simp)
  · intro hzero
    rw [hzero] at hlists
    simp [Layout.blocks, List.length_eq_zero_iff.mp hzero, List.length_eq_zero_iff.mp hlists]

/-- The layout stays while its blocks do. -/
theorem congr (h : Laid deref L m p) (heq : ∀ a ∈ L.blocks, heap a = m.heap a) :
    Laid deref L { m with heap } p where
  size := h.size
  pnode := by
    refine h.pnode.congr fun a ha => ?_
    obtain ⟨c, hc, rfl⟩ := List.mem_map.mp ha
    exact links_congr (heq _ (mem_blocks.mpr (Or.inl ⟨c, hc, Or.inr rfl⟩)))
  onhold := h.onhold.congr fun a ha => links_congr (heq _ (mem_blocks.mpr (Or.inr ha)))
  nodes := by
    refine List.forall₂_iff_get.mpr ⟨h.nodes.length_eq, fun k hk hk' => ?_⟩
    have hmem := List.get_mem L.pnode ⟨k, hk⟩
    exact (h.nodes.get hk hk').congr (heq _ (mem_blocks.mpr (Or.inl ⟨_, hmem, Or.inr rfl⟩)))
      (heq _ (mem_blocks.mpr (Or.inl ⟨_, hmem, Or.inl rfl⟩)))
  holds := by
    refine List.forall₂_iff_get.mpr ⟨h.holds.length_eq, fun k hk hk' => ?_⟩
    have hmem := List.get_mem L.onhold ⟨k, hk⟩
    exact (h.holds.get hk hk').congr (heq _ (mem_blocks.mpr (Or.inr hmem)))
  nodup := h.nodup

theorem create (deref : O → T) (m : Memory A O) :
    Laid deref ⟨[], []⟩ m.pmutexCreate pmutexCreate where
  size := rfl
  pnode := rfl
  onhold := rfl
  nodes := .nil
  holds := .nil
  nodup := List.nodup_nil

variable [DecidableEq A] {owner : O} {pnew plist holdp : A}

/-- The three blocks of an added thread come to the heads of the lists. -/
theorem add (h : Laid deref L m p) (hnodup : [pnew, plist, holdp].Nodup)
    (hfresh : ∀ a ∈ [pnew, plist, holdp], m.heap a = none) :
    Laid deref ⟨(plist, pnew) :: L.pnode, holdp :: L.onhold⟩
      (m.pmutexAdd owner pnew plist holdp) (pmutexAdd p (deref owner)) := by
  simp only [List.nodup_cons, List.mem_cons, List.not_mem_nil, or_false, not_or] at hnodup
  obtain ⟨⟨hpl, hph⟩, hlh, -⟩ := hnodup
  have hold : ∀ a ∈ L.blocks, a ≠ pnew ∧ a ≠ plist ∧ a ≠ holdp := by
    intro a ha
    have hsome := h.isSome_of_mem ha
    refine ⟨?_, ?_, ?_⟩ <;> rintro rfl <;> simp [hfresh] at hsome
  have hpnew : (m.pmutexAdd owner pnew plist holdp).heap pnew = some (.pnode 0 owner) := by
    simp only [Memory.pmutexAdd]
    rw [Blocks.fill_of_ne hph, Blocks.fill_of_ne hpl, Blocks.fill_self]
  have hplist : (m.pmutexAdd owner pnew plist holdp).heap plist =
      some (.list (.pnode pnew) m.pnode) := by
    simp only [Memory.pmutexAdd]
    rw [Blocks.fill_of_ne hlh, Blocks.fill_self]
  have hholdp : (m.pmutexAdd owner pnew plist holdp).heap holdp =
      some (.list .uninitialised m.onhold) := Blocks.fill_self
  have hsame : Laid deref L { m with heap := (m.pmutexAdd owner pnew plist holdp).heap } p := by
    refine h.congr fun a ha => ?_
    obtain ⟨h1, h2, h3⟩ := hold a ha
    simp only [Memory.pmutexAdd]
    rw [Blocks.fill_of_ne h3, Blocks.fill_of_ne h2, Blocks.fill_of_ne h1]
  refine ⟨congrArg (· + 1) h.size, hsame.pnode.push (links_of_list hplist),
    hsame.onhold.push (links_of_list hholdp), .cons ⟨⟨_, hplist⟩, owner, hpnew, rfl⟩ hsame.nodes,
    .cons ⟨_, _, hholdp, rfl⟩ hsame.holds, ?_⟩
  -- the old blocks are other ones
  have hnot : pnew ∉ L.blocks ∧ plist ∉ L.blocks ∧ holdp ∉ L.blocks :=
    ⟨fun hm => (hold _ hm).1 rfl, fun hm => (hold _ hm).2.1 rfl, fun hm => (hold _ hm).2.2 rfl⟩
  have hperm : (pnew :: plist :: holdp :: L.blocks).Perm
      (Layout.blocks ⟨(plist, pnew) :: L.pnode, holdp :: L.onhold⟩) := by
    simp only [Layout.blocks, List.flatMap_cons, List.cons_append, List.nil_append]
    exact ((List.perm_middle.symm).cons plist).cons pnew
  refine hperm.nodup ?_
  simp only [List.nodup_cons, List.mem_cons, not_or]
  exact ⟨⟨hpl, hph, hnot.1⟩, ⟨hlh, hnot.2.1⟩, hnot.2.2, h.nodup⟩

omit [DecidableEq A] in
theorem loadList_eq (h : Laid deref L m p) (hc : c ∈ L.pnode) {q : Option A}
    (hq : links m.heap c.1 = some q) (heq : heap c.1 = m.heap c.1) :
    Memory.loadList heap c.1 = some (.pnode c.2, q) := by
  obtain ⟨k, hk⟩ := List.mem_iff_getElem?.mp hc
  obtain ⟨-, -, ⟨next, hcell⟩, -⟩ := h.nodeAt hk
  rw [links_of_list hcell] at hq
  rw [Memory.loadList, heq, hcell, Option.some.inj hq]

/-- A turn of the first loop frees a node and its cell. -/
theorem freePnode (h : Laid deref L m p) (hc : c ∈ L.pnode) {q : Option A}
    (hq : links m.heap c.1 = some q) {gone : List A} (hgone : ∀ a ∈ [c.2, c.1], a ∉ gone) :
    Memory.freePnode (m.heap.without gone) c.1 =
      some (q, m.heap.without (gone ++ [c.2, c.1])) := by
  have hnode : c.2 ∈ L.blocks := mem_blocks.mpr (Or.inl ⟨c, hc, Or.inl rfl⟩)
  have hcell : c.1 ∈ L.blocks := mem_blocks.mpr (Or.inl ⟨c, hc, Or.inr rfl⟩)
  have hne : c.1 ≠ c.2 := by
    have hpair := List.nodup_flatMap.mp (List.nodup_append.mp h.nodup).1
    have := hpair.1 c hc
    simp only [List.nodup_cons, List.mem_singleton] at this
    exact Ne.symm this.1
  have hlater : c.1 ∉ gone ++ [c.2] := by simp [hgone c.1 (by simp), hne]
  rw [Memory.freePnode, h.loadList_eq hc hq (Blocks.without_of_notMem (hgone c.1 (by simp)))]
  simp only
  rw [Blocks.free_without (h.isSome_of_mem hnode) (hgone c.2 (by simp)), Option.bind_eq_bind,
    Option.bind_some, h.loadList_eq hc hq (Blocks.without_of_notMem hlater), Option.bind_eq_bind,
    Option.bind_some]
  simp only
  rw [Blocks.free_fill (by rw [Blocks.without_of_notMem hlater]; exact h.isSome_of_mem hcell),
    Blocks.free_without (h.isSome_of_mem hcell) hlater, List.append_assoc]
  rfl

/-- A turn of the second loop frees a cell. -/
theorem freeHold (h : Laid deref L m p) (ha : a ∈ L.onhold) {q : Option A}
    (hq : links m.heap a = some q) {gone : List A} (hgone : a ∉ gone) :
    Memory.freeHold (m.heap.without gone) a = some (q, m.heap.without (gone ++ [a])) := by
  obtain ⟨k, hk⟩ := List.mem_iff_getElem?.mp ha
  obtain ⟨-, -, data, next, hcell, -⟩ := h.holdAt hk
  rw [links_of_list hcell] at hq
  have hload : Memory.loadList (m.heap.without gone) a = some (data, q) := by
    rw [Memory.loadList, Blocks.without_of_notMem hgone, hcell, Option.some.inj hq]
  rw [Memory.freeHold, hload, Option.bind_eq_bind, Option.bind_some,
    Blocks.free_without (h.isSome_of_mem (mem_blocks.mpr (Or.inr ha))) hgone]
  rfl

/-- Destroying a mutex frees its blocks and no other, each of them once. -/
theorem pmutexDestroy (h : Laid deref L m p) (fuel : ℕ) :
    m.pmutexDestroy fuel = if fuel ≤ L.pnode.length ∨ fuel ≤ L.onhold.length then none else
      some { m with heap := m.heap.without L.blocks, pnode := none, onhold := none } := by
  obtain ⟨hfirst, hsecond, hapart⟩ := List.nodup_append.mp h.nodup
  have hpnode := freeLoop_of_chain (fun c => [c.2, c.1]) Memory.freePnode h.pnode hfirst
    (fun c hc q hq gone hgone => h.freePnode hc hq hgone) fuel
  -- the cells of `onhold` are still there
  have hcells : Chain (links m.heap) m.onhold (L.onhold.map id) := by
    rw [List.map_id]
    exact h.onhold
  have honhold := freeLoop_of_chain (m := m.heap.without (L.pnode.flatMap fun c => [c.2, c.1]))
    (fun a => [a]) Memory.freeHold hcells (by simpa using hsecond)
    (fun a ha q hq gone hgone => by
      rw [Blocks.without_without, Blocks.without_without, ← List.append_assoc]
      refine h.freeHold ha hq ?_
      simp only [List.mem_append, not_or]
      exact ⟨fun hmem => hapart a hmem a ha rfl, hgone a (by simp)⟩) fuel
  rw [Memory.pmutexDestroy, hpnode]
  by_cases h1 : fuel ≤ L.pnode.length
  · simp [h1]
  · rw [if_neg h1, Option.bind_eq_bind, Option.bind_some, honhold]
    by_cases h2 : fuel ≤ L.onhold.length
    · simp [h2]
    · simp [h1, h2, Blocks.without_without, Layout.blocks]

end Laid

end Laid

/-! ### Sequences of calls -/

/-- A call on a mutex. What `malloc` returns was not allocated before. -/
inductive Call [DecidableEq A] : Memory A O → Op O → Memory A O → Prop
  | create {m : Memory A O} : Call m .create m.pmutexCreate
  | add {m : Memory A O} {owner : O} (pnew plist holdp : A)
      (nodup : [pnew, plist, holdp].Nodup)
      (fresh : ∀ a ∈ [pnew, plist, holdp], m.heap a = none) :
      Call m (.add owner) (m.pmutexAdd owner pnew plist holdp)
  | destroy {m m' : Memory A O} (fuel : ℕ) (ends : m.pmutexDestroy fuel = some m') :
      Call m .destroy m'

/-- All sequences of calls on a mutex, from its creation in a heap on. -/
def calls [DecidableEq A] (heap : Blocks A (Block A O)) : Machine (Memory A O) (Op O) where
  initial m := ∃ m₀ : Memory A O, m₀.heap = heap ∧ m = m₀.pmutexCreate
  step := Call

/-- No call of `pmutex_create` comes after an add unless a `pmutex_destroy` comes between. -/
def NoneDropped [DecidableEq O] (ops : List (Op O)) : Prop :=
  AfterEachAdd (fun rest => .create ∈ rest → .destroy ∈ rest.takeWhile (· ≠ .create)) ops

section Ledger

variable {ops : List (Op O)} {op : Op O} {owner : O} {p : PmutexT O}

theorem AfterEachAdd.congr {Q Q' : List (Op O) → Prop} (h : ∀ rest, Q rest ↔ Q' rest) :
    AfterEachAdd Q ops ↔ AfterEachAdd Q' ops := by
  simp only [AfterEachAdd, h]

theorem AfterEachAdd.and {Q Q' : List (Op O) → Prop} :
    AfterEachAdd (fun rest => Q rest ∧ Q' rest) ops ↔ AfterEachAdd Q ops ∧ AfterEachAdd Q' ops := by
  constructor
  · intro h
    exact ⟨fun b o r hops => (h b o r hops).1, fun b o r hops => (h b o r hops).2⟩
  · rintro ⟨h, h'⟩ b o r hops
    exact ⟨h b o r hops, h' b o r hops⟩

/-- The lists are empty when every thread added has been forgotten or freed. -/
theorem after_pnode_eq_nil_iff (ops : List (Op O)) :
    (after pmutexCreate ops).pnode = [] ↔
      AfterEachAdd (fun rest => .create ∈ rest ∨ .destroy ∈ rest) ops := by
  induction ops using List.reverseRecOn with
  | nil => simp [after, pmutexCreate, AfterEachAdd]
  | append_singleton ops op ih =>
    rw [afterEachAdd_append_singleton, after_append_singleton]
    cases op with
    | create => simp [apply, pmutexCreate, AfterEachAdd]
    | add owner => simp [apply, pmutexAdd]
    | destroy => simp [apply, pmutexDestroy, AfterEachAdd]

variable [DecidableEq O]

/-- The calls before the first call of `pmutex_create`, if there is one. -/
theorem takeWhile_append_of_create {rest l : List (Op O)} (h : .create ∈ rest) :
    (rest ++ l).takeWhile (· ≠ .create) = rest.takeWhile (· ≠ .create) := by
  rw [List.takeWhile_append, if_neg]
  intro hlength
  have hall := List.takeWhile_eq_self_iff.mp
    ((List.takeWhile_prefix (· ≠ Op.create)).eq_of_length hlength) .create h
  simp at hall

theorem noneDropped_append_create :
    NoneDropped (ops ++ [.create]) ↔ NoneDropped ops ∧ (after pmutexCreate ops).pnode = [] := by
  rw [after_pnode_eq_nil_iff, NoneDropped, afterEachAdd_append_singleton, NoneDropped,
    ← AfterEachAdd.and]
  simp only [reduceCtorEq, false_imp_iff, implies_true, and_true]
  refine AfterEachAdd.congr fun rest => ?_
  by_cases hcreate : Op.create ∈ rest
  · rw [takeWhile_append_of_create hcreate]
    simp [hcreate]
  · have hlast : (rest ++ [Op.create]).takeWhile (· ≠ Op.create) = rest := by
      rw [List.takeWhile_append_of_pos fun op hop => by
        simpa using ne_of_mem_of_not_mem hop hcreate]
      simp
    simp only [hlast]
    simp [hcreate]

theorem noneDropped_append_of_ne (hop : op ≠ .create) :
    NoneDropped (ops ++ [op]) ↔ NoneDropped ops := by
  rw [NoneDropped, afterEachAdd_append_singleton, NoneDropped]
  simp only [List.not_mem_nil, false_imp_iff, implies_true, and_true]
  refine AfterEachAdd.congr fun rest => ?_
  by_cases hcreate : Op.create ∈ rest
  · rw [takeWhile_append_of_create hcreate]
    simp [hcreate]
  · simp [hcreate, hop.symm]

variable [DecidableEq A] {heap₀ : Blocks A (Block A O)} {L : Layout A} {dropped : List A}
  {m m' : Memory A O}

/-- The allocated blocks are those that were there before, those of the mutex, and those
that a call of `pmutex_create` has forgotten. -/
structure Ledger (heap₀ : Blocks A (Block A O)) (ops : List (Op O)) (L : Layout A)
    (dropped : List A) (m : Memory A O) : Prop where
  laid : Laid id L m (after pmutexCreate ops)
  others : ∀ a, a ∉ L.blocks → a ∉ dropped → m.heap a = heap₀ a
  lost : ∀ a ∈ dropped, (m.heap a).isSome
  fresh : ∀ a, a ∈ L.blocks ∨ a ∈ dropped → heap₀ a = none
  apart : ∀ a ∈ L.blocks, a ∉ dropped
  none_dropped : dropped = [] ↔ NoneDropped ops

namespace Ledger

theorem init (hinit : (calls heap₀).initial m) : Ledger heap₀ [] ⟨[], []⟩ [] m := by
  obtain ⟨m₀, rfl, rfl⟩ := hinit
  exact ⟨.create id m₀, fun _ _ _ => rfl, by simp, by simp [Layout.blocks], by simp,
    by simp [NoneDropped, AfterEachAdd]⟩

omit [DecidableEq A] in
theorem create (h : Ledger heap₀ ops L dropped m) :
    Ledger heap₀ (ops ++ [.create]) ⟨[], []⟩ (L.blocks ++ dropped) m.pmutexCreate where
  laid := by
    rw [after_append_singleton]
    exact .create id m
  others a _ ha := by
    rw [List.mem_append, not_or] at ha
    exact h.others a ha.1 ha.2
  lost a ha := (List.mem_append.mp ha).elim h.laid.isSome_of_mem (h.lost a)
  fresh a ha := h.fresh a (List.mem_append.mp (ha.resolve_left (by simp [Layout.blocks])))
  apart := by simp [Layout.blocks]
  none_dropped := by
    rw [noneDropped_append_create, ← h.none_dropped, List.append_eq_nil_iff, and_comm,
      h.laid.blocks_eq_nil_iff (after_lists ops rfl).1]

theorem add (h : Ledger heap₀ ops L dropped m) {pnew plist holdp : A}
    (hnodup : [pnew, plist, holdp].Nodup)
    (hfresh : ∀ a ∈ [pnew, plist, holdp], m.heap a = none) :
    Ledger heap₀ (ops ++ [.add owner]) ⟨(plist, pnew) :: L.pnode, holdp :: L.onhold⟩ dropped
      (m.pmutexAdd owner pnew plist holdp) := by
  have hmem : ∀ a, a ∈ Layout.blocks ⟨(plist, pnew) :: L.pnode, holdp :: L.onhold⟩ ↔
      a ∈ [pnew, plist, holdp] ∨ a ∈ L.blocks := by
    intro a
    simp only [Layout.blocks, List.flatMap_cons, List.mem_append, List.mem_cons]
    tauto
  have hsame : ∀ a ∉ [pnew, plist, holdp],
      (m.pmutexAdd owner pnew plist holdp).heap a = m.heap a := by
    intro a ha
    simp only [List.mem_cons, List.not_mem_nil, or_false, not_or] at ha
    simp only [Memory.pmutexAdd]
    rw [Blocks.fill_of_ne ha.2.2, Blocks.fill_of_ne ha.2.1, Blocks.fill_of_ne ha.1]
  -- what was forgotten is still allocated
  have hlost : ∀ a ∈ dropped, a ∉ [pnew, plist, holdp] := by
    intro a ha hnew
    have hsome := h.lost a ha
    rw [hfresh a hnew] at hsome
    cases hsome
  refine ⟨?_, fun a ha hnot => ?_, fun a ha => ?_, fun a ha => ?_, fun a ha => ?_, ?_⟩
  · rw [after_append_singleton]
    exact h.laid.add hnodup hfresh
  · rw [hmem, not_or] at ha
    rw [hsame a ha.1, h.others a ha.2 hnot]
  · rw [hsame a (hlost a ha)]
    exact h.lost a ha
  · rcases ha with ha | ha
    · rcases (hmem a).mp ha with hnew | hold
      · by_cases hboth : a ∈ L.blocks ∨ a ∈ dropped
        · exact h.fresh a hboth
        · rw [not_or] at hboth
          rw [← h.others a hboth.1 hboth.2, hfresh a hnew]
      · exact h.fresh a (Or.inl hold)
    · exact h.fresh a (Or.inr ha)
  · rcases (hmem a).mp ha with hnew | hold
    · exact fun hdropped => hlost a hdropped hnew
    · exact h.apart a hold
  · rw [noneDropped_append_of_ne (by simp)]
    exact h.none_dropped

theorem destroy (h : Ledger heap₀ ops L dropped m) :
    Ledger heap₀ (ops ++ [.destroy]) ⟨[], []⟩ dropped
      { m with heap := m.heap.without L.blocks, pnode := none, onhold := none } where
  laid := by
    rw [after_append_singleton]
    exact ⟨h.laid.size, rfl, rfl, .nil, .nil, List.nodup_nil⟩
  others a _ ha := by
    by_cases hmem : a ∈ L.blocks
    · simp only [Blocks.without, if_pos hmem]
      exact (h.fresh a (Or.inl hmem)).symm
    · simp only [Blocks.without, if_neg hmem]
      exact h.others a hmem ha
  lost a ha := by
    have hnot : a ∉ L.blocks := fun hmem => h.apart a hmem ha
    simp only [Blocks.without, if_neg hnot]
    exact h.lost a ha
  fresh a ha := h.fresh a (Or.inr (by simpa [Layout.blocks] using ha))
  apart := by simp [Layout.blocks]
  none_dropped := by
    rw [noneDropped_append_of_ne (by simp)]
    exact h.none_dropped

/-- One more call. -/
theorem step (h : Ledger heap₀ ops L dropped m) (hcall : Call m op m') :
    ∃ L' dropped', Ledger heap₀ (ops ++ [op]) L' dropped' m' := by
  cases hcall with
  | create => exact ⟨_, _, h.create⟩
  | add pnew plist holdp hnodup hfresh => exact ⟨_, _, h.add hnodup hfresh⟩
  | destroy fuel hends =>
    rw [h.laid.pmutexDestroy] at hends
    split_ifs at hends
    obtain rfl := Option.some.inj hends
    exact ⟨_, _, h.destroy⟩

theorem of_run {m₀ : Memory A O} (hinit : (calls heap₀).initial m₀)
    (hrun : (calls heap₀).Run m₀ ops m) : ∃ L dropped, Ledger heap₀ ops L dropped m :=
  hrun.history_invariant (I := fun ops m => ∃ L dropped, Ledger heap₀ ops L dropped m)
    (fun hcall ⟨_, _, h⟩ => h.step hcall) ⟨_, _, .init hinit⟩

end Ledger

/-- The heap after any sequence of calls, whatever `malloc` returns. The mutex is laid out
as its lists are. A call of `pmutex_destroy` comes to an end and never frees a block twice,
and it leaves the heap as it was before the mutex was created exactly when no call of
`pmutex_create` has come after an add without a `pmutex_destroy` in between. -/
theorem destroy_restores_heap_iff (heap₀ : Blocks A (Block A O)) {m₀ : Memory A O}
    (hinit : (calls heap₀).initial m₀) (hrun : (calls heap₀).Run m₀ ops m) :
    (∃ L, Laid id L m (after pmutexCreate ops)) ∧
      ∀ fuel, (after pmutexCreate ops).pnode.length < fuel →
        ∃ m', m.pmutexDestroy fuel = some m' ∧ (m'.heap = heap₀ ↔ NoneDropped ops) := by
  obtain ⟨L, dropped, h⟩ := Ledger.of_run hinit hrun
  refine ⟨⟨L, h.laid⟩, fun fuel hfuel => ?_⟩
  have hlists := (after_lists (p := pmutexCreate) ops rfl).1
  have hend := h.laid.pmutexDestroy fuel
  rw [if_neg (by rw [h.laid.nodes.length_eq, h.laid.holds.length_eq]; omega)] at hend
  refine ⟨_, hend, ?_⟩
  have hleft := h.destroy
  rw [← h.none_dropped]
  constructor
  · intro heq
    rw [List.eq_nil_iff_forall_not_mem]
    intro a ha
    have hsome := hleft.lost a ha
    rw [heq, h.fresh a (Or.inr ha)] at hsome
    cases hsome
  · rintro rfl
    funext a
    exact hleft.others a (by simp [Layout.blocks]) (by simp)

/-- A mutex for two threads, created anew for one: the three blocks of each of the first two
are not freed. -/
theorem destroy_restores_heap_two_threads :
    ∃ m m' : Memory ℕ ℕ, (calls fun _ => none).Run
      (Memory.pmutexCreate ⟨7, none, none, fun _ => none⟩) [.add 1, .add 2, .create, .add 3] m ∧
      m.pmutexDestroy 2 = some m' ∧ m'.heap ≠ fun _ => none := by
  let garbage : Memory ℕ ℕ := ⟨7, none, none, fun _ => none⟩
  have hinit : (calls fun _ => none).initial garbage.pmutexCreate := ⟨garbage, rfl, rfl⟩
  have hrun : (calls fun _ => none).Run garbage.pmutexCreate
      [.add 1, .add 2, .create, .add 3] _ :=
    .cons (.add 10 11 12 (by decide) (by decide))
      (.cons (.add 20 21 22 (by decide) (by decide))
        (.cons .create (.single (.add 30 31 32 (by decide) (by decide)))))
  obtain ⟨-, hdestroy⟩ := destroy_restores_heap_iff _ hinit hrun
  obtain ⟨m', hends, hheap⟩ := hdestroy 2 (by decide)
  refine ⟨_, m', hrun, hends, fun heq => ?_⟩
  exact absurd (hheap.mp heq [.add 1] 2 [.create, .add 3] rfl) (by decide)

end Ledger

end Sisop.Pmutex
