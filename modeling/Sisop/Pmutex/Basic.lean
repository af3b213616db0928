import Mathlib.Data.Fintype.Card
import Sisop.Foundations.Transition

/-!
# The `pmutex` module and its threads

`pmutex.c` implements a filter lock over two linked lists: `pnode` holds one node
per registered thread with the level the thread resides at, `onhold` one node per
level with the thread sacrificed there. Both lists grow at the head. Here a list
is a `List`, head first, and a pointer to a node is its position.

`lock` is cut at its accesses to shared data: each store or load of a `level` and
each store or load of an `onhold` node's `data` is a step of its own, taken by
`lockStep`. What lies between two accesses touches local variables, the spine of
the lists and the owners only, none of which changes after registration.

A thread is named by its `pthread_t`. An owner pointer is read through at every use
in `pmutex.c` and its target never changes, so a node carries the thread itself.

## Main definitions

* `PnodeT`, `PmutexT` — `struct pnode_t`, `struct pmutex_t`
* `pmutexCreate`, `pmutexAdd`, `unlock`, `lockStep` — the functions of the module
* `Roster` — the threads of a program in the order of their registration
* `system` — all threads of a roster, free to lock, unlock, lock again or exit
-/

namespace Sisop.Pmutex

open Foundations

variable {T : Type}

/-- `struct pnode_t`: information about a thread. -/
structure PnodeT (T : Type) where
  level : ℕ
  owner : T

/-- `struct pmutex_t`. The `data` of an `onhold` node is uninitialised memory until
the first store to it, which is `none`. -/
structure PmutexT (T : Type) where
  size : ℕ
  onhold : List (Option T)
  pnode : List (PnodeT T)

/-- `pmutex_create`. -/
def pmutexCreate : PmutexT T where
  size := 0
  onhold := []
  pnode := []

/-- `pmutex_add`: a new node at the head of each list, and `size` one larger. -/
def pmutexAdd (p : PmutexT T) (owner : T) : PmutexT T where
  pnode := { level := 0, owner := owner } :: p.pnode
  onhold := none :: p.onhold
  size := p.size + 1

variable [DecidableEq T]

/-- The search at the start of `lock` and of `unlock` for the node of thread `me`;
`none` is the null pointer left when there is none. -/
def findNode (p : PmutexT T) (me : T) : Option ℕ :=
  p.pnode.findIdx? fun curr => curr.owner = me

/-- Store to the `level` of the node at position `k`. -/
def storeLevel (p : PmutexT T) (k level : ℕ) : PmutexT T :=
  { p with pnode := p.pnode.modify k fun nd => { nd with level := level } }

omit [DecidableEq T] in
/-- Storing to a level changes no owner. -/
@[simp] theorem map_owner_storeLevel (p : PmutexT T) (k level : ℕ) :
    (storeLevel p k level).pnode.map PnodeT.owner = p.pnode.map PnodeT.owner := by
  apply List.ext_getElem?
  intro m
  simp only [storeLevel, List.getElem?_map, List.getElem?_modify]
  cases p.pnode[m]? with
  | none => simp
  | some nd =>
    simp only [Option.map_eq_map, Option.map_some]
    split <;> rfl

/-- `unlock` by thread `me`. -/
def unlock (p : PmutexT T) (me : T) : PmutexT T :=
  match findNode p me with
  | some k => storeLevel p k 0
  | none => p

/-- Where a thread is inside `lock`. The counter `i` is the level, and `holdlist` is
then the node at position `i - 1` of `onhold`; in the scan `j` is both the counter
and the position of `listaux` in `pnode`. -/
inductive LockPc
  /-- About to store `mypnode->level = i`. -/
  | storeLevel (i : ℕ)
  /-- About to store `holdlist->data`. -/
  | storeOnhold (i : ℕ)
  /-- About to evaluate the condition of the waiting loop. -/
  | loadOnhold (i : ℕ) (flg : Bool)
  /-- In the scan of `pnode`, with `flg = 0`, about to test `j < p->size`. -/
  | scan (i j : ℕ)
  /-- `lock` has returned. -/
  | returned
  deriving DecidableEq

/-- The test of the loop over the levels. -/
def forLevel (p : PmutexT T) (i : ℕ) : LockPc :=
  if i < p.size then .storeLevel i else .returned

/-- The next shared access of `lock` by the thread whose node is at `mypnode`, with
the local computation up to the one after it. The value `none` stands for undefined
behaviour: a null pointer is followed or uninitialised `data` is used. -/
def lockStep (p : PmutexT T) (mypnode : Option ℕ) : LockPc → Option (PmutexT T × LockPc)
  -- `mypnode->level = i`
  | .storeLevel i => do
    let k ← mypnode
    let _ ← p.pnode[k]?
    some (storeLevel p k i, .storeOnhold i)
  -- `holdlist->data = (void*)mypnode->owner`, then `flg = 1`
  | .storeOnhold i => do
    let k ← mypnode
    let mine ← p.pnode[k]?
    let _ ← p.onhold[i - 1]?
    some ({ p with onhold := p.onhold.set (i - 1) (some mine.owner) }, .loadOnhold i true)
  -- the waiting loop goes on while the thread is held and `flg` is set
  | .loadOnhold i flg => do
    let k ← mypnode
    let mine ← p.pnode[k]?
    let data ← p.onhold[i - 1]?
    let held ← data
    if held = mine.owner ∧ flg then
      some (p, .scan i 0)
    else
      some (p, forLevel p (i + 1))
  -- `flg` is zero until a thread at this level or above is found
  | .scan i j =>
    if j < p.size then do
      let k ← mypnode
      let mine ← p.pnode[k]?
      let listaux ← p.pnode[j]?
      if listaux.owner = mine.owner then
        some (p, .scan i (j + 1))
      else if i ≤ listaux.level then
        some (p, .loadOnhold i true)
      else
        some (p, .scan i (j + 1))
    else
      some (p, .loadOnhold i false)
  | .returned => none

/-! ### The threads of a program -/

/-- The threads of a program, in the order in which they are registered: each of
them once. -/
structure Roster (T : Type) where
  ths : List T
  nodup : ths.Nodup
  mem : ∀ t, t ∈ ths

/-- The mutex after `pmutex_create` and `pmutex_add` of every thread. -/
def Roster.registered (r : Roster T) : PmutexT T := r.ths.foldl pmutexAdd pmutexCreate

/-- Where a thread is. -/
inductive Phase
  /-- Outside `lock` and free to call it. -/
  | outside
  /-- In `lock`, searching its node. -/
  | searching
  /-- In `lock`, past the search. -/
  | inLock (mypnode : Option ℕ) (pc : LockPc)
  /-- Between the return of `lock` and the store of `unlock`. -/
  | critical
  | exited
  deriving DecidableEq

/-- The phase of a thread whose call of `lock` has come to `pc`. -/
def Phase.ofLock (mypnode : Option ℕ) : LockPc → Phase
  | .returned => .critical
  | pc => .inLock mypnode pc

/-- A thread is still in `lock` unless that has returned. -/
theorem ofLock_eq_inLock {my my' : Option ℕ} {pc pc' : LockPc}
    (h : Phase.ofLock my pc = .inLock my' pc') : my' = my ∧ pc' = pc ∧ pc ≠ .returned := by
  cases pc <;> simp [Phase.ofLock] at h ⊢ <;> exact ⟨h.1.symm, h.2.symm⟩

/-- The phase in which the search at the start of `lock` leaves thread `me`. -/
def afterSearch (p : PmutexT T) (me : T) : Phase := .ofLock (findNode p me) (forLevel p 1)

/-- The mutex, and where every thread is. -/
structure State (T : Type) where
  p : PmutexT T
  phase : T → Phase

/-- Put one thread into a phase. -/
def State.enter (s : State T) (p : PmutexT T) (me : T) (phase : Phase) : State T where
  p := p
  phase := Function.update s.phase me phase

section Enter

variable {s : State T} {p : PmutexT T} {me t : T} {phase : Phase}

@[simp] theorem enter_p : (s.enter p me phase).p = p := rfl

@[simp] theorem enter_phase_self : (s.enter p me phase).phase me = phase := by
  simp [State.enter]

theorem enter_phase_of_ne (h : t ≠ me) : (s.enter p me phase).phase t = s.phase t := by
  simp [State.enter, h]

end Enter

/-- One step of thread `me`. -/
inductive Step : State T → T → State T → Prop
  | lock {s : State T} {me : T} (out : s.phase me = .outside) :
      Step s me (s.enter s.p me .searching)
  | search {s : State T} {me : T} (inside : s.phase me = .searching) :
      Step s me (s.enter s.p me (afterSearch s.p me))
  | access {s : State T} {me : T} {mypnode : Option ℕ} {pc pc' : LockPc} {p' : PmutexT T}
      (inside : s.phase me = .inLock mypnode pc)
      (next : lockStep s.p mypnode pc = some (p', pc')) :
      Step s me (s.enter p' me (.ofLock mypnode pc'))
  | unlock {s : State T} {me : T} (owns : s.phase me = .critical) :
      Step s me (s.enter (unlock s.p me) me .outside)
  | exit {s : State T} {me : T} (out : s.phase me = .outside) :
      Step s me (s.enter s.p me .exited)

/-- Every interleaving of the threads of a roster after their registration. -/
def system (r : Roster T) : Machine (State T) T where
  initial s := s.p = r.registered ∧ ∀ t, s.phase t = .outside
  step := Step

end Sisop.Pmutex
