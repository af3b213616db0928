import Mathlib.Data.List.Induction
import Sisop.Pmutex.Bounds

/-!
# Creating, adding and destroying

`pmutex_destroy` frees the nodes of both lists and leaves `size` as it is. The counter
is then too large by the number of nodes freed until the next `pmutex_create`, and
`lock` runs off the lists. Sequences in which no thread has been added when the mutex
is destroyed, or in which it is created again afterwards, keep the counter right.

## Main definitions

* `pmutexDestroy` — the function
* `Op`, `after` — sequences of calls on one mutex
* `SizeMatches` — the counter, the lists and the levels, and the safety of `lock`
* `Recreated` — every add that a destroy follows is followed by a create as well

## Main results

* `after_size_eq_iff` — when the counter is the number of nodes
* `sizeMatches_after_iff` — when the mutex is as its header says
-/

namespace Sisop.Pmutex

open Foundations

variable {T : Type}

/-- `pmutex_destroy`: each of its loops frees the head of a list until none is left. -/
def pmutexDestroy (p : PmutexT T) : PmutexT T := { p with pnode := [], onhold := [] }

/-- A call on a mutex. -/
inductive Op (T : Type)
  | create
  | add (owner : T)
  | destroy
  deriving DecidableEq

/-- The mutex after a call. -/
def apply (p : PmutexT T) : Op T → PmutexT T
  | .create => pmutexCreate
  | .add owner => pmutexAdd p owner
  | .destroy => pmutexDestroy p

/-- The mutex after a sequence of calls. -/
def after (p : PmutexT T) (ops : List (Op T)) : PmutexT T := ops.foldl apply p

/-- The counter is the number of nodes of either list, every level is 0, and calls of
`lock` stay inside the lists. -/
structure SizeMatches [DecidableEq T] (p : PmutexT T) : Prop where
  matched : Matched p
  level : ∀ nd ∈ p.pnode, nd.level = 0
  lock : LockSafe p

/-- What follows each add of a sequence has a property. -/
def AfterEachAdd (Q : List (Op T) → Prop) (ops : List (Op T)) : Prop :=
  ∀ before owner rest, ops = before ++ .add owner :: rest → Q rest

/-- Every add that a destroy follows is followed by a create as well. -/
def Recreated (ops : List (Op T)) : Prop :=
  AfterEachAdd (fun rest => .destroy ∈ rest → .create ∈ rest) ops

variable {p : PmutexT T} {ops : List (Op T)} {op : Op T}

@[simp] theorem after_append_singleton : after p (ops ++ [op]) = apply (after p ops) op := by
  simp [after]

/-- One more call comes after each add before it, and after none if it is an add. -/
theorem afterEachAdd_append_singleton {Q : List (Op T) → Prop} :
    AfterEachAdd Q (ops ++ [op]) ↔
      AfterEachAdd (fun rest => Q (rest ++ [op])) ops ∧ ∀ owner, op = .add owner → Q [] := by
  constructor
  · intro h
    constructor
    · rintro before owner rest rfl
      exact h before owner (rest ++ [op]) (by simp)
    · rintro owner rfl
      exact h ops owner [] rfl
  · rintro ⟨hbefore, hlast⟩ before owner rest h
    rcases List.eq_nil_or_concat rest with rfl | ⟨rest, op', rfl⟩
    · obtain ⟨-, hop⟩ := List.append_inj' h rfl
      exact hlast owner (List.singleton_inj.mp hop)
    · rw [List.concat_eq_append] at h ⊢
      have hassoc : ops ++ [op] = before ++ .add owner :: rest ++ [op'] := by simpa using h
      obtain ⟨hops, hop⟩ := List.append_inj' hassoc rfl
      rw [← List.singleton_inj.mp hop]
      exact hbefore before owner rest hops

/-- The counter is zero when every thread added has been forgotten by a create. -/
theorem after_size_eq_zero_iff (ops : List (Op T)) (hp : p.size = 0) :
    (after p ops).size = 0 ↔ AfterEachAdd (.create ∈ ·) ops := by
  induction ops using List.reverseRecOn with
  | nil => simpa [after, AfterEachAdd] using hp
  | append_singleton ops op ih =>
    rw [afterEachAdd_append_singleton, after_append_singleton]
    cases op with
    | create => simp [apply, pmutexCreate, AfterEachAdd]
    | add owner => simp [apply, pmutexAdd]
    | destroy => simpa [apply, pmutexDestroy] using ih

/-- The lists have the same length, and each node has level 0. -/
theorem after_lists (ops : List (Op T)) (hp : p = pmutexCreate) :
    (after p ops).onhold.length = (after p ops).pnode.length ∧
      ∀ nd ∈ (after p ops).pnode, nd.level = 0 := by
  induction ops using List.reverseRecOn with
  | nil => simp [after, hp, pmutexCreate]
  | append_singleton ops op ih =>
    rw [after_append_singleton]
    cases op with
    | create | destroy => simp [apply, pmutexCreate, pmutexDestroy]
    | add owner => simpa [apply, pmutexAdd] using ih

/-- The counter is the number of nodes when every add that a destroy follows is
followed by a create as well. -/
theorem after_size_eq_iff (hp : p = pmutexCreate) :
    (after p ops).pnode.length = (after p ops).size ↔ Recreated ops := by
  induction ops using List.reverseRecOn with
  | nil => simp [after, hp, pmutexCreate, Recreated, AfterEachAdd]
  | append_singleton ops op ih =>
    rw [Recreated, afterEachAdd_append_singleton, after_append_singleton]
    cases op with
    | create => simp [apply, pmutexCreate, AfterEachAdd]
    | add owner =>
      rw [Recreated] at ih
      simpa [apply, pmutexAdd] using ih
    | destroy =>
      -- what is left of the counter are the adds since the last create
      have hzero := after_size_eq_zero_iff (p := p) ops (by rw [hp]; rfl)
      simpa [apply, pmutexDestroy, eq_comm] using hzero

/-- After `pmutex_create` and any calls, the counter of a mutex matches its lists, all
levels are 0 and `lock` is safe exactly when every `pmutex_add` that a `pmutex_destroy`
follows is followed by a `pmutex_create` as well. -/
theorem sizeMatches_after_iff [DecidableEq T] (p : PmutexT T) (ops : List (Op T)) :
    SizeMatches (after p (.create :: ops)) ↔ Recreated ops := by
  have hcreate : after p (.create :: ops) = after pmutexCreate ops := rfl
  rw [hcreate, ← after_size_eq_iff rfl]
  constructor
  · intro h
    exact h.matched.pnode
  · intro hsize
    obtain ⟨honhold, hlevel⟩ := after_lists (p := pmutexCreate) ops rfl
    have hmatched : Matched (after pmutexCreate ops) := ⟨hsize, honhold.trans hsize⟩
    exact ⟨hmatched, hlevel, lockSafe_of_matched hmatched⟩

/-- A mutex destroyed and used again for one thread: the counter is 2, and the thread's
scan of level 1 follows a null pointer after the only node. -/
theorem size_left_by_destroy :
    let p := after (⟨0, [], []⟩ : PmutexT ℕ) [.create, .add 5, .destroy, .add 5]
    p.size = 2 ∧ p.pnode.length = 1 ∧ ¬ SizeMatches p ∧
      ∃ s w s', (callers p).initial s ∧ (callers p).Run s w s' ∧
        s'.phase 5 = .inLock (some 0) (.scan 1 1) ∧
        lockStep s'.p (some 0) (.scan 1 1) = none := by
  intro p
  refine ⟨rfl, rfl, fun h => absurd h.matched.pnode (by decide), ?_⟩
  have hinit : (callers p).initial ⟨p, fun _ => .outside⟩ := ⟨rfl, fun _ => rfl⟩
  have h0 := Machine.Run.refl (M := callers p) ⟨p, fun _ => .outside⟩
  have hmem : 5 ∈ p.owners := by decide
  have hstep : ∀ {s w t u}, (callers p).Run s w t → Step t 5 u →
      ∃ w', (callers p).Run s w' u := fun hrun hstep => ⟨_, hrun.snoc ⟨5, hmem, hstep, rfl⟩⟩
  -- the thread becomes the victim of level 1 and skips its own node
  obtain ⟨_, h1⟩ := hstep h0 (.lock rfl)
  obtain ⟨_, h2⟩ := hstep h1 (.search rfl)
  obtain ⟨_, h3⟩ := hstep h2 (.access rfl rfl)
  obtain ⟨_, h4⟩ := hstep h3 (.access rfl rfl)
  obtain ⟨_, h5⟩ := hstep h4 (.access rfl rfl)
  obtain ⟨_, h6⟩ := hstep h5 (.access rfl rfl)
  exact ⟨_, _, _, hinit, h6, rfl, rfl⟩

end Sisop.Pmutex
