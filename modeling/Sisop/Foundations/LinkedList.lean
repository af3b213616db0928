import Mathlib.Data.List.Nodup
import Mathlib.Data.Set.Basic

/-!
# Linked lists in a memory of blocks

A memory is a partial map from addresses to blocks. Some of its blocks are cells of
linked lists: they hold a link, which is an address or the null pointer. A pointer heads
a list when the links lead from it to the null pointer; the cells on the way stay the
cells of the list as long as none of their links is stored to.

A loop that takes a list apart frees what belongs to a cell and goes on with the link
that the cell had. If no block belongs to two cells, it frees every block once.

## Main definitions

* `Blocks`, `Blocks.fill`, `Blocks.free` — a memory, with allocation and deallocation
* `Chain` — the cells of the list that a pointer heads
* `freeLoop` — a loop that takes a list apart

## Main results

* `chain_iff` — a list by the positions of its cells
* `Chain.congr` — what the cells of a list depend on
* `freeLoop_of_chain` — the loop ends and has freed every block once
-/

namespace Sisop.Foundations

/-- The blocks of a memory, by their addresses. -/
abbrev Blocks (A B : Type*) := A → Option B

variable {A B : Type*}

namespace Blocks

variable [DecidableEq A] {m : Blocks A B} {a c : A} {b : B} {gone gone' : List A}

/-- Allocate a block at an address and fill it, or store to a block that is there. -/
def fill (m : Blocks A B) (a : A) (b : B) : Blocks A B := Function.update m a (some b)

/-- Free a block, which has to be there. -/
def free (m : Blocks A B) (a : A) : Option (Blocks A B) :=
  if (m a).isSome then some (Function.update m a none) else none

/-- The memory without some of its blocks. -/
def without (m : Blocks A B) (gone : List A) : Blocks A B :=
  fun a => if a ∈ gone then none else m a

@[simp] theorem fill_self : m.fill a b a = some b := Function.update_self ..

theorem fill_of_ne (h : c ≠ a) : m.fill a b c = m c := Function.update_of_ne h ..

theorem without_of_notMem (h : a ∉ gone) : m.without gone a = m a := if_neg h

@[simp] theorem without_nil : m.without [] = m := by
  funext a
  simp [without]

/-- Storing to a block that is freed next makes no difference. -/
theorem free_fill (hb : (m a).isSome) : (m.fill a b).free a = m.free a := by
  rw [free, free, fill_self, Option.isSome_some, if_pos rfl, if_pos hb, fill,
    Function.update_idem]

theorem without_without : (m.without gone).without gone' = m.without (gone ++ gone') := by
  funext a
  by_cases h : a ∈ gone' <;> simp [without, h]

/-- A block that has not been freed can be freed. -/
theorem free_without (hb : (m a).isSome) (ha : a ∉ gone) :
    (m.without gone).free a = some (m.without (gone ++ [a])) := by
  rw [free, without_of_notMem ha, if_pos hb]
  congr 1
  funext c
  by_cases hc : c = a
  · subst hc
    simp [without]
  · rw [Function.update_of_ne hc]
    simp [without, hc]

end Blocks

/-! ### Lists -/

/-- The links lead from a pointer through the cells of a list to the null pointer. -/
def Chain (next : A → Option (Option A)) : Option A → List A → Prop
  | p, [] => p = none
  | p, a :: l => p = some a ∧ ∃ q, next a = some q ∧ Chain next q l

variable {next next' : A → Option (Option A)} {p q : Option A} {l l' : List A} {a : A} {k : ℕ}

/-- The cell at a position is the one that the link of the cell before it leads to. -/
theorem chain_iff : Chain next p l ↔
    p = l[0]? ∧ ∀ k a, l[k]? = some a → next a = some l[k + 1]? := by
  induction l generalizing p with
  | nil => simp [Chain]
  | cons a l ih =>
    simp only [Chain, ih]
    constructor
    · rintro ⟨rfl, q, hnext, rfl, hrest⟩
      refine ⟨rfl, fun k b hb => ?_⟩
      cases k with
      | zero =>
        obtain rfl : a = b := by simpa using hb
        simpa using hnext
      | succ k => exact hrest k b hb
    · rintro ⟨rfl, hall⟩
      exact ⟨rfl, l[0]?, by simpa using hall 0 a rfl, rfl, fun k b hb => hall (k + 1) b hb⟩

namespace Chain

theorem head_eq (h : Chain next p l) : p = l[0]? := (chain_iff.mp h).1

theorem next_eq (h : Chain next p l) (hk : l[k]? = some a) : next a = some l[k + 1]? :=
  (chain_iff.mp h).2 k a hk

theorem push (h : Chain next p l) (ha : next a = some p) : Chain next (some a) (a :: l) :=
  ⟨rfl, p, ha, h⟩

/-- A list depends on the links of its cells only. -/
theorem congr (h : Chain next p l) (heq : ∀ a ∈ l, next' a = next a) : Chain next' p l := by
  rw [chain_iff] at h ⊢
  exact ⟨h.1, fun k a hk => (heq a (List.mem_of_getElem? hk)).trans (h.2 k a hk)⟩

end Chain

/-! ### Taking a list apart -/

/-- `while (p != NULL)` over what one turn does to the cell at `p`: it gives the next
pointer and the memory, or is undefined. There is no result if a turn is undefined or the
loop is still running after `fuel` tests. -/
def freeLoop (turn : Blocks A B → A → Option (Option A × Blocks A B)) :
    ℕ → Blocks A B → Option A → Option (Blocks A B)
  | 0, _, _ => none
  | _ + 1, m, none => some m
  | fuel + 1, m, some a => (turn m a).bind fun after => freeLoop turn fuel after.2 after.1

variable [DecidableEq A] {m : Blocks A B}

/-- If no block belongs to two cells, and a turn that finds the blocks of its cell frees
them, the loop frees all of them and ends. -/
theorem freeLoop_of_chain {C : Type*} {cells : List C} {cell : C → A} (owned : C → List A)
    (turn : Blocks A B → A → Option (Option A × Blocks A B))
    (hchain : Chain next p (cells.map cell)) (hnodup : (cells.flatMap owned).Nodup)
    (hturn : ∀ c ∈ cells, ∀ q, next (cell c) = some q → ∀ gone : List A,
      (∀ a ∈ owned c, a ∉ gone) →
        turn (m.without gone) (cell c) = some (q, m.without (gone ++ owned c))) (fuel : ℕ) :
    freeLoop turn fuel m p =
      if fuel ≤ cells.length then none else some (m.without (cells.flatMap owned)) := by
  have hgone : ∀ gone : List A, (∀ a ∈ cells.flatMap owned, a ∉ gone) →
      freeLoop turn fuel (m.without gone) p = if fuel ≤ cells.length then none else
        some (m.without (gone ++ cells.flatMap owned)) := by
    induction cells generalizing p fuel with
    | nil =>
      obtain rfl := hchain
      intro gone _
      cases fuel <;> simp [freeLoop]
    | cons c cells ih =>
      obtain ⟨rfl, q, hq, hrest⟩ := hchain
      rw [List.flatMap_cons, List.nodup_append] at hnodup
      intro gone hfresh
      have hown : ∀ a ∈ owned c, a ∉ gone := fun a ha => hfresh a (by simp [ha])
      cases fuel with
      | zero => simp [freeLoop]
      | succ fuel =>
        rw [freeLoop, hturn c (by simp) q hq gone hown, Option.bind_some,
          ih hrest hnodup.2.1 (fun d hd => hturn d (List.mem_cons_of_mem c hd)) fuel
            (gone ++ owned c) ?_]
        · simp only [List.length_cons, Nat.add_le_add_iff_right, List.flatMap_cons,
            List.append_assoc]
        · -- the blocks of the later cells are none of those just freed
          intro a ha hmem
          rcases List.mem_append.mp hmem with hmem | hmem
          · exact hfresh a (List.mem_append_right _ ha) hmem
          · exact hnodup.2.2 a hmem a ha rfl
  simpa using hgone [] (by simp)

end Sisop.Foundations
