import Mathlib.Data.List.Induction
import Sisop.Foundations.CInt
import Sisop.SimpleDriver.Basic

/-!
# The driver in memory

Neither `sprintf` nor `copy_to_user` knows where `message` ends. Here the memory goes on
after it, a text that is too long is stored over what lies there, and every operation says
how many bytes from the start of `message` on it has touched. As long as none of them lies
after the end, this is the driver with a buffer. The check of the length leaves that to
the user: the suffix and the terminator are not in it.

## Main definitions

* `Memory` — the memory from `message` on, and `size_of_message`
* `Memory.devWrite`, `Memory.devRead` — the two operations
* `Contained` — a sequence of operations stays inside `message`

## Main results

* `contained_iff` — which sequences stay inside `message`
* `Represents.run` — the driver with a buffer is the driver in memory
-/

namespace Sisop.SimpleDriver

open Foundations CString

/-- The memory from the start of `message` on, and `size_of_message`. -/
structure Memory where
  mem : ℕ → Char
  sizeOfMessage : ℤ

/-- What a call of `dev_write` returns, the number of bytes it stores from the start of
`message` on, and what it leaves behind. -/
structure Memory.Wrote where
  ret : ℤ
  stored : ℕ
  state : Memory

/-- `dev_write`. The length of the text is converted to a `short`. -/
def Memory.devWrite (m : Memory) (buffer : List Char) (len : ℕ) : Memory.Wrote :=
  if len < messageSize then
    let text := acceptedText buffer len
    { ret := len
      stored := text.length + 1
      state := {
        mem := write nul m.mem text
        sizeOfMessage := CInt.wrap 16 (length (exists_write_eq_nul nul m.mem text)) } }
  else {
    ret := 0
    stored := refusedText.length + 1
    state := { m with mem := write nul m.mem refusedText } }

/-- What a call of `dev_read` returns, the number of bytes from the start of `message` on
that it has `copy_to_user` copy, what the user gets, and what it leaves behind. -/
structure Memory.Read where
  ret : ℤ
  copied : ℕ
  delivered : Option (List Char)
  state : Memory

/-- `dev_read`. The length is converted to an `unsigned long` of 32 bits. -/
def Memory.devRead (m : Memory) (errorCount : ℕ) : Memory.Read :=
  let copied := (m.sizeOfMessage % 2 ^ 32).toNat
  if errorCount = 0 then {
    ret := 0
    copied
    delivered := some ((List.range copied).map m.mem)
    state := { m with sizeOfMessage := 0 } }
  else { ret := -efault, copied, delivered := none, state := m }

/-- The driver once loaded. What lies after `message` is not its own. -/
def Memory.loaded (beyond : ℕ → Char) : Memory where
  mem a := if a < messageSize then nul else beyond a
  sizeOfMessage := 0

/-- The number of bytes that an operation touches from the start of `message` on. -/
def Memory.touched (m : Memory) : Op → ℕ
  | .write text => (m.devWrite (text.chars ++ [nul]) text.chars.length).stored
  | .read errorCount => (m.devRead errorCount).copied

/-- What an operation leaves behind. -/
def Memory.next (m : Memory) : Op → Memory
  | .write text => (m.devWrite (text.chars ++ [nul]) text.chars.length).state
  | .read errorCount => (m.devRead errorCount).state

/-- What a sequence of operations leaves behind. -/
def Memory.after (m : Memory) (ops : List Op) : Memory := ops.foldl Memory.next m

/-- The texts that the successful reads of a sequence deliver. -/
def Memory.delivered (m : Memory) : List Op → List (List Char)
  | [] => []
  | .write text :: ops => (m.next (.write text)).delivered ops
  | .read errorCount :: ops =>
    (m.devRead errorCount).delivered.toList ++ (m.next (.read errorCount)).delivered ops

/-- Every operation of a sequence touches only bytes of `message`, and in every state on
the way `size_of_message` is at most 255. -/
structure Contained (beyond : ℕ → Char) (ops : List Op) : Prop where
  touched : ∀ before op after, ops = before ++ op :: after →
    ((Memory.loaded beyond).after before).touched op ≤ messageSize
  size : ∀ before after, ops = before ++ after →
    ((Memory.loaded beyond).after before).sizeOfMessage ≤ 255

variable {m : Memory} {s s' : State} {buffer : List Char} {len errorCount : ℕ} {ret : ℤ}
  {text : UserText} {op : Op} {ops : List Op} {beyond : ℕ → Char}

@[simp] theorem Memory.after_append_singleton (m : Memory) (ops : List Op) (op : Op) :
    m.after (ops ++ [op]) = (m.after ops).next op := by
  simp [Memory.after]

/-! ### The length of the text -/

/-- The length of the text that is in `message`. -/
structure Memory.Bounded (m : Memory) : Prop where
  nonneg : 0 ≤ m.sizeOfMessage
  le : m.sizeOfMessage ≤ 255

theorem Memory.bounded_of_eq_zero (h : m.sizeOfMessage = 0) : m.Bounded :=
  ⟨h.ge, by omega⟩

theorem Memory.Bounded.copied (h : m.Bounded) (errorCount : ℕ) :
    (m.devRead errorCount).copied = m.sizeOfMessage.toNat := by
  have hsmall : m.sizeOfMessage % 2 ^ 32 = m.sizeOfMessage :=
    Int.emod_eq_of_lt h.nonneg (by have := h.le; omega)
  rw [Memory.devRead, hsmall]
  split_ifs <;> rfl

/-- The length of a text that a `short` holds is stored as it is. -/
theorem Memory.sizeOfMessage_devWrite (haccept : len < messageSize)
    (hshort : (acceptedText buffer len).length < 2 ^ 15) :
    (m.devWrite buffer len).state.sizeOfMessage = (acceptedText buffer len).length := by
  rw [Memory.devWrite, if_pos haccept]
  simp only [length_write (nul_notMem_acceptedText buffer len)]
  rw [CInt.wrap_eq_self_iff_of_nonneg (by decide) (by omega), CInt.maxVal]
  omega

theorem Memory.sizeOfMessage_next (m : Memory) (haccept : text.chars.length < messageSize)
    (hshort : text.accepted.length < 2 ^ 15) :
    (m.next (.write text)).sizeOfMessage = text.accepted.length :=
  Memory.sizeOfMessage_devWrite haccept hshort

/-! ### What the operations touch -/

/-- A write stays inside `message` when its text has at most 242 characters or is refused. -/
theorem Memory.touched_write_le_iff (m : Memory) (text : UserText) :
    m.touched (.write text) ≤ messageSize ↔
      text.chars.length ≤ 242 ∨ messageSize ≤ text.chars.length := by
  by_cases haccept : text.chars.length < messageSize
  · have hstored : m.touched (.write text) = text.accepted.length + 1 := by
      rw [Memory.touched, Memory.devWrite, if_pos haccept]
      rfl
    rw [hstored, Nat.add_one_le_iff, text.length_accepted_lt_iff haccept]
    omega
  · have hstored : m.touched (.write text) = refusedText.length + 1 := by
      rw [Memory.touched, Memory.devWrite, if_neg haccept]
    rw [hstored]
    exact iff_of_true (by decide) (Or.inr (not_lt.mp haccept))

theorem Memory.Bounded.touched_read (h : m.Bounded) (errorCount : ℕ) :
    m.touched (.read errorCount) ≤ messageSize := by
  rw [Memory.touched, h.copied, messageSize]
  have := h.le
  omega

/-- An operation that stays inside `message` leaves a length of at most 255. -/
theorem Memory.Bounded.next (h : m.Bounded) (hop : m.touched op ≤ messageSize) :
    (m.next op).Bounded := by
  cases op with
  | write text =>
    by_cases haccept : text.chars.length < messageSize
    · have hlength : text.accepted.length + 1 ≤ messageSize := by
        rwa [Memory.touched, Memory.devWrite, if_pos haccept] at hop
      rw [messageSize] at hlength
      have hsize := m.sizeOfMessage_next haccept (by omega)
      exact ⟨by omega, by omega⟩
    · rw [Memory.next, Memory.devWrite, if_neg haccept]
      exact ⟨h.nonneg, h.le⟩
  | read errorCount =>
    rw [Memory.next, Memory.devRead]
    split_ifs
    · exact Memory.bounded_of_eq_zero rfl
    · exact h

/-! ### Sequences of operations -/

/-- Where no write passes the end of `message` the length stays bounded. -/
theorem Memory.Bounded.after (h : m.Bounded)
    (hops : ∀ text, Op.write text ∈ ops →
      text.chars.length ≤ 242 ∨ messageSize ≤ text.chars.length) :
    (m.after ops).Bounded := by
  induction ops using List.reverseRecOn with
  | nil => exact h
  | append_singleton ops op ih =>
    have hbefore := ih fun text htext => hops text (List.mem_append_left _ htext)
    rw [Memory.after_append_singleton]
    apply hbefore.next
    cases op with
    | write text => exact (Memory.touched_write_le_iff _ text).mpr (hops text (by simp))
    | read errorCount => exact hbefore.touched_read errorCount

/-- A sequence stays inside `message` if and only if no text that it writes has 243 to 255
characters. -/
theorem contained_iff (beyond : ℕ → Char) (ops : List Op) : Contained beyond ops ↔
    ∀ text, Op.write text ∈ ops →
      text.chars.length ≤ 242 ∨ messageSize ≤ text.chars.length := by
  constructor
  · intro h text htext
    obtain ⟨before, after, rfl⟩ := List.append_of_mem htext
    exact (Memory.touched_write_le_iff _ text).mp (h.touched before _ after rfl)
  · intro h
    have hbounded : ∀ before after, ops = before ++ after →
        ((Memory.loaded beyond).after before).Bounded := by
      rintro before after rfl
      exact (Memory.bounded_of_eq_zero rfl).after fun text htext =>
        h text (List.mem_append_left _ htext)
    refine ⟨fun before op after hops => ?_, fun before after hops => (hbounded _ _ hops).le⟩
    cases op with
    | write text =>
      exact (Memory.touched_write_le_iff _ text).mpr (h text (by simp [hops]))
    | read errorCount => exact (hbounded _ _ hops).touched_read errorCount

/-- A text of 243 characters, with what lies after `message`. -/
theorem overrun_one_byte :
    let text : UserText := ⟨List.replicate 243 'a', by decide +kernel⟩
    let beyond : ℕ → Char := fun _ => 'x'
    (Memory.loaded beyond).touched (.write text) = 257 ∧
      (Memory.loaded beyond).mem 256 = 'x' ∧
      ((Memory.loaded beyond).next (.write text)).mem 256 = nul ∧
      ((Memory.loaded beyond).next (.write text)).sizeOfMessage = 256 ∧
      ¬ Contained beyond [.write text] := by
  intro text beyond
  have haccept : text.chars.length < messageSize := by decide +kernel
  have hlength : text.accepted.length = 256 := by decide +kernel
  refine ⟨by decide +kernel, by decide, by decide +kernel, ?_, fun h => ?_⟩
  · rw [Memory.sizeOfMessage_next _ haccept (by omega), hlength]
    rfl
  · have hsize := h.touched [] (.write text) [] rfl
    exact absurd hsize (by decide +kernel)

/-! ### The driver with a buffer -/

/-- The state of the driver with a buffer, seen in memory. -/
structure Represents (m : Memory) (s : State) : Prop where
  message : Agrees m.mem s.message
  size : m.sizeOfMessage = s.sizeOfMessage
  bounded : m.Bounded

theorem represents_loaded (beyond : ℕ → Char) : Represents (.loaded beyond) loaded where
  message a ha := by
    have hnul : (Memory.loaded beyond).mem a = nul := if_pos ha
    have hempty : loaded.message.toList = List.replicate messageSize nul := rfl
    rw [hnul, hempty, List.getElem?_replicate_of_lt ha]
  size := rfl
  bounded := Memory.bounded_of_eq_zero rfl

/-- A write that has a result in the buffer has the same one in memory. -/
theorem Represents.devWrite (h : Represents m s)
    (hwrite : SimpleDriver.devWrite s buffer len = some (ret, s')) :
    (m.devWrite buffer len).ret = ret ∧ Represents (m.devWrite buffer len).state s' := by
  rw [SimpleDriver.devWrite] at hwrite
  by_cases haccept : len < messageSize
  · rw [if_pos haccept, Option.map_eq_some_iff] at hwrite
    obtain ⟨message, hstore, heq⟩ := hwrite
    obtain ⟨rfl, rfl⟩ := Prod.mk.inj heq
    have hfits := (toList_of_store hstore).1
    rw [messageSize] at hfits
    have hsize : (m.devWrite buffer len).state.sizeOfMessage = (acceptedText buffer len).length :=
      Memory.sizeOfMessage_devWrite haccept (by omega)
    rw [Memory.devWrite, if_pos haccept] at hsize ⊢
    refine ⟨rfl, h.message.write hstore, ?_, ?_⟩
    · rw [hsize, strlen_store (nul_notMem_acceptedText buffer len) hstore]
    · exact ⟨by rw [hsize]; omega, by rw [hsize]; omega⟩
  · rw [if_neg haccept, Option.map_eq_some_iff] at hwrite
    obtain ⟨message, hstore, heq⟩ := hwrite
    obtain ⟨rfl, rfl⟩ := Prod.mk.inj heq
    rw [Memory.devWrite, if_neg haccept]
    exact ⟨rfl, h.message.write hstore, h.size, ⟨h.bounded.nonneg, h.bounded.le⟩⟩

theorem Represents.devRead (h : Represents m s) (errorCount : ℕ) :
    (m.devRead errorCount).ret = (SimpleDriver.devRead s errorCount).ret ∧
      (m.devRead errorCount).delivered = (SimpleDriver.devRead s errorCount).delivered ∧
      Represents (m.devRead errorCount).state (SimpleDriver.devRead s errorCount).state := by
  have hcopied : (m.sizeOfMessage % 2 ^ 32).toNat = s.sizeOfMessage := by
    have := h.bounded.le
    have := h.size
    omega
  rw [Memory.devRead, SimpleDriver.devRead, hcopied]
  split_ifs
  · have hle : s.sizeOfMessage ≤ messageSize := by
      have := h.bounded.le
      have := h.size
      rw [messageSize]
      omega
    exact ⟨rfl, congrArg some (h.message.take hle).symm, h.message, rfl,
      Memory.bounded_of_eq_zero rfl⟩
  · exact ⟨rfl, rfl, h⟩

/-- As long as no write runs over the end of `message`, the driver in memory delivers what
the driver with a buffer does. -/
theorem Represents.run {out : List (List Char)} (h : Represents m s)
    (hrun : SimpleDriver.run s ops = some (out, s')) :
    m.delivered ops = out ∧ Represents (m.after ops) s' := by
  induction ops generalizing m s out with
  | nil =>
    obtain ⟨rfl, rfl⟩ := Prod.mk.inj (Option.some.inj hrun)
    exact ⟨rfl, h⟩
  | cons op ops ih =>
    cases op with
    | write text =>
      obtain ⟨⟨ret, s₁⟩, hwrite, hrest⟩ := Option.bind_eq_some_iff.mp hrun
      exact ih (h.devWrite hwrite).2 hrest
    | read errorCount =>
      obtain ⟨⟨rest, s₁⟩, hrest, heq⟩ := Option.map_eq_some_iff.mp hrun
      obtain ⟨rfl, rfl⟩ := Prod.mk.inj heq
      obtain ⟨-, hdelivered, hnext⟩ := h.devRead errorCount
      obtain ⟨hout, hafter⟩ := ih hnext hrest
      exact ⟨by rw [Memory.delivered, hdelivered]; exact congrArg _ hout, hafter⟩

end Sisop.SimpleDriver
