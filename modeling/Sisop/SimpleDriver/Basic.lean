import Sisop.Foundations.CString

/-!
# The simple character driver

A write formats the user's text into the buffer `message` and stores its length in
`size_of_message`. A read hands that many characters to the user and clears the length.
A write of as many characters as the buffer has is refused: it puts a fixed text into
the buffer. `sprintf` does not know the size of the buffer, so a text that does not fit
has no defined result. The length of a text in the buffer is less than 256, which a
`short` holds.

## Main definitions

* `devWrite`, `devRead` — the two operations
* `run` — a sequence of operations and the texts its reads deliver
-/

namespace Sisop.SimpleDriver

open Foundations CString

/-- `sizeof(message)`. -/
def messageSize : ℕ := 256

/-- `EFAULT`. -/
def efault : ℤ := 14

/-- `message` and `size_of_message`. -/
structure State where
  message : List.Vector Char messageSize
  sizeOfMessage : ℕ

/-- The driver once loaded. -/
def loaded : State where
  message := List.Vector.replicate messageSize nul
  sizeOfMessage := 0

/-- `"%s(%zu letters)"`. -/
def acceptedText (buffer : List Char) (len : ℕ) : List Char :=
  cString nul buffer ++ '(' :: Nat.toDigits 10 len ++ " letters)".toList

/-- `"(0 letters)"`. -/
def refusedText : List Char := "(0 letters)".toList

/-- `dev_write`: its result and what it leaves behind, unless `sprintf` runs over the end
of `message`. -/
def devWrite (s : State) (buffer : List Char) (len : ℕ) : Option (ℤ × State) :=
  -- the suffix is not counted here
  if len < messageSize then
    (store nul s.message (acceptedText buffer len)).map fun message =>
      (len, { message, sizeOfMessage := strlen nul message.toList })
  -- `size_of_message` is left as it was
  else
    (store nul s.message refusedText).map fun message => (0, { s with message })

/-- What a call of `dev_read` returns, copies to the user, and leaves behind. -/
structure Read where
  ret : ℤ
  delivered : Option (List Char)
  state : State

/-- `dev_read`, where `copy_to_user` returns `errorCount` and copies everything if that
is zero. -/
def devRead (s : State) (errorCount : ℕ) : Read :=
  if errorCount = 0 then {
    ret := 0
    delivered := some (s.message.toList.take s.sizeOfMessage)
    state := { s with sizeOfMessage := 0 } }
  else { ret := -efault, delivered := none, state := s }

/-! ### Sequences of operations -/

/-- A text that a user writes: a string, which its terminator follows in memory. -/
structure UserText where
  chars : List Char
  nul_notMem : nul ∉ chars

/-- The operations of a user. A write passes the length of its text. -/
inductive Op
  | write (text : UserText)
  | read (errorCount : ℕ)

/-- The texts that the successful reads of a sequence deliver, and the state at the end,
unless a write runs over the end of `message`. -/
def run (s : State) : List Op → Option (List (List Char) × State)
  | [] => some ([], s)
  | .write text :: ops =>
    (devWrite s (text.chars ++ [nul]) text.chars.length).bind fun w => run w.2 ops
  | .read errorCount :: ops =>
    let r := devRead s errorCount
    (run r.state ops).map fun rest => (r.delivered.toList ++ rest.1, rest.2)

/-! ### What the operations do -/

section Operations

variable {s : State} {text : UserText}

/-- The user's text with its suffix. -/
def UserText.accepted (text : UserText) : List Char :=
  acceptedText (text.chars ++ [nul]) text.chars.length

theorem UserText.accepted_eq (text : UserText) : text.accepted =
    text.chars ++ '(' :: Nat.toDigits 10 text.chars.length ++ " letters)".toList := by
  rw [accepted, acceptedText, cString_append_nul text.nul_notMem]

theorem nul_notMem_acceptedText (buffer : List Char) (len : ℕ) :
    nul ∉ acceptedText buffer len := by
  have hdigits : nul ∉ Nat.toDigits 10 len := fun h =>
    absurd (Nat.isDigit_of_mem_toDigits (by decide) (by decide) h) (by decide)
  have hsuffix : nul ∉ " letters)".toList := by decide
  simp only [acceptedText, List.mem_append, List.mem_cons, not_or]
  exact ⟨⟨notMem_cString nul buffer, by decide, hdigits⟩, hsuffix⟩

theorem UserText.nul_notMem_accepted (text : UserText) : nul ∉ text.accepted :=
  nul_notMem_acceptedText _ _

/-- Exactly the texts of at most 242 characters leave room for their suffix and the
terminator, of those that are not refused. -/
theorem UserText.length_accepted_lt_iff (h : text.chars.length < messageSize) :
    text.accepted.length < messageSize ↔ text.chars.length ≤ 242 := by
  have hdigits : ∀ n < 256, n + (Nat.toDigits 10 n).length + 10 < 256 ↔ n ≤ 242 := by
    decide +kernel
  rw [← hdigits _ h, accepted_eq, messageSize]
  simp only [List.length_append, List.length_cons]
  have hsuffix : " letters)".toList.length = 9 := by decide
  omega

/-- A write of fewer than 256 characters that fits stores its text and its length. -/
theorem devWrite_accepted (h : text.chars.length < messageSize)
    (hfits : text.accepted.length < messageSize) : ∃ message,
      store nul s.message text.accepted = some message ∧
      devWrite s (text.chars ++ [nul]) text.chars.length =
        some ((text.chars.length : ℤ), ⟨message, text.accepted.length⟩) := by
  obtain ⟨message, hstore⟩ := exists_store nul s.message hfits
  refine ⟨message, hstore, ?_⟩
  rw [← strlen_store text.nul_notMem_accepted hstore, devWrite, if_pos h, ← UserText.accepted,
    hstore]
  rfl

theorem devWrite_overrun (h : text.chars.length < messageSize)
    (hlong : messageSize ≤ text.accepted.length) :
    devWrite s (text.chars ++ [nul]) text.chars.length = none := by
  rw [devWrite, if_pos h, ← UserText.accepted, store_of_le hlong]
  rfl

/-- A refused write stores the fixed text and keeps the old length. -/
theorem devWrite_refused (h : ¬ text.chars.length < messageSize) : ∃ message,
    store nul s.message refusedText = some message ∧
    devWrite s (text.chars ++ [nul]) text.chars.length =
      some (0, ⟨message, s.sizeOfMessage⟩) := by
  have hfits : refusedText.length < messageSize := by decide
  obtain ⟨message, hstore⟩ := exists_store nul s.message hfits
  refine ⟨message, hstore, ?_⟩
  rw [devWrite, if_neg h, hstore]
  rfl

end Operations

end Sisop.SimpleDriver
