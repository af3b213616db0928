import Sisop.SimpleDriver.Basic

/-!
# What is read is what was last written

The driver is meant as a mailbox for one text: a write replaces what is in it, a
successful read takes it out. The driver keeps to this as long as the length it stores
is that of the text in the buffer. A refused write changes the text and not the length,
so a read after it is right only if the two texts happen to be equally long, and a text
that is not refused may still not fit with its suffix.

## Main definitions

* `mailbox` — what the reads should deliver
* `ReadsBack` — the driver delivers what the mailbox does
* `Safe` — the sequences that avoid both defects

## Main results

* `exists_run_iff` — when a sequence delivers the right texts, from any state
* `readsBack_iff` — the exact condition for the driver once loaded
-/

namespace Sisop.SimpleDriver

open Foundations CString

/-- The text that a write is meant to put into the mailbox. -/
def UserText.written (text : UserText) : List Char :=
  if text.chars.length < messageSize then text.accepted else refusedText

/-- What the successful reads of a sequence take out of a mailbox for one text. -/
def mailbox : Option (List Char) → List Op → List (List Char)
  | _, [] => []
  | _, .write text :: ops => mailbox (some text.written) ops
  | unread, .read 0 :: ops => unread.getD [] :: mailbox none ops
  | unread, .read (_ + 1) :: ops => mailbox unread ops

/-- Every write of a sequence has a defined result, the successful reads deliver what the
mailbox does, and a failed read changes nothing. -/
structure ReadsBack (ops : List Op) : Prop where
  delivers : ∃ s, run loaded ops = some (mailbox none ops, s)
  failed : ∀ s errorCount, errorCount ≠ 0 → (devRead s errorCount).state = s

/-- A successful read comes before the next write. -/
def readNext : List Op → Prop
  | [] => False
  | .write _ :: _ => False
  | .read 0 :: _ => True
  | .read (_ + 1) :: ops => readNext ops

/-- With a text of length `unread` not yet read: no write has 243 to 255 characters, and
where a refused write is read back, the text that was unread before it has the length of
the text that the refusal puts in its place. -/
def Safe : ℕ → List Op → Prop
  | _, [] => True
  | unread, .write text :: ops =>
    if text.chars.length < messageSize then
      text.chars.length ≤ 242 ∧ Safe text.accepted.length ops
    else
      (readNext ops → unread = refusedText.length) ∧ Safe unread ops
  | _, .read 0 :: ops => Safe 0 ops
  | unread, .read (_ + 1) :: ops => Safe unread ops

/-- The next successful read delivers what is in the mailbox. -/
def InStep (s : State) (unread : Option (List Char)) : Prop :=
  s.message.toList.take s.sizeOfMessage = unread.getD []

/-- A sequence delivers what the mailbox does if and only if it is safe and a read that
comes before any write finds the driver in step with the mailbox. -/
theorem exists_run_iff (s : State) (unread : Option (List Char)) (ops : List Op) :
    (∃ s', run s ops = some (mailbox unread ops, s')) ↔
      (readNext ops → InStep s unread) ∧ Safe s.sizeOfMessage ops := by
  induction ops generalizing s unread with
  | nil => simp [run, mailbox, readNext, Safe]
  | cons op ops ih =>
    match op with
    | .write text =>
      simp only [run, mailbox, readNext, Safe, false_imp_iff, true_and]
      by_cases haccept : text.chars.length < messageSize
      · rw [if_pos haccept, ← UserText.length_accepted_lt_iff haccept]
        by_cases hfits : text.accepted.length < messageSize
        · obtain ⟨message, hstore, hwrite⟩ := devWrite_accepted (s := s) haccept hfits
          have hinStep : InStep ⟨message, text.accepted.length⟩ (some text.written) := by
            rw [InStep, UserText.written, if_pos haccept]
            exact (take_store_eq_iff hstore).mpr rfl
          rw [hwrite, Option.bind_some, ih]
          simp [hinStep, hfits]
        · -- neither side holds when the text runs over the end
          rw [devWrite_overrun haccept (not_lt.mp hfits)]
          simp [hfits]
      · obtain ⟨message, hstore, hwrite⟩ := devWrite_refused (s := s) haccept
        -- the old length fits the new text only by coincidence
        have hinStep : InStep ⟨message, s.sizeOfMessage⟩ (some text.written) ↔
            s.sizeOfMessage = refusedText.length := by
          rw [InStep, UserText.written, if_neg haccept]
          exact take_store_eq_iff hstore
        rw [if_neg haccept, hwrite, Option.bind_some, ih, hinStep]
    | .read 0 =>
      have hempty : InStep { s with sizeOfMessage := 0 } none := rfl
      have hnext := ih { s with sizeOfMessage := 0 } none
      simp only [hempty, implies_true, true_and] at hnext
      simp only [run, devRead, mailbox, readNext, Safe, true_imp_iff, ← hnext, if_true,
        Option.toList_some, List.singleton_append, Option.map_eq_some_iff, Prod.exists,
        Prod.mk.injEq, List.cons.injEq]
      constructor
      · rintro ⟨s', out, s'', hrun, ⟨hinStep, rfl⟩, rfl⟩
        exact ⟨hinStep, s'', hrun⟩
      · rintro ⟨hinStep, s', hrun⟩
        exact ⟨s', _, s', hrun, ⟨hinStep, rfl⟩, rfl⟩
    | .read (errorCount + 1) => simpa [run, devRead, mailbox, readNext, Safe] using ih s unread

/-- The driver once loaded delivers what the mailbox does exactly in the safe sequences. -/
theorem readsBack_iff (ops : List Op) : ReadsBack ops ↔ Safe 0 ops := by
  have hloaded : InStep loaded none := rfl
  have hiff := exists_run_iff loaded none ops
  constructor
  · intro h
    exact (hiff.mp h.delivers).2
  · intro h
    refine ⟨hiff.mpr ⟨fun _ => hloaded, h⟩, fun s errorCount hfailed => ?_⟩
    rw [devRead, if_neg hfailed]

/-- A short text, a text of 256 characters, and a successful read. -/
def shortThenLong : List Op := [.write ⟨"hello".toList, by decide⟩,
  .write ⟨List.replicate 256 'a', by decide⟩, .read 0]

/-- The read delivers the refusal followed by the terminator and the tail of the short
text with its suffix. -/
theorem stale_length_read :
    (run loaded shortThenLong).map Prod.fst = some ["(0 letters)\x00ers)".toList] ∧
      mailbox none shortThenLong = ["(0 letters)".toList] ∧ ¬ ReadsBack shortThenLong := by
  have hdiffers : (run loaded shortThenLong).map Prod.fst ≠
      some (mailbox none shortThenLong) := by decide +kernel
  refine ⟨by decide +kernel, by decide +kernel, fun h => ?_⟩
  obtain ⟨s, hrun⟩ := h.delivers
  exact hdiffers (congrArg (Option.map Prod.fst) hrun)

end Sisop.SimpleDriver
