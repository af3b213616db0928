import Mathlib.Algebra.BigOperators.Fin
import Sisop.Foundations.CString
import Sisop.Foundations.RunLength
import Sisop.ThreadRunner.Names

/-!
# `post_processing`

The function walks over the bytes of the buffer. It keeps one copy of each run of equal
bytes in `seq_buff`, which it doubles when it is full, and counts the bytes of each
thread in `th_occurrences`. The two arrays and the buffer are separate objects. An
access to `seq_buff` outside its memory, or a use of memory that has not been written,
is `none`. The counters are a map from every index, so that an increment outside the
array is seen as one.

The capacity of `seq_buff` is an `int` that becomes a `size_t` when memory is asked for,
both of 32 bits. `malloc` and `realloc` are taken to succeed.

## Main definitions

* `Locals` — the variables of the function
* `turn`, `loop` — the loop over the buffer
* `postProcessing` — what the function prints
-/

namespace Sisop.ThreadRunner

open Foundations

/-- The largest `int`. -/
def intMax : ℤ := CInt.maxVal 32

/-- The value of an `int` after a store. -/
def toInt (z : ℤ) : ℤ := CInt.wrap 32 z

/-- The conversion of an `int` to `size_t`. -/
def toSizeT (z : ℤ) : ℕ := (z % 2 ^ 32).toNat

/-- The variables of `post_processing`. A byte of `seqBuff` that has not been written
is `none`. -/
structure Locals where
  thOccurrences : ℤ → ℤ
  j : ℕ
  seqBuffSize : ℤ
  seqBuff : List (Option ℤ)

/-- The variables before the loop. -/
def Locals.start (threadNumber : ℤ) : Locals where
  thOccurrences _ := 0
  j := 0
  seqBuffSize := threadNumber
  seqBuff := (List.replicate (toSizeT threadNumber) none).set 0 (some 0)

/-- `realloc`: what fits of the old contents is kept. -/
def realloc (mem : List (Option ℤ)) (size : ℕ) : List (Option ℤ) :=
  mem.take size ++ List.replicate (size - mem.length) none

/-- The condition `j == 0 || seq_buff[j-1] != *curr_buff`. -/
def Locals.startsRun (x : Locals) (byte : ℤ) : Option Bool :=
  if x.j = 0 then some true else do
    let stored ← x.seqBuff[x.j - 1]?
    let last ← stored
    some (last ≠ byte)

/-- The doubling of `seq_buff` when it is full. -/
def Locals.grow (x : Locals) : Locals :=
  if (x.j : ℤ) = x.seqBuffSize then
    let seqBuffSize := toInt (x.seqBuffSize * 2)
    { x with
      seqBuffSize := seqBuffSize
      seqBuff := realloc x.seqBuff (toSizeT seqBuffSize) }
  else x

/-- The store `seq_buff[j] = *curr_buff` and `j++`. -/
def Locals.append (x : Locals) (byte : ℤ) : Option Locals :=
  if x.j < x.seqBuff.length then
    some { x with seqBuff := x.seqBuff.set x.j (some byte), j := x.j + 1 }
  else none

/-- The increment of a counter. -/
def Locals.count (x : Locals) (byte : ℤ) : Locals :=
  let i := getThId byte
  { x with thOccurrences := Function.update x.thOccurrences i (toInt (x.thOccurrences i + 1)) }

section Count

variable {x : Locals} {byte : ℤ}

@[simp] theorem count_j : (x.count byte).j = x.j := rfl

@[simp] theorem count_seqBuffSize : (x.count byte).seqBuffSize = x.seqBuffSize := rfl

@[simp] theorem count_seqBuff : (x.count byte).seqBuff = x.seqBuff := rfl

end Count

/-- One turn of the loop, for the byte under `curr_buff`. -/
def turn (x : Locals) (byte : ℤ) : Option Locals := do
  let starts ← x.startsRun byte
  let x ← if starts then x.grow.append byte else some x
  some (x.count byte)

/-- The loop over the bytes before the last one of the buffer. -/
def loop (threadNumber : ℤ) (bytes : List ℤ) : Option Locals :=
  bytes.foldlM turn (.start threadNumber)

/-- What is printed: the buffer as a string, the bytes of `seq_buff` before `j`, and the
name and the count of each thread. -/
structure Printed where
  buffer : List ℤ
  sequence : List (Option ℤ)
  counts : List (ℤ × ℤ)
  deriving DecidableEq

/-- `post_processing`, for a buffer of the given bytes and a terminator. -/
def postProcessing (threadNumber : ℤ) (bytes : List ℤ) : Option Printed := do
  let x ← loop threadNumber bytes
  some {
    buffer := CString.cString 0 (bytes ++ [0])
    sequence := x.seqBuff.take x.j
    counts := (List.range threadNumber.toNat).map fun i : ℕ =>
      (getThName i, x.thOccurrences i) }

end Sisop.ThreadRunner
