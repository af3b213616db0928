import Sisop.Foundations.Decimal
import Sisop.Foundations.Strtok
import Sisop.ThreadRunner.Basic

/-!
# The list arguments

`main` reads `argv[3]` into `policies` and `argv[4]` into `priorities`. Both are lists
`t,q,t,q,...` of a thread and a value for it. One statement of the loop stores a value:

    policies[atoi(policies_buff)] = get_sched_id((policies_buff = strtok(NULL,delim_0)));

Its left side reads the variable that its right side assigns, and the compiler chooses
which of the two is evaluated first. Everything below is for either `Order`. A call with
a null pointer and a store outside the array are faults.

## Main definitions

* `getSchedId` — `get_sched_id`
* `assign`, `readPairs` — the assignment and the loop around it
* `parseList`, `parseLists` — one argument, and both
-/

namespace Sisop.ThreadRunner

open Foundations Decimal Strtok

/-- `atoi`, with an `int` of 32 bits. -/
abbrev Atoi32 : Type := Atoi 32

/-- `get_sched_id`. -/
def getSchedId (atoi : Atoi32) (policy : List Char) : ℤ :=
  if policy = "SCHED_DEADLINE".toList then 6
  else if policy = "SCHED_FIFO".toList then 1
  else if policy = "SCHED_RR".toList then 2
  else if policy = "SCHED_OTHER".toList then 0
  else if policy = "SCHED_BATCH".toList then 3
  else if policy = "SCHED_IDLE".toList then 5
  else atoi policy

/-- Which operand of the assignment is evaluated first. -/
inductive Order
  | indexFirst
  | indexLast
  deriving DecidableEq

/-- What goes wrong in a loop. -/
inductive Fault
  /-- `atoi` or `get_sched_id` is called with a null pointer. -/
  | nullArgument
  /-- A value is stored outside the array. -/
  | outOfBounds (index : ℤ)
  deriving DecidableEq

/-- The array that is filled, `policies_buff` or `priorities_buff`, and the text at the
cursor of `strtok`. -/
structure Reader where
  arr : List ℤ
  buff : Option (List Char)
  rest : List Char
  deriving DecidableEq

/-- The delimiter of the lists. -/
def delim0 (c : Char) : Bool := c = ','

/-- `buff = strtok(NULL,delim_0)`. -/
def Reader.next (r : Reader) : Reader :=
  let (token, rest) := strtok delim0 r.rest
  { r with buff := token, rest := rest }

/-- The call of a function with a string. -/
def call (f : List Char → ℤ) : Option (List Char) → Except Fault ℤ
  | some text => .ok (f text)
  | none => .error .nullArgument

/-- The store of a value at an index. -/
def Reader.store (r : Reader) (index value : ℤ) : Except Fault Reader :=
  if 0 ≤ index ∧ index < r.arr.length then
    .ok { r with arr := r.arr.set index.toNat value }
  else .error (.outOfBounds index)

/-- The assignment in the loop. The function `decode` is `get_sched_id` or `atoi`. -/
def assign (atoi : Atoi32) (decode : List Char → ℤ) (r : Reader) :
    Order → Except Fault Reader
  | .indexFirst => do
    let index ← call atoi r.buff
    let r := r.next
    let value ← call decode r.buff
    r.store index value
  | .indexLast => do
    let r := r.next
    let value ← call decode r.buff
    let index ← call atoi r.buff
    r.store index value

/-- The body of the loop. -/
def readPair (atoi : Atoi32) (decode : List Char → ℤ) (order : Order) (r : Reader) :
    Except Fault Reader := do
  let r ← assign atoi decode r order
  return r.next

/-- The loop, with at most `fuel` tests of its condition: the array it leaves or the fault
it runs into, or nothing when it is still running. -/
def readPairs (atoi : Atoi32) (decode : List Char → ℤ) (order : Order) :
    ℕ → Reader → Option (Except Fault (List ℤ))
  | 0, _ => none
  | fuel + 1, r =>
    if r.buff = none then some (.ok r.arr)
    else
      match readPair atoi decode order r with
      | .ok r => readPairs atoi decode order fuel r
      | .error fault => some (.error fault)

/-- The state before the loop: `calloc` has zeroed the array, and `strtok` has been called
with the argument. -/
def Reader.start (threadNumber : ℕ) (argument : List Char) : Reader :=
  Reader.next { arr := List.replicate threadNumber 0, buff := none, rest := argument }

/-- One list argument, read into its array. -/
def parseList (atoi : Atoi32) (decode : List Char → ℤ) (order : Order) (fuel threadNumber : ℕ)
    (argument : List Char) : Option (Except Fault (List ℤ)) :=
  readPairs atoi decode order fuel (.start threadNumber argument)

/-- Both list arguments: `policies` and then `priorities`. -/
def parseLists (atoi : Atoi32) (order : Order) (fuel threadNumber : ℕ)
    (argv3 argv4 : List Char) : Option (Except Fault (List ℤ × List ℤ)) :=
  match parseList atoi (getSchedId atoi) order fuel threadNumber argv3 with
  | none => none
  | some (.error fault) => some (.error fault)
  | some (.ok policies) =>
    match parseList atoi atoi order fuel threadNumber argv4 with
    | none => none
    | some (.error fault) => some (.error fault)
    | some (.ok priorities) => some (.ok (policies, priorities))

end Sisop.ThreadRunner
