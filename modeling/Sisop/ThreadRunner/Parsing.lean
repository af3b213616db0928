import Mathlib.Algebra.Group.Nat.Even
import Mathlib.Data.List.Induction
import Sisop.ThreadRunner.Arguments

/-!
# Reading the list arguments

The loop uses up the pieces of an argument two at a time, and whether it runs into a
fault depends on the pieces alone: an odd one at the end is followed by a null pointer,
and each pair names the index it is stored at.

## Main definitions

* `readTokens` — the loop on a list of pieces
* `WellFormed` — the arguments without faults
* `FilledBy` — an array as a map from ids to the last value given

## Main results

* `readPairs_eq` — the loop is `readTokens`
* `parseLists_filledBy` — well-formed lists are read as maps
* `parseLists_no_fault_iff` — which arguments run into no fault
-/

namespace Sisop.ThreadRunner

open Foundations Decimal Strtok

variable {atoi : Atoi32} {decode : List Char → ℤ} {order : Order} {fuel N : ℕ}
  {argument argv3 argv4 : List Char} {tokens : List (List Char)} {r : Reader} {arr : List ℤ}

/-- The piece of a pair that names the index. -/
def Order.index {α : Type*} (order : Order) (p : α × α) : α :=
  match order with
  | .indexFirst => p.1
  | .indexLast => p.2

/-- The loop on the pieces of the argument. -/
def readTokens (atoi : Atoi32) (decode : List Char → ℤ) (order : Order) :
    List ℤ → List (List Char) → Except Fault (List ℤ)
  | arr, [] => .ok arr
  | _, [_] => .error .nullArgument
  | arr, t :: q :: tokens =>
    let index := atoi (order.index (t, q))
    if 0 ≤ index ∧ index < arr.length then
      readTokens atoi decode order (arr.set index.toNat (decode q)) tokens
    else .error (.outOfBounds index)

/-! ### The loop and the pieces -/

/-- The pieces that a reader has before it. -/
structure Reader.Holds (r : Reader) (tokens : List (List Char)) : Prop where
  buff : r.buff = tokens.head?
  rest : Text.fields delim0 r.rest = tokens.tail

theorem Reader.holds_next (r : Reader) : r.next.Holds (Text.fields delim0 r.rest) where
  buff := strtok_fst delim0 r.rest
  rest := fields_strtok_snd delim0 r.rest

theorem Reader.Holds.next (h : r.Holds tokens) : r.next.Holds tokens.tail :=
  h.rest ▸ r.holds_next

/-- The assignment on the last piece of an odd number. -/
theorem Reader.Holds.readPair_singleton {t : List Char} (h : r.Holds [t]) :
    readPair atoi decode order r = .error .nullArgument := by
  have hnext : r.next.buff = none := h.next.buff
  cases order with
  | indexFirst => simp [readPair, assign, h.buff, hnext, call, bind, Except.bind]
  | indexLast => simp [readPair, assign, hnext, call, bind, Except.bind]

/-- One turn of the loop on a pair of pieces. -/
theorem Reader.Holds.readPair_cons_cons {t q : List Char} (h : r.Holds (t :: q :: tokens))
    (atoi : Atoi32) (decode : List Char → ℤ) (order : Order) :
    let index := atoi (order.index (t, q))
    (0 ≤ index ∧ index < r.arr.length → ∃ r', readPair atoi decode order r = .ok r' ∧
      r'.arr = r.arr.set index.toNat (decode q) ∧ r'.Holds tokens) ∧
    (¬ (0 ≤ index ∧ index < r.arr.length) →
      readPair atoi decode order r = .error (.outOfBounds index)) := by
  intro index
  have hbuff : r.next.buff = some q := h.next.buff
  have harr : r.next.arr = r.arr := rfl
  have hassign : assign atoi decode r order = r.next.store index (decode q) := by
    cases order with
    | indexFirst => simp [assign, h.buff, hbuff, call, bind, Except.bind, index, Order.index]
    | indexLast => simp [assign, hbuff, call, bind, Except.bind, index, Order.index]
  constructor
  · intro hindex
    refine ⟨{ r.next with arr := r.arr.set index.toNat (decode q) }.next, ?_, rfl, ?_⟩
    · rw [readPair, hassign, Reader.store, harr, if_pos hindex]
      rfl
    · -- the cursor does not depend on the array
      exact ⟨h.next.next.buff, h.next.next.rest⟩
  · intro hindex
    rw [readPair, hassign, Reader.store, harr, if_neg hindex]
    rfl

/-- The loop does to the array what `readTokens` does, unless it has to stop before it
has used up the pieces. -/
theorem readPairs_eq (h : r.Holds tokens) :
    readPairs atoi decode order fuel r = some (readTokens atoi decode order r.arr tokens) ∨
      readPairs atoi decode order fuel r = none ∧ 2 * fuel ≤ tokens.length := by
  induction fuel generalizing r tokens with
  | zero => exact Or.inr ⟨rfl, Nat.zero_le _⟩
  | succ fuel ih =>
    rw [readPairs]
    match tokens, h with
    | [], h =>
      left
      have hnone : r.buff = none := h.buff
      rw [if_pos hnone, readTokens]
    | [t], h =>
      left
      rw [if_neg (by simp [h.buff]), h.readPair_singleton, readTokens]
    | t :: q :: tokens, h =>
      obtain ⟨hin, hout⟩ := h.readPair_cons_cons atoi decode order
      rw [if_neg (by simp [h.buff]), readTokens]
      by_cases hindex : 0 ≤ atoi (order.index (t, q)) ∧ atoi (order.index (t, q)) < r.arr.length
      · obtain ⟨r', hread, harr, hholds⟩ := hin hindex
        rw [if_pos hindex, hread, ← harr]
        refine (ih hholds).imp id fun ⟨hnone, hle⟩ => ⟨hnone, ?_⟩
        simp only [List.length_cons]
        omega
      · left
        rw [if_neg hindex, hout hindex]

/-- One argument is read by its pieces. -/
theorem parseList_eq (atoi : Atoi32) (decode : List Char → ℤ) (order : Order) (fuel N : ℕ)
    (argument : List Char) :
    parseList atoi decode order fuel N argument =
        some (readTokens atoi decode order (List.replicate N 0) (Text.fields delim0 argument)) ∨
      parseList atoi decode order fuel N argument = none ∧
        2 * fuel ≤ (Text.fields delim0 argument).length :=
  readPairs_eq (Reader.holds_next _)

/-! ### Lists of pairs -/

section Fill

variable {P : Type*} {index value : P → ℤ} {pairs before after : List P} {p : P} {i : ℤ}

/-- The value last given for an id, or 0. -/
def lastValue (index value : P → ℤ) (pairs : List P) (i : ℤ) : ℤ :=
  ((pairs.filter (index · = i)).getLast?.map value).getD 0

/-- The last pair for an id is the one that no other for that id follows. -/
theorem lastValue_append_cons (hafter : ∀ p' ∈ after, index p' ≠ index p) :
    lastValue index value (before ++ p :: after) (index p) = value p := by
  have hnil : after.filter (index · = index p) = [] := by simpa using hafter
  rw [lastValue, List.filter_append, List.filter_cons_of_pos (by simp), hnil,
    List.getLast?_concat]
  rfl

theorem lastValue_eq_zero (h : ∀ p ∈ pairs, index p ≠ i) :
    lastValue index value pairs i = 0 := by
  have hnil : pairs.filter (index · = i) = [] := by simpa using h
  rw [lastValue, hnil]
  rfl

theorem lastValue_append_singleton_of_ne (h : index p ≠ i) :
    lastValue index value (pairs ++ [p]) i = lastValue index value pairs i := by
  rw [lastValue, lastValue, List.filter_append, List.filter_cons_of_neg (by simpa using h),
    List.filter_nil, List.append_nil]

/-- The value last given for an id that is named. -/
theorem exists_lastValue_eq (value : P → ℤ) (h : ∃ p ∈ pairs, index p = i) :
    ∃ p ∈ pairs, index p = i ∧ lastValue index value pairs i = value p := by
  obtain ⟨p₀, hp₀, hi₀⟩ := h
  cases hlast : (pairs.filter (index · = i)).getLast? with
  | none =>
    rw [List.getLast?_eq_none_iff, List.filter_eq_nil_iff] at hlast
    exact absurd hi₀ (by simpa using hlast p₀ hp₀)
  | some p =>
    have hmem := List.mem_filter.mp (List.mem_of_getLast? hlast)
    exact ⟨p, hmem.1, by simpa using hmem.2, by rw [lastValue, hlast]; rfl⟩

/-- The stores for a list of pairs, in order. -/
def fill (index value : P → ℤ) (arr : List ℤ) (pairs : List P) : List ℤ :=
  pairs.foldl (fun arr p => arr.set (index p).toNat (value p)) arr

@[simp] theorem fill_append_singleton : fill index value arr (pairs ++ [p]) =
    (fill index value arr pairs).set (index p).toNat (value p) := by
  simp [fill]

@[simp] theorem length_fill : (fill index value arr pairs).length = arr.length := by
  induction pairs using List.reverseRecOn with
  | nil => rfl
  | append_singleton pairs p ih => simp [ih]

/-- Stores inside an array of zeros leave the value last given for each id. -/
theorem getElem?_fill (value : P → ℤ) (hrange : ∀ p ∈ pairs, 0 ≤ index p ∧ index p < N) {i : ℕ}
    (hi : i < N) :
    (fill index value (List.replicate N 0) pairs)[i]? =
      some (lastValue index value pairs i) := by
  induction pairs using List.reverseRecOn with
  | nil => simp [fill, lastValue, hi]
  | append_singleton pairs p ih =>
    have hp := hrange p (by simp)
    have ih := ih fun p hp => hrange p (List.mem_append_left _ hp)
    rw [fill_append_singleton]
    by_cases hip : index p = i
    · have hlast : lastValue index value (pairs ++ [p]) (index p) = value p :=
        lastValue_append_cons (by simp)
      rw [← hip, hlast, hip, Int.toNat_natCast,
        List.getElem?_set_self (by rw [length_fill, List.length_replicate]; exact hi)]
    · rw [List.getElem?_set_ne (by omega), ih, lastValue_append_singleton_of_ne hip]

/-- An array of `N` entries that holds the value last given for each id, and 0 for an id
that is not named. -/
structure FilledBy (index value : P → ℤ) (N : ℕ) (pairs : List P) (arr : List ℤ) : Prop where
  length : arr.length = N
  last : ∀ before p after, pairs = before ++ p :: after →
    (∀ p' ∈ after, index p' ≠ index p) → arr[(index p).toNat]? = some (value p)
  missing : ∀ i < N, (∀ p ∈ pairs, index p ≠ i) → arr[i]? = some 0

theorem filledBy_fill (hrange : ∀ p ∈ pairs, 0 ≤ index p ∧ index p < N) :
    FilledBy index value N pairs (fill index value (List.replicate N 0) pairs) where
  length := by rw [length_fill, List.length_replicate]
  last := by
    rintro before p after rfl hafter
    obtain ⟨h0, hN⟩ := hrange p (by simp)
    rw [getElem?_fill value hrange (by omega), Int.toNat_of_nonneg h0, lastValue_append_cons hafter]
  missing i hi hnone := by rw [getElem?_fill value hrange hi, lastValue_eq_zero hnone]

end Fill

/-! ### Well-formed lists -/

/-- The pieces of a list of pairs. -/
def pieces {α : Type*} (pairs : List (α × α)) : List α := pairs.flatMap fun p => [p.1, p.2]

variable {pairs pairs3 pairs4 : List (List Char × List Char)}

theorem pieces_cons {α : Type*} (p : α × α) (pairs : List (α × α)) :
    pieces (p :: pairs) = p.1 :: p.2 :: pieces pairs := by
  simp [pieces]

theorem length_pieces {α : Type*} (pairs : List (α × α)) :
    (pieces pairs).length = 2 * pairs.length := by
  rw [pieces, List.length_flatMap]
  simp [mul_comm]

/-- Pairs with all indices inside the array are stored in order. -/
theorem readTokens_pieces
    (hrange : ∀ p ∈ pairs, 0 ≤ atoi (order.index p) ∧ atoi (order.index p) < arr.length) :
    readTokens atoi decode order arr (pieces pairs) =
      .ok (fill (fun p => atoi (order.index p)) (fun p => decode p.2) arr pairs) := by
  induction pairs generalizing arr with
  | nil => rfl
  | cons p pairs ih =>
    rw [List.forall_mem_cons] at hrange
    rw [pieces_cons, readTokens, if_pos hrange.1, ih (by simpa using hrange.2)]
    rfl

/-- One argument is read when its pieces are pairs with indices inside the array. -/
theorem parseList_pieces (order : Order) (hpieces : Text.fields delim0 argument = pieces pairs)
    (hrange : ∀ p ∈ pairs, 0 ≤ atoi (order.index p) ∧ atoi (order.index p) < N)
    (hfuel : pairs.length < fuel) :
    parseList atoi decode order fuel N argument = some (.ok
      (fill (fun p => atoi (order.index p)) (fun p => decode p.2) (List.replicate N 0) pairs)) := by
  rw [← readTokens_pieces (by simpa using hrange), ← hpieces]
  apply (parseList_eq _ _ _ _ _ _).resolve_right
  rw [hpieces, length_pieces]
  omega

/-- With the index evaluated first, arguments made of pairs whose first pieces are ids of
threads are read as maps: the loops end, and each entry is the value last given for its
id, or 0 when none is given. -/
theorem parseLists_filledBy (atoi : Atoi32) (h3 : Text.fields delim0 argv3 = pieces pairs3)
    (h4 : Text.fields delim0 argv4 = pieces pairs4)
    (hrange3 : ∀ p ∈ pairs3, 0 ≤ atoi p.1 ∧ atoi p.1 < N)
    (hrange4 : ∀ p ∈ pairs4, 0 ≤ atoi p.1 ∧ atoi p.1 < N) :
    ∃ policies priorities,
      (∀ fuel, pairs3.length < fuel → pairs4.length < fuel →
        parseLists atoi .indexFirst fuel N argv3 argv4 = some (.ok (policies, priorities))) ∧
      FilledBy (fun p => atoi p.1) (fun p => getSchedId atoi p.2) N pairs3 policies ∧
      FilledBy (fun p => atoi p.1) (fun p => atoi p.2) N pairs4 priorities := by
  refine ⟨_, _, fun fuel hfuel3 hfuel4 => ?_, filledBy_fill hrange3, filledBy_fill hrange4⟩
  rw [parseLists, parseList_pieces .indexFirst h3 hrange3 hfuel3,
    parseList_pieces .indexFirst h4 hrange4 hfuel4]
  rfl

/-- Empty pieces, a value with a blank and a letter, and a thread named twice. -/
theorem parseLists_filledBy_two_threads :
    let atoi := Atoi.saturating 32
    let argv3 := ",,0,SCHED_RR,,1, 7x,,0,-3,,".toList
    parseLists atoi .indexFirst 4 2 argv3 "1,99".toList = some (.ok ([-3, 7], [0, 99])) ∧
      ∃ policies priorities,
        parseLists atoi .indexFirst 4 2 argv3 "1,99".toList =
          some (.ok (policies, priorities)) ∧
        policies[0]? = some (-3) ∧ priorities[0]? = some 0 := by
  intro atoi argv3
  have h3 : Text.fields delim0 argv3 =
      pieces [("0".toList, "SCHED_RR".toList), ("1".toList, " 7x".toList),
        ("0".toList, "-3".toList)] := by decide +kernel
  have h4 : Text.fields delim0 "1,99".toList = pieces [("1".toList, "99".toList)] := by
    decide +kernel
  obtain ⟨policies, priorities, hparse, hpolicies, hpriorities⟩ :=
    parseLists_filledBy (N := 2) atoi h3 h4 (by decide +kernel) (by decide +kernel)
  refine ⟨by rfl, policies, priorities, hparse 4 (by decide) (by decide), ?_, ?_⟩
  · exact hpolicies.last [("0".toList, "SCHED_RR".toList), ("1".toList, " 7x".toList)]
      ("0".toList, "-3".toList) [] rfl (by simp)
  · exact hpriorities.missing 0 (by decide) (by decide +kernel)

/-! ### Faults -/

/-- The place of the piece that names the index in a pair. -/
def Order.offset : Order → ℕ
  | .indexFirst => 0
  | .indexLast => 1

/-- The pieces of a list that is read without a fault: their number is even, and those
that name an index name one of the array. -/
structure WellFormed (atoi : Atoi32) (order : Order) (N : ℕ) (tokens : List (List Char)) :
    Prop where
  even : Even tokens.length
  index : ∀ k token, tokens[2 * k + order.offset]? = some token →
    0 ≤ atoi token ∧ atoi token < N

theorem wellFormed_cons_cons {t q : List Char} :
    WellFormed atoi order N (t :: q :: tokens) ↔
      (0 ≤ atoi (order.index (t, q)) ∧ atoi (order.index (t, q)) < N) ∧
        WellFormed atoi order N tokens := by
  have hfirst : (t :: q :: tokens)[2 * 0 + order.offset]? = some (order.index (t, q)) := by
    cases order <;> rfl
  have hnext : ∀ k, (t :: q :: tokens)[2 * (k + 1) + order.offset]? =
      tokens[2 * k + order.offset]? := by
    intro k
    rw [show 2 * (k + 1) + order.offset = 2 * k + order.offset + 1 + 1 by ring,
      List.getElem?_cons_succ, List.getElem?_cons_succ]
  constructor
  · intro h
    refine ⟨h.index 0 _ hfirst, ?_, fun k token htoken => ?_⟩
    · simpa [Nat.even_add_one] using h.even
    · exact h.index (k + 1) token (by rw [hnext, htoken])
  · rintro ⟨hrange, h⟩
    refine ⟨by simpa [Nat.even_add_one] using h.even, fun k token htoken => ?_⟩
    cases k with
    | zero =>
      rw [hfirst] at htoken
      exact Option.some.inj htoken ▸ hrange
    | succ k => exact h.index k token (by rw [← hnext, htoken])

/-- The pieces that are read without a fault. -/
theorem readTokens_ok_iff : (∃ arr', readTokens atoi decode order arr tokens = .ok arr') ↔
    WellFormed atoi order arr.length tokens := by
  induction arr, tokens using readTokens.induct atoi decode order with
  | case1 arr => exact iff_of_true ⟨arr, rfl⟩ ⟨by simp, by simp⟩
  | case2 arr t =>
    refine iff_of_false (fun ⟨_, h⟩ => by cases h) fun h => ?_
    exact absurd h.even (by simp)
  | case3 arr t q tokens index hindex ih =>
    rw [List.length_set] at ih
    rw [wellFormed_cons_cons, and_iff_right hindex, ← ih, readTokens, if_pos hindex]
  | case4 arr t q tokens index hindex =>
    rw [wellFormed_cons_cons, readTokens, if_neg hindex]
    exact iff_of_false (fun ⟨_, h⟩ => by cases h) fun h => hindex h.1

/-- Pairs that are read without a fault name indices of the array. -/
theorem forall_index_of_readTokens_ok {arr' : List ℤ}
    (h : readTokens atoi decode order arr (pieces pairs) = .ok arr') :
    ∀ p ∈ pairs, 0 ≤ atoi (order.index p) ∧ atoi (order.index p) < arr.length := by
  have hformed := readTokens_ok_iff.mp ⟨arr', h⟩
  clear h
  induction pairs with
  | nil => simp
  | cons p pairs ih =>
    rw [pieces_cons, wellFormed_cons_cons] at hformed
    exact List.forall_mem_cons.mpr ⟨hformed.1, ih hformed.2⟩

/-- The arguments that the two loops read without calling `atoi` or `get_sched_id` with a
null pointer and without a store outside the arrays, whatever the number of turns: both
have an even number of pieces, and the pieces that name an index name one of a thread. -/
theorem parseLists_no_fault_iff (atoi : Atoi32) (order : Order) (N : ℕ)
    (argv3 argv4 : List Char) :
    (∀ fuel fault, parseLists atoi order fuel N argv3 argv4 ≠ some (.error fault)) ↔
      WellFormed atoi order N (Text.fields delim0 argv3) ∧
        WellFormed atoi order N (Text.fields delim0 argv4) := by
  have hok : ∀ decode argument, (∃ arr', readTokens atoi decode order (List.replicate N 0)
      (Text.fields delim0 argument) = .ok arr') ↔
        WellFormed atoi order N (Text.fields delim0 argument) := by
    intro decode argument
    rw [readTokens_ok_iff, List.length_replicate]
  rw [← hok (getSchedId atoi) argv3, ← hok atoi argv4]
  constructor
  · intro h
    -- with enough turns both loops have come to what the pieces make of the arrays
    let fuel := (Text.fields delim0 argv3).length + (Text.fields delim0 argv4).length + 1
    have hrun3 := (parseList_eq atoi (getSchedId atoi) order fuel N argv3).resolve_right
      fun hnone => by omega
    have hrun4 := (parseList_eq atoi atoi order fuel N argv4).resolve_right
      fun hnone => by omega
    have h := h fuel
    rw [parseLists, hrun3] at h
    cases hread3 : readTokens atoi (getSchedId atoi) order (List.replicate N 0)
        (Text.fields delim0 argv3) with
    | error fault => exact absurd (by rw [hread3]) (h fault)
    | ok policies =>
      simp only [hread3, hrun4] at h
      cases hread4 : readTokens atoi atoi order (List.replicate N 0)
          (Text.fields delim0 argv4) with
      | error fault => exact absurd (by rw [hread4]) (h fault)
      | ok priorities => exact ⟨⟨policies, rfl⟩, priorities, rfl⟩
  · rintro ⟨⟨policies, hread3⟩, priorities, hread4⟩ fuel fault
    rw [parseLists]
    rcases parseList_eq atoi (getSchedId atoi) order fuel N argv3 with hrun3 | ⟨hrun3, -⟩
    · rcases parseList_eq atoi atoi order fuel N argv4 with hrun4 | ⟨hrun4, -⟩
      · simp [hrun3, hrun4, hread3, hread4]
      · simp [hrun3, hrun4, hread3]
    · simp [hrun3]

/-- With one thread, a list of a single piece calls `get_sched_id` with a null pointer, and
the id 5 is stored outside the array. -/
theorem parseLists_fault :
    let atoi := Atoi.saturating 32
    parseLists atoi .indexFirst 2 1 "0".toList "0,1".toList = some (.error .nullArgument) ∧
      parseLists atoi .indexFirst 2 1 "5,SCHED_FIFO".toList "0,1".toList =
        some (.error (.outOfBounds 5)) ∧
      ¬ ∀ (N : ℕ) (argv3 argv4 : List Char), 1 ≤ N → ∀ fuel fault,
        parseLists atoi .indexFirst fuel N argv3 argv4 ≠ some (.error fault) := by
  refine ⟨by rfl, by rfl, fun h => ?_⟩
  exact h 1 "0".toList "0,1".toList le_rfl 2 .nullArgument (by rfl)

end Sisop.ThreadRunner
