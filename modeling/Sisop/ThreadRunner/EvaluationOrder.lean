import Sisop.ThreadRunner.Parsing

/-!
# The order of evaluation

When the right side of the assignment is evaluated first, the index is read off the
value instead of the thread. The two readings of a list leave the same array only when
the values themselves, read as ids, say the same as the ids do. A value that is the name
of a policy counts as number 0 then.

## Main definitions

* `OrderFree` — the lists that both orders read alike

## Main results

* `getSchedId_eq_or` — a policy is a number or the name of one
* `parseLists_order_iff` — when the order does not matter
-/

namespace Sisop.ThreadRunner

open Foundations Decimal Strtok

variable {atoi : Atoi32} {decode : List Char → ℤ} {N : ℕ} {argv3 argv4 : List Char}
  {pairs pairs3 pairs4 : List (List Char × List Char)}

/-- A policy is a number, or its name starts with no number. -/
theorem getSchedId_eq_or (atoi : Atoi32) (policy : List Char) :
    getSchedId atoi policy = atoi policy ∨ atoi policy = 0 := by
  unfold getSchedId
  split_ifs with h h h h h h
  case neg => exact Or.inl rfl
  all_goals
    right
    subst h
    exact atoi.eq_zero (by decide +kernel)

/-- The value last given for an id. -/
def givenFor (atoi : Atoi32) (decode : List Char → ℤ) (pairs : List (List Char × List Char))
    (i : ℤ) : ℤ :=
  lastValue (fun p => atoi p.1) (fun p => decode p.2) pairs i

/-- A list of pairs that both orders read alike: every value is the id of a thread when it
is read as a number. If this id is not 0, it is the value last given for itself. All
other ids but 0 are given no value or 0 in the end, and what is given for id 0 is the last
of the values that are read as 0. -/
structure OrderFree (atoi : Atoi32) (decode : List Char → ℤ) (N : ℕ)
    (pairs : List (List Char × List Char)) : Prop where
  range : ∀ p ∈ pairs, 0 ≤ atoi p.2 ∧ atoi p.2 < N
  named : ∀ p ∈ pairs, atoi p.2 ≠ 0 → givenFor atoi decode pairs (atoi p.2) = atoi p.2
  other : ∀ i : ℕ, i < N → i ≠ 0 → (∀ p ∈ pairs, atoi p.2 ≠ i) →
    givenFor atoi decode pairs i = 0
  zero : 0 < N → givenFor atoi decode pairs 0 =
    lastValue (fun p => atoi p.2) (fun p => decode p.2) pairs 0

/-- The value stored last at an index other than 0 that is read off the values is the
index itself. -/
theorem lastValue_snd_eq (hdecode : ∀ q, decode q = atoi q ∨ atoi q = 0) {i : ℤ} (hi : i ≠ 0)
    (h : ∃ p ∈ pairs, atoi p.2 = i) :
    lastValue (fun p => atoi p.2) (fun p => decode p.2) pairs i = i := by
  obtain ⟨p, -, hp, hlast⟩ := exists_lastValue_eq (fun p => decode p.2) h
  rw [hlast]
  rcases hdecode p.2 with hsame | hzero
  · rw [hsame, hp]
  · exact absurd (hp.symm.trans hzero) hi

/-- The list is order free when the index read off the value is a store inside the array
and the entries are the same. -/
theorem orderFree_iff (hdecode : ∀ q, decode q = atoi q ∨ atoi q = 0) :
    OrderFree atoi decode N pairs ↔ (∀ p ∈ pairs, 0 ≤ atoi p.2 ∧ atoi p.2 < N) ∧
      ∀ i : ℕ, i < N → givenFor atoi decode pairs i =
        lastValue (fun p => atoi p.2) (fun p => decode p.2) pairs i := by
  constructor
  · intro h
    refine ⟨h.range, fun i hi => ?_⟩
    by_cases hzero : i = 0
    · subst hzero
      exact h.zero hi
    · have hne : (i : ℤ) ≠ 0 := by exact_mod_cast hzero
      by_cases hnamed : ∃ p ∈ pairs, atoi p.2 = i
      · rw [lastValue_snd_eq hdecode hne hnamed]
        obtain ⟨p, hp, hpi⟩ := hnamed
        rw [← hpi]
        exact h.named p hp (by rw [hpi]; exact hne)
      · have hother : ∀ p ∈ pairs, atoi p.2 ≠ i := fun p hp hpi => hnamed ⟨p, hp, hpi⟩
        rw [lastValue_eq_zero hother]
        exact h.other i hi hzero hother
  · rintro ⟨hrange, hsame⟩
    refine ⟨hrange, fun p hp hne => ?_, fun i hi hzero hother => ?_, fun hN => hsame 0 hN⟩
    · obtain ⟨h0, hlt⟩ := hrange p hp
      have hsame := hsame (atoi p.2).toNat (by omega)
      rw [Int.toNat_of_nonneg h0] at hsame
      rw [hsame, lastValue_snd_eq hdecode hne ⟨p, hp, rfl⟩]
    · rw [hsame i hi, lastValue_eq_zero hother]

/-- Reading one list with the index evaluated last gives what reading it with the index
evaluated first gives exactly when the list is order free. -/
theorem readTokens_indexLast_eq_iff (hdecode : ∀ q, decode q = atoi q ∨ atoi q = 0)
    (hrange : ∀ p ∈ pairs, 0 ≤ atoi p.1 ∧ atoi p.1 < N) :
    readTokens atoi decode .indexLast (List.replicate N 0) (pieces pairs) =
        .ok (fill (fun p => atoi p.1) (fun p => decode p.2) (List.replicate N 0) pairs) ↔
      OrderFree atoi decode N pairs := by
  rw [orderFree_iff hdecode]
  have hread : (∀ p ∈ pairs, 0 ≤ atoi p.2 ∧ atoi p.2 < N) →
      readTokens atoi decode .indexLast (List.replicate N 0) (pieces pairs) =
        .ok (fill (fun p => atoi p.2) (fun p => decode p.2) (List.replicate N 0) pairs) :=
    fun hlast => readTokens_pieces (by simpa [Order.index] using hlast)
  constructor
  · intro h
    have hlast : ∀ p ∈ pairs, 0 ≤ atoi p.2 ∧ atoi p.2 < N := by
      simpa [Order.index] using forall_index_of_readTokens_ok h
    refine ⟨hlast, fun i hi => ?_⟩
    rw [hread hlast, Except.ok.injEq] at h
    have hentry := getElem?_fill (fun p => decode p.2) hrange hi
    rw [← h, getElem?_fill _ hlast hi, Option.some.injEq] at hentry
    exact hentry.symm
  · rintro ⟨hlast, hsame⟩
    rw [hread hlast, Except.ok.injEq]
    apply List.ext_getElem?
    intro i
    by_cases hi : i < N
    · have hsame := hsame i hi
      rw [getElem?_fill _ hrange hi]
      rw [givenFor] at hsame
      rw [hsame]
      exact getElem?_fill _ hlast hi
    · rw [List.getElem?_eq_none (by simpa using hi), List.getElem?_eq_none (by simpa using hi)]

/-- Both arguments are read when each of them is. -/
theorem parseLists_eq_ok_iff {order : Order} {fuel : ℕ} {out3 out4 : Except Fault (List ℤ)}
    {policies priorities : List ℤ}
    (hrun3 : parseList atoi (getSchedId atoi) order fuel N argv3 = some out3)
    (hrun4 : parseList atoi atoi order fuel N argv4 = some out4) :
    parseLists atoi order fuel N argv3 argv4 = some (.ok (policies, priorities)) ↔
      out3 = .ok policies ∧ out4 = .ok priorities := by
  rw [parseLists, hrun3]
  cases out3 with
  | error fault => simp
  | ok policies' =>
    simp only [hrun4]
    cases out4 with
    | error fault => simp
    | ok priorities' => simp

/-- For arguments made of pairs whose first pieces are ids of threads, both orders of
evaluation leave the same arrays exactly when both lists are order free: `argv[3]` with
the values as policies, and `argv[4]` with the values as numbers. -/
theorem parseLists_order_iff (atoi : Atoi32) (h3 : Text.fields delim0 argv3 = pieces pairs3)
    (h4 : Text.fields delim0 argv4 = pieces pairs4)
    (hrange3 : ∀ p ∈ pairs3, 0 ≤ atoi p.1 ∧ atoi p.1 < N)
    (hrange4 : ∀ p ∈ pairs4, 0 ≤ atoi p.1 ∧ atoi p.1 < N) :
    (∀ fuel, pairs3.length < fuel → pairs4.length < fuel →
      parseLists atoi .indexLast fuel N argv3 argv4 =
        parseLists atoi .indexFirst fuel N argv3 argv4) ↔
      OrderFree atoi (getSchedId atoi) N pairs3 ∧ OrderFree atoi atoi N pairs4 := by
  have hfirst : ∀ fuel, pairs3.length < fuel → pairs4.length < fuel →
      parseLists atoi .indexFirst fuel N argv3 argv4 = some (.ok
        (fill (fun p => atoi p.1) (fun p => getSchedId atoi p.2) (List.replicate N 0) pairs3,
          fill (fun p => atoi p.1) (fun p => atoi p.2) (List.replicate N 0) pairs4)) := by
    intro fuel hfuel3 hfuel4
    rw [parseLists_eq_ok_iff (parseList_pieces .indexFirst h3 hrange3 hfuel3)
      (parseList_pieces .indexFirst h4 hrange4 hfuel4)]
    exact ⟨rfl, rfl⟩
  -- with enough turns the other order comes to its end as well
  have hlast : ∀ fuel, pairs3.length < fuel → pairs4.length < fuel →
      (parseLists atoi .indexLast fuel N argv3 argv4 =
        parseLists atoi .indexFirst fuel N argv3 argv4 ↔
          OrderFree atoi (getSchedId atoi) N pairs3 ∧ OrderFree atoi atoi N pairs4) := by
    intro fuel hfuel3 hfuel4
    have hrun3 := (parseList_eq atoi (getSchedId atoi) .indexLast fuel N argv3).resolve_right
      fun hnone => by rw [h3, length_pieces] at hnone; omega
    have hrun4 := (parseList_eq atoi atoi .indexLast fuel N argv4).resolve_right
      fun hnone => by rw [h4, length_pieces] at hnone; omega
    rw [hfirst fuel hfuel3 hfuel4, parseLists_eq_ok_iff hrun3 hrun4, h3, h4,
      readTokens_indexLast_eq_iff (getSchedId_eq_or atoi) hrange3,
      readTokens_indexLast_eq_iff (fun _ => Or.inl rfl) hrange4]
  constructor
  · intro h
    let fuel := pairs3.length + pairs4.length + 1
    exact (hlast fuel (by omega) (by omega)).mp (h fuel (by omega) (by omega))
  · intro h fuel hfuel3 hfuel4
    exact (hlast fuel hfuel3 hfuel4).mpr h

/-- Two threads that are given their own ids for policies and priorities. -/
theorem parseLists_order_own_ids :
    let atoi := Atoi.saturating 32
    ∀ fuel, 2 < fuel → parseLists atoi .indexLast fuel 2 "0,SCHED_OTHER,1,1".toList "0,0,1,1".toList
      = parseLists atoi .indexFirst fuel 2 "0,SCHED_OTHER,1,1".toList "0,0,1,1".toList := by
  intro atoi fuel hfuel
  have h3 : Text.fields delim0 "0,SCHED_OTHER,1,1".toList =
      pieces [("0".toList, "SCHED_OTHER".toList), ("1".toList, "1".toList)] := by decide +kernel
  have h4 : Text.fields delim0 "0,0,1,1".toList =
      pieces [("0".toList, "0".toList), ("1".toList, "1".toList)] := by decide +kernel
  refine (parseLists_order_iff (N := 2) atoi h3 h4 (by decide +kernel) (by decide +kernel)).mpr
    ⟨⟨by decide +kernel, by decide +kernel, fun i hi hne h => ?_, fun _ => by rfl⟩,
      ⟨by decide +kernel, by decide +kernel, fun i hi hne h => ?_, fun _ => by rfl⟩⟩
    fuel hfuel hfuel
  · obtain rfl : i = 1 := by omega
    exact absurd (h ("1".toList, "1".toList) (by simp)) (by decide +kernel)
  · obtain rfl : i = 1 := by omega
    exact absurd (h ("1".toList, "1".toList) (by simp)) (by decide +kernel)

/-- Two threads, with a policy for thread 1: when the index is evaluated last it is that of
thread 0. -/
theorem parseLists_order_differs :
    let atoi := Atoi.saturating 32
    let argv3 := "1,SCHED_FIFO".toList
    parseLists atoi .indexFirst 2 2 argv3 "0,0".toList = some (.ok ([0, 1], [0, 0])) ∧
      parseLists atoi .indexLast 2 2 argv3 "0,0".toList = some (.ok ([1, 0], [0, 0])) ∧
      parseLists atoi .indexLast 2 2 argv3 "0,0".toList ≠
        parseLists atoi .indexFirst 2 2 argv3 "0,0".toList :=
  ⟨by rfl, by rfl, by decide +kernel⟩

end Sisop.ThreadRunner
