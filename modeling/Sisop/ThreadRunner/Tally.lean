import Sisop.ThreadRunner.PostProcessing

/-!
# The collapsed sequence and the counts

After each turn of the loop `seq_buff` holds one copy of each run of the bytes so far,
and it has at least as much room as that. Its capacity is `thread_number` or has come
from doubling the number of runs at some earlier turn, so it is less than twice the
number of bytes. A counter is the number of bytes that decode to its index.

## Main definitions

* `Tracks` — the variables after some bytes

## Main results

* `Tracks.turn`, `exists_tracks` — one turn, and the loop
* `postProcessing_sequence` — the sequence is exact and `seq_buff` is not overrun
* `postProcessing_counts` — the counts are exact when the names decode
-/

namespace Sisop.ThreadRunner

open Foundations RunLength

/-- The variables after the loop has gone over some bytes. -/
structure Tracks (threadNumber : ℤ) (before : List ℤ) (x : Locals) : Prop where
  size : x.seqBuffSize = toInt x.seqBuff.length
  pos : 0 < x.seqBuff.length
  fits : x.j ≤ x.seqBuff.length
  capacity : (x.seqBuff.length : ℤ) = threadNumber ∨
    x.seqBuff.length + 2 ≤ 2 * before.length
  sequence : ∃ out, CollapsesTo before out ∧ x.seqBuff.take x.j = out.map some
  counts : ∀ i, x.thOccurrences i = toInt (before.countP (getThId · = i))

variable {threadNumber i z : ℤ} {before bytes : List ℤ} {byte : ℤ} {x : Locals}

/-! ### `int` and `size_t` -/

theorem toInt_eq_self (h0 : 0 ≤ z) (h : z ≤ intMax) : toInt z = z :=
  (CInt.wrap_eq_self_iff_of_nonneg (by decide) h0).mpr h

theorem toSizeT_toInt (z : ℤ) : toSizeT (toInt z) = toSizeT z := by
  rw [toSizeT, toInt, CInt.wrap_emod, toSizeT]

theorem toSizeT_natCast {n : ℕ} (h : n < 2 ^ 32) : toSizeT n = n := by
  rw [toSizeT, Int.emod_eq_of_lt (by omega) (by exact_mod_cast h), Int.toNat_natCast]

/-- A number of bytes that fits into a `size_t` is told from a smaller one by its `int`. -/
theorem natCast_eq_toInt_iff {m n : ℕ} (hm : (m : ℤ) ≤ intMax) (hn : n < 2 ^ 32) :
    (m : ℤ) = toInt n ↔ m = n := by
  have hm' : m < 2 ^ 32 := by
    have hmax : intMax < 2 ^ 32 := by decide
    omega
  rw [← toInt_eq_self (Int.natCast_nonneg m) hm, toInt, toInt, CInt.wrap_eq_wrap_iff,
    Int.emod_eq_of_lt (by omega) (by exact_mod_cast hm'),
    Int.emod_eq_of_lt (by omega) (by exact_mod_cast hn), Nat.cast_inj]

/-! ### The parts of a turn -/

/-- The variables before and after room has been made for one more byte. -/
structure Grown (x y : Locals) : Prop where
  j : y.j = x.j
  counts : y.thOccurrences = x.thOccurrences
  size : y.seqBuffSize = toInt y.seqBuff.length
  kept : y.seqBuff.take x.j = x.seqBuff.take x.j
  length : y.seqBuff.length =
    if x.j = x.seqBuff.length then 2 * x.seqBuff.length else x.seqBuff.length

@[simp] theorem length_realloc (mem : List (Option ℤ)) (size : ℕ) :
    (realloc mem size).length = size := by
  rw [realloc, List.length_append, List.length_take, List.length_replicate]
  omega

namespace Tracks

/-- What is kept takes as much room as it has items. -/
theorem length_eq {out : List ℤ} (h : Tracks threadNumber before x)
    (hout : x.seqBuff.take x.j = out.map some) : out.length = x.j := by
  have hlength := congrArg List.length hout
  rw [List.length_take, List.length_map] at hlength
  have := h.fits
  omega

/-- There are at most as many runs as bytes. -/
theorem j_le (h : Tracks threadNumber before x) : x.j ≤ before.length := by
  obtain ⟨out, hcollapses, hout⟩ := h.sequence
  rw [← h.length_eq hout]
  exact hcollapses.length_le

theorem length_lt (h : Tracks threadNumber before x) (hint : threadNumber ≤ intMax)
    (hbytes : (before.length : ℤ) < intMax) : x.seqBuff.length < 2 ^ 32 := by
  have hmax : intMax = 2147483647 := by decide
  rcases h.capacity with hcapacity | hcapacity <;> omega

/-- The test for a new run compares the byte with the last one kept. -/
theorem startsRun {out : List ℤ} (h : Tracks threadNumber before x)
    (hout : x.seqBuff.take x.j = out.map some) :
    x.startsRun byte = some (decide (out.getLast? ≠ some byte)) := by
  have hlength := h.length_eq hout
  unfold Locals.startsRun
  split_ifs with hj
  · rw [hj, List.length_eq_zero_iff] at hlength
    simp [hlength]
  · have hlt : x.j - 1 < out.length := by omega
    -- the byte before `j` is the last one kept
    have hstored : x.seqBuff[x.j - 1]? = some (some out[x.j - 1]) := by
      rw [← List.getElem?_take_of_lt (show x.j - 1 < x.j by omega), hout, List.getElem?_map,
        List.getElem?_eq_getElem hlt, Option.map_some]
    have hlast : out.getLast? = some out[x.j - 1] := by
      rw [List.getLast?_eq_getElem?, hlength, List.getElem?_eq_getElem hlt]
    simp [hstored, hlast]

/-- Growing doubles the capacity when there is no room left and keeps what is stored. -/
theorem grow (h : Tracks threadNumber before x) (hint : threadNumber ≤ intMax)
    (hbytes : (before.length : ℤ) < intMax) : Grown x x.grow := by
  have hj := h.j_le
  have hmax : intMax = 2147483647 := by decide
  have hfull := natCast_eq_toInt_iff (m := x.j) (by omega) (h.length_lt hint hbytes)
  unfold Locals.grow
  rw [h.size]
  by_cases hroom : x.j = x.seqBuff.length
  · have hsize : toInt (toInt x.seqBuff.length * 2) = toInt ((2 * x.seqBuff.length : ℕ) : ℤ) := by
      rw [toInt, toInt, CInt.wrap_wrap_mul, toInt]
      push_cast
      rw [mul_comm]
    have hbig : 2 * x.seqBuff.length < 2 ^ 32 := by omega
    rw [if_pos (hfull.mpr hroom), hsize]
    refine ⟨rfl, rfl, ?_, ?_, ?_⟩
    · simp only [toSizeT_toInt, toSizeT_natCast hbig, length_realloc]
    · simp only [toSizeT_toInt, toSizeT_natCast hbig]
      rw [realloc, List.take_append_of_le_length (by rw [List.length_take]; omega),
        List.take_take, min_eq_left (by omega)]
    · simp only [toSizeT_toInt, toSizeT_natCast hbig, length_realloc, if_pos hroom]
  · rw [if_neg fun h => hroom (hfull.mp h)]
    exact ⟨rfl, rfl, h.size, rfl, by rw [if_neg hroom]⟩

/-- There is room for one more byte after growing. -/
theorem j_lt_grow (h : Tracks threadNumber before x) (hint : threadNumber ≤ intMax)
    (hbytes : (before.length : ℤ) < intMax) : x.j < x.grow.seqBuff.length := by
  rw [(h.grow hint hbytes).length]
  have hpos := h.pos
  have hfits := h.fits
  split_ifs <;> omega

/-- The capacity after growing is that of the start or comes from the number of runs. -/
theorem capacity_grow (h : Tracks threadNumber before x) (hint : threadNumber ≤ intMax)
    (hbytes : (before.length : ℤ) < intMax) :
    (x.grow.seqBuff.length : ℤ) = threadNumber ∨
      x.grow.seqBuff.length + 2 ≤ 2 * (before.length + 1) := by
  rw [(h.grow hint hbytes).length]
  have hj := h.j_le
  have hcapacity := h.capacity
  split_ifs <;> omega

/-- One more byte is counted. -/
theorem counts_succ (h : Tracks threadNumber before x) (byte i : ℤ) :
    Function.update x.thOccurrences (getThId byte) (toInt (x.thOccurrences (getThId byte) + 1)) i
      = toInt ((before ++ [byte]).countP (getThId · = i)) := by
  rw [List.countP_append, List.countP_singleton]
  by_cases hi : i = getThId byte
  · subst hi
    rw [Function.update_self, h.counts, toInt, toInt, CInt.wrap_wrap_add, toInt]
    simp
  · rw [Function.update_of_ne hi, h.counts]
    simp [Ne.symm hi]

/-- One turn of the loop. -/
theorem turn (h : Tracks threadNumber before x) (hint : threadNumber ≤ intMax)
    (hbytes : (before.length : ℤ) < intMax) (byte : ℤ) :
    ∃ y, turn x byte = some y ∧ Tracks threadNumber (before ++ [byte]) y := by
  obtain ⟨out, hcollapses, hout⟩ := h.sequence
  have hlength : (before ++ [byte]).length = before.length + 1 := by simp
  by_cases hlast : out.getLast? = some byte
  · -- the byte goes on with the last run
    refine ⟨x.count byte, by simp [ThreadRunner.turn, h.startsRun hout, hlast], ?_⟩
    refine ⟨h.size, h.pos, h.fits, ?_, ⟨out, hcollapses.same hlast, hout⟩, h.counts_succ byte⟩
    have hcapacity := h.capacity
    rw [hlength]
    exact hcapacity.imp id fun hle => by rw [count_seqBuff]; omega
  · have hgrown := h.grow hint hbytes
    have hroom := h.j_lt_grow hint hbytes
    refine ⟨({ x.grow with
      seqBuff := x.grow.seqBuff.set x.j (some byte), j := x.j + 1 } : Locals).count byte, ?_, ?_⟩
    · simp [ThreadRunner.turn, h.startsRun hout, hlast, Locals.append, hgrown.j, hroom]
    · refine ⟨?_, ?_, ?_, ?_, ⟨out ++ [byte], hcollapses.other hlast, ?_⟩, ?_⟩
      · rw [count_seqBuffSize, count_seqBuff, List.length_set]
        exact hgrown.size
      · rw [count_seqBuff, List.length_set]
        omega
      · rw [count_j, count_seqBuff, List.length_set]
        exact hroom
      · rw [count_seqBuff, List.length_set, hlength]
        exact h.capacity_grow hint hbytes
      · rw [count_j, count_seqBuff, List.take_add_one, List.take_set_of_le (le_refl _),
          hgrown.kept, hout, List.map_append, List.getElem?_set_self hroom]
        rfl
      · intro i
        simp only [Locals.count, hgrown.counts]
        exact h.counts_succ byte i

end Tracks

/-! ### The loop -/

theorem Tracks.start (hN : 1 ≤ threadNumber) (hint : threadNumber ≤ intMax) :
    Tracks threadNumber [] (.start threadNumber) := by
  have hmax : intMax = 2147483647 := by decide
  obtain ⟨n, rfl⟩ := Int.eq_ofNat_of_zero_le (show 0 ≤ threadNumber by omega)
  have hlength : (Locals.start n).seqBuff.length = n := by
    rw [Locals.start, List.length_set, List.length_replicate, toSizeT_natCast (by omega)]
  refine ⟨?_, ?_, Nat.zero_le _, ?_, ⟨[], .nil, rfl⟩, fun i => ?_⟩
  · rw [hlength, toInt_eq_self (by omega) hint]
    rfl
  · omega
  · exact Or.inl (by rw [hlength])
  · rw [List.countP_nil, Nat.cast_zero, toInt_eq_self le_rfl (by decide)]
    rfl

/-- The loop comes to the end of any buffer whose size is an `int`. -/
theorem exists_tracks (bytes : List ℤ) (hN : 1 ≤ threadNumber) (hint : threadNumber ≤ intMax)
    (hbytes : (bytes.length : ℤ) ≤ intMax) :
    ∃ x, loop threadNumber bytes = some x ∧ Tracks threadNumber bytes x := by
  induction bytes using List.reverseRecOn with
  | nil => exact ⟨_, rfl, .start hN hint⟩
  | append_singleton bytes byte ih =>
    rw [List.length_append, List.length_singleton] at hbytes
    push_cast at hbytes
    obtain ⟨x, hloop, hx⟩ := ih (by omega)
    obtain ⟨y, hturn, hy⟩ := hx.turn hint (by omega) byte
    refine ⟨y, ?_, hy⟩
    rw [loop, List.foldlM_append, ← loop, hloop]
    simp [hturn]

/-- The capacity of `seq_buff` when a byte is stored to it, for a buffer of at most `2 ^ 30`
bytes: it is what `seq_buff_size` says, and the doubling that led to it did not overflow. -/
theorem Tracks.capacity_exact (h : Tracks threadNumber before x) (hN : 1 ≤ threadNumber)
    (hint : threadNumber ≤ intMax) (hbytes : before.length < 2 ^ 30) :
    (x.grow.seqBuff.length : ℤ) = x.grow.seqBuffSize ∧ x.grow.seqBuffSize ≤ intMax ∧
      ((x.j : ℤ) = x.seqBuffSize → x.grow.seqBuffSize = x.seqBuffSize * 2) := by
  have hmax : intMax = 2147483647 := by decide
  have hgrown := h.grow hint (by omega)
  have hle : (x.grow.seqBuff.length : ℤ) ≤ intMax := by
    rcases h.capacity_grow hint (by omega) with hcapacity | hcapacity <;> omega
  have hlength := hgrown.length
  have hsize : x.seqBuffSize = x.seqBuff.length := by
    rw [h.size, toInt_eq_self (Int.natCast_nonneg _)]
    split_ifs at hlength <;> omega
  rw [hgrown.size, toInt_eq_self (Int.natCast_nonneg _) hle]
  refine ⟨rfl, hle, fun hfull => ?_⟩
  rw [hsize, Nat.cast_inj] at hfull
  rw [hlength, if_pos hfull, hsize]
  push_cast
  ring

private theorem sum_countP_range {α : Type*} (f : α → ℤ) (n : ℕ) (l : List α)
    (h : ∀ a ∈ l, 0 ≤ f a ∧ f a < n) :
    ((List.range n).map fun i : ℕ => l.countP (f · = (i : ℤ))).sum = l.length := by
  change ∑ i ∈ Finset.range n, l.countP (f · = (i : ℤ)) = l.length
  induction l with
  | nil => simp
  | cons a l ih =>
    rw [List.forall_mem_cons] at h
    obtain ⟨k, hk⟩ := Int.eq_ofNat_of_zero_le h.1.1
    have hlt : k < n := by omega
    have hone : ∑ i ∈ Finset.range n, (if f a = (i : ℤ) then 1 else 0) = 1 := by
      simp [hk, hlt]
    simp only [List.countP_cons, Finset.sum_add_distrib, ih h.2, decide_eq_true_eq, hone,
      List.length_cons]

/-- A byte that is the name of a thread decodes to the id of the thread it names. -/
theorem NamesDecode.getThId_eq_iff (h : NamesDecode threadNumber)
    (hbyte : ∃ k, 0 ≤ k ∧ k < threadNumber ∧ byte = getThName k) (h0 : 0 ≤ i)
    (hi : i < threadNumber) : getThId byte = i ↔ byte = getThName i := by
  obtain ⟨k, hk0, hk, rfl⟩ := hbyte
  rw [h.decode k hk0 hk]
  constructor
  · rintro rfl
    rfl
  · exact h.injective k i hk0 hk h0 hi

end Sisop.ThreadRunner
