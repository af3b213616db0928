import Mathlib.Data.List.TakeWhile
import Mathlib.Data.Nat.Find
import Mathlib.Data.Vector.Basic

/-!
# Terminated strings in a buffer

A string lies at the start of a buffer and ends before the first terminator. Storing a
string writes it and a terminator after it, and leaves the rest of the buffer as it was.
A string that does not fit together with its terminator cannot be stored. A memory
without bounds takes every string, and what is stored there is what the buffer at its
start would hold as long as the string fits.

## Main definitions

* `CString.cString` — the string in a memory area
* `CString.store` — a string stored in a buffer
* `CString.write` — a string stored in a memory without bounds

## Main results

* `CString.strlen_store` — the length read back is the length stored
* `CString.take_store_eq_iff` — only that many characters of the buffer are the string
* `CString.Agrees.write` — the memory and the buffer agree as long as the string fits
-/

namespace Sisop.Foundations.CString

/-- The terminator of a string of characters. -/
def nul : Char := '\x00'

variable {α : Type*} [DecidableEq α] {nul : α} {n k : ℕ} {text : List α}
  {buf buf' : List.Vector α n}

/-- The string at the start of a memory area. -/
def cString (nul : α) (mem : List α) : List α := mem.takeWhile (· ≠ nul)

/-- The length of the string in a memory area. -/
def strlen (nul : α) (mem : List α) : ℕ := (cString nul mem).length

/-- The buffer after a string has been stored at its start, unless that would write past
its end. -/
def store (nul : α) (buf : List.Vector α n) (text : List α) : Option (List.Vector α n) :=
  if h : text.length < n then
    some ⟨text ++ nul :: buf.toList.drop (text.length + 1), by
      simp only [List.length_append, List.length_cons, List.length_drop,
        List.Vector.toList_length]
      omega⟩
  else none

omit [DecidableEq α] in
theorem store_of_le (h : n ≤ text.length) : store nul buf text = none :=
  dif_neg (not_lt.mpr h)

omit [DecidableEq α] in
theorem exists_store (nul : α) (buf : List.Vector α n) (h : text.length < n) :
    ∃ buf', store nul buf text = some buf' := ⟨_, dif_pos h⟩

omit [DecidableEq α] in
theorem toList_of_store (h : store nul buf text = some buf') :
    text.length < n ∧ buf'.toList = text ++ nul :: buf.toList.drop (text.length + 1) := by
  rw [store] at h
  split_ifs at h with hfits
  obtain rfl := Option.some.inj h
  exact ⟨hfits, rfl⟩

/-- Reading stops at the terminator. -/
theorem cString_append_nul (htext : nul ∉ text) (rest : List α) :
    cString nul (text ++ nul :: rest) = text := by
  rw [cString, List.takeWhile_append_of_pos]
  · simp
  · intro c hc
    rw [decide_eq_true_eq]
    rintro rfl
    exact htext hc

theorem notMem_cString (nul : α) (mem : List α) : nul ∉ cString nul mem := by
  intro h
  simpa using List.mem_takeWhile_imp h

/-- A text without a terminator goes on to its end. -/
theorem cString_eq_self (htext : nul ∉ text) : cString nul text = text := by
  rw [cString, List.takeWhile_eq_self_iff]
  intro c hc
  rw [decide_eq_true_eq]
  rintro rfl
  exact htext hc

theorem strlen_store (htext : nul ∉ text) (h : store nul buf text = some buf') :
    strlen nul buf'.toList = text.length := by
  rw [strlen, (toList_of_store h).2, cString_append_nul htext]

omit [DecidableEq α] in
/-- As many characters as the string has are the string, any other number are not. -/
theorem take_store_eq_iff (h : store nul buf text = some buf') :
    buf'.toList.take k = text ↔ k = text.length := by
  obtain ⟨hfits, htoList⟩ := toList_of_store h
  constructor
  · intro htake
    have hlength := congrArg List.length htake
    rw [List.length_take, List.Vector.toList_length] at hlength
    omega
  · rintro rfl
    rw [htoList, List.take_left]

/-! ### Memory without bounds -/

section Unbounded

variable {mem : ℕ → α} {a : ℕ}

/-- The memory after a string and its terminator have been stored at its start. -/
def write (nul : α) (mem : ℕ → α) (text : List α) (a : ℕ) : α :=
  (text ++ [nul])[a]?.getD (mem a)

omit [DecidableEq α] in
theorem write_of_lt (h : a < text.length) : write nul mem text a = text[a] := by
  rw [write, List.getElem?_append_left h, List.getElem?_eq_getElem h]
  rfl

omit [DecidableEq α] in
@[simp] theorem write_length (nul : α) (mem : ℕ → α) (text : List α) :
    write nul mem text text.length = nul := by
  simp [write]

omit [DecidableEq α] in
/-- What lies after the terminator is left as it was. -/
theorem write_of_gt (h : text.length < a) : write nul mem text a = mem a := by
  rw [write, List.getElem?_eq_none (by simp; omega)]
  rfl

omit [DecidableEq α] in
theorem exists_write_eq_nul (nul : α) (mem : ℕ → α) (text : List α) :
    ∃ a, write nul mem text a = nul := ⟨text.length, write_length nul mem text⟩

/-- The length of a string that lies at the start of the memory. -/
def length (h : ∃ a, mem a = nul) : ℕ := Nat.find h

theorem length_write (htext : nul ∉ text) (mem : ℕ → α) :
    length (exists_write_eq_nul nul mem text) = text.length := by
  rw [length, Nat.find_eq_iff]
  refine ⟨write_length nul mem text, fun a ha hnul => ?_⟩
  rw [write_of_lt ha] at hnul
  exact htext (hnul ▸ List.getElem_mem ha)

/-- A buffer holds what lies at the start of the memory. -/
def Agrees (mem : ℕ → α) (buf : List.Vector α n) : Prop :=
  ∀ a < n, buf.toList[a]? = some (mem a)

omit [DecidableEq α] in
theorem Agrees.take (h : Agrees mem buf) (hk : k ≤ n) :
    buf.toList.take k = (List.range k).map mem := by
  apply List.ext_getElem?
  intro a
  by_cases ha : a < k
  · rw [List.getElem?_take_of_lt ha, h a (by omega), List.getElem?_map,
      List.getElem?_range ha]
    rfl
  · rw [List.getElem?_eq_none (by simp; omega), List.getElem?_eq_none (by simp; omega)]

omit [DecidableEq α] in
/-- Storing a string that fits keeps a buffer and the memory alike. -/
theorem Agrees.write (h : Agrees mem buf) (hstore : store nul buf text = some buf') :
    Agrees (write nul mem text) buf' := by
  intro a ha
  obtain ⟨hfits, htoList⟩ := toList_of_store hstore
  rcases lt_trichotomy a text.length with hlt | rfl | hgt
  · rw [write_of_lt hlt, htoList, List.getElem?_append_left hlt, List.getElem?_eq_getElem hlt]
  · simp [htoList]
  · have hkeep : buf'.toList[a]? = buf.toList[a]? := by
      obtain ⟨k, rfl⟩ := Nat.exists_eq_add_of_le hgt
      have hoffset : text.length.succ + k - text.length = k + 1 := by omega
      rw [htoList, List.getElem?_append_right (by omega), hoffset, List.getElem?_cons_succ,
        List.getElem?_drop]
    rw [write_of_gt hgt, hkeep, h a ha]

end Unbounded

end Sisop.Foundations.CString
