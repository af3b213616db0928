import Mathlib.Data.List.TakeWhile
import Sisop.Foundations.Text

/-!
# Splitting a text with a cursor

`strtok` keeps a cursor in a text. Each call skips delimiters, takes the characters up
to the next delimiter for a token, and leaves the cursor after that delimiter. The
tokens of successive calls are the fields of the text.

## Main definitions

* `Strtok.strtok` — one call: the token, if there is one, and the text left

## Main results

* `Strtok.strtok_fst`, `Strtok.fields_strtok_snd` — a call takes the first field
-/

namespace Sisop.Foundations.Strtok

variable {α : Type*} {delim : α → Bool} {c : α} {l r text : List α}

/-- One call of `strtok`, with the text at the cursor: the token, if there is one, and the
text at the cursor afterwards. -/
def strtok (delim : α → Bool) (text : List α) : Option (List α) × List α :=
  match text.dropWhile delim with
  | [] => (none, [])
  | c :: l => (some ((c :: l).takeWhile (!delim ·)), ((c :: l).dropWhile (!delim ·)).tail)

@[simp] theorem fields_nil : Text.fields delim [] = [] := by simp [Text.fields]

/-- A delimiter in front of a text starts no field. -/
theorem fields_cons_of_delim (hc : delim c = true) :
    Text.fields delim (c :: l) = Text.fields delim l := by
  have hsplit : (c :: l).splitOnP delim = [] :: l.splitOnP delim := by
    simp [List.splitOnP_cons_eq_if_modifyHead, hc]
  rw [Text.fields, hsplit, List.filter_cons_of_neg (by simp), Text.fields]

theorem fields_dropWhile (text : List α) :
    Text.fields delim (text.dropWhile delim) = Text.fields delim text := by
  induction text with
  | nil => rfl
  | cons c l ih =>
    by_cases hc : delim c = true
    · rw [List.dropWhile_cons_of_pos hc, ih, fields_cons_of_delim hc]
    · rw [List.dropWhile_cons_of_neg hc]

/-- A text without delimiters is its only field. -/
theorem fields_of_forall (hl : ∀ c ∈ l, delim c = false) (hne : l ≠ []) :
    Text.fields delim l = [l] := by
  rw [Text.fields, List.splitOnP_eq_singleton (by simpa using hl)]
  simp [hne]

/-- Texts without delimiters that a delimiter separates are the fields. -/
theorem fields_intercalate {ls : List (List α)} (hc : delim c = true)
    (hls : ∀ l ∈ ls, l ≠ [] ∧ ∀ a ∈ l, delim a = false) :
    Text.fields delim ([c].intercalate ls) = ls := by
  induction ls with
  | nil => rfl
  | cons l ls ih =>
    rw [List.forall_mem_cons] at hls
    cases ls with
    | nil =>
      rw [List.intercalate_singleton]
      exact fields_of_forall hls.1.2 hls.1.1
    | cons l' ls =>
      rw [List.intercalate_cons_cons, List.append_assoc, List.singleton_append,
        Text.fields_append_cons hls.1.2 hls.1.1 hc, ih hls.2]

/-- The characters up to the next delimiter are the first field. -/
theorem fields_eq_takeWhile_cons (hc : delim c = false) :
    Text.fields delim (c :: l) = (c :: l).takeWhile (!delim ·) ::
      Text.fields delim ((c :: l).dropWhile (!delim ·)).tail := by
  have hne : (c :: l).takeWhile (!delim ·) ≠ [] := by simp [hc]
  have htoken : ∀ a ∈ (c :: l).takeWhile (!delim ·), delim a = false := by
    intro a ha
    simpa using List.mem_takeWhile_imp ha
  have hsplit : c :: l = (c :: l).takeWhile (!delim ·) ++ (c :: l).dropWhile (!delim ·) :=
    List.takeWhile_append_dropWhile.symm
  cases hrest : (c :: l).dropWhile (!delim ·) with
  | nil =>
    rw [hrest, List.append_nil] at hsplit
    rw [List.tail_nil, fields_nil]
    conv_lhs => rw [hsplit]
    exact fields_of_forall htoken hne
  | cons b r =>
    -- the text goes on with the delimiter that ends the token
    have hb : delim b = true := by
      have := List.head_dropWhile_not (!delim ·) (by rw [hrest]; exact List.cons_ne_nil b r)
      simpa [hrest] using this
    rw [hrest] at hsplit
    conv_lhs => rw [hsplit]
    exact Text.fields_append_cons htoken hne hb

/-- The token is the first field. -/
theorem strtok_fst (delim : α → Bool) (text : List α) :
    (strtok delim text).1 = (Text.fields delim text).head? := by
  rw [strtok, ← fields_dropWhile text]
  cases hstart : text.dropWhile delim with
  | nil => simp
  | cons c l =>
    have hc := List.head_dropWhile_not delim (by rw [hstart]; exact List.cons_ne_nil c l)
    rw [fields_eq_takeWhile_cons (by simpa [hstart] using hc), List.head?_cons]

/-- The other fields are those of the text left. -/
theorem fields_strtok_snd (delim : α → Bool) (text : List α) :
    Text.fields delim (strtok delim text).2 = (Text.fields delim text).tail := by
  rw [strtok, ← fields_dropWhile text]
  cases hstart : text.dropWhile delim with
  | nil => simp
  | cons c l =>
    have hc := List.head_dropWhile_not delim (by rw [hstart]; exact List.cons_ne_nil c l)
    rw [fields_eq_takeWhile_cons (by simpa [hstart] using hc), List.tail_cons]

end Sisop.Foundations.Strtok
