import Mathlib.Algebra.BigOperators.Group.List.Basic

/-!
# Lines and fields of a text

A text is a list of characters. Lines are what stands before each newline, fields are
what stands between runs of blanks. A reader with universal newlines takes a carriage
return, and a carriage return with a newline after it, for a newline. Nothing depends
on which characters these are.

## Main definitions

* `Text.unlines`, `Text.lines` — a text from its lines, and its lines
* `Text.fields` — the fields of a line
* `Text.universalNewlines` — the text that a reader with universal newlines sees

## Main results

* `Text.lines_unlines_append` — lines without newlines are read back
* `Text.linesSeen_eq_iff` — how much of a text has to be read to see all its lines
* `Text.fields_append_cons` — the first field ends at the first blank
* `Text.eq_or_eq_of_universalNewlines` — what a line can have been before it was read
* `Text.flatMap_eq_map_iff` — pieces that make up as many items as there are pieces
-/

namespace Sisop.Foundations.Text

variable {α : Type*} [DecidableEq α] {nl cr : α} {l r : List α} {ls : List (List α)}

/-! ### Lines -/

/-- The text with the given lines. -/
def unlines (nl : α) (ls : List (List α)) : List α := ls.flatMap (· ++ [nl])

/-- The lines of a text. What stands after the last newline is not a line. -/
def lines (nl : α) (l : List α) : List (List α) := (l.splitOn nl).dropLast

omit [DecidableEq α] in
@[simp] theorem unlines_nil : unlines nl [] = [] := rfl

omit [DecidableEq α] in
@[simp] theorem unlines_cons : unlines nl (l :: ls) = l ++ nl :: unlines nl ls := by
  simp [unlines]

omit [DecidableEq α] in
@[simp] theorem unlines_append {ls' : List (List α)} :
    unlines nl (ls ++ ls') = unlines nl ls ++ unlines nl ls' := by
  simp [unlines]

/-- The lines up to a newline come before the lines after it. -/
theorem lines_append_cons : lines nl (l ++ nl :: r) = l.splitOn nl ++ lines nl r := by
  rw [lines, List.splitOn_append_cons_self, List.dropLast_append_of_ne_nil, lines]
  exact List.splitOn_ne_nil nl r

theorem lines_append_cons_of_notMem (h : nl ∉ l) : lines nl (l ++ nl :: r) = l :: lines nl r := by
  rw [lines_append_cons, List.splitOn_eq_singleton h, List.singleton_append]

/-- Lines without newlines are read back, and what stands after the last one is not seen. -/
theorem lines_unlines_append (h : ∀ l ∈ ls, nl ∉ l) (hr : nl ∉ r) :
    lines nl (unlines nl ls ++ r) = ls := by
  induction ls with
  | nil => simp [lines, List.splitOn_eq_singleton hr]
  | cons l ls ih =>
    rw [unlines_cons, List.append_assoc, List.cons_append,
      lines_append_cons_of_notMem (h l List.mem_cons_self),
      ih fun l' hl' => h l' (List.mem_cons_of_mem l hl')]

omit [DecidableEq α] in
/-- Where a line ends is told by its newline. -/
theorem append_cons_inj {l' r' : List α} (hl : nl ∉ l) (hl' : nl ∉ l')
    (h : l ++ nl :: r = l' ++ nl :: r') : l = l' ∧ r = r' := by
  induction l generalizing l' with
  | nil =>
    cases l' with
    | nil => exact ⟨rfl, (List.cons.inj h).2⟩
    | cons x l' => exact absurd (List.cons.inj h).1 fun hx => hl' (hx ▸ List.mem_cons_self)
  | cons x l ih =>
    cases l' with
    | nil => exact absurd (List.cons.inj h).1.symm fun hx => hl (hx ▸ List.mem_cons_self)
    | cons x' l' =>
      rw [List.mem_cons, not_or] at hl hl'
      obtain ⟨rfl, htail⟩ := List.cons.inj h
      obtain ⟨rfl, hr⟩ := ih hl.2 hl'.2 htail
      exact ⟨rfl, hr⟩

/-- The lines of what has been read of a text: those before a newline, and what comes
after the last newline if there is something. -/
def linesSeen (ls : List (List α)) (rest : List α) : List (List α) :=
  ls ++ if rest = [] then [] else [rest]

variable {vs : List (List α)} {rest u : List α}

omit [DecidableEq α] in
/-- Lines that a text starts with are its first lines. -/
theorem exists_eq_append_of_unlines_append (hls : ∀ l ∈ ls, nl ∉ l) (hvs : ∀ v ∈ vs, nl ∉ v)
    (h : unlines nl ls ++ r = unlines nl vs) : ∃ vs', vs = ls ++ vs' ∧ r = unlines nl vs' := by
  induction ls generalizing vs with
  | nil => exact ⟨vs, rfl, h⟩
  | cons l ls ih =>
    cases vs with
    | nil => simp at h
    | cons v vs =>
      rw [List.forall_mem_cons] at hls hvs
      rw [unlines_cons, unlines_cons, List.append_assoc, List.cons_append] at h
      obtain ⟨rfl, htail⟩ := append_cons_inj hls.1 hvs.1 h
      obtain ⟨vs', rfl, hr⟩ := ih hls.2 hvs.2 htail
      exact ⟨vs', rfl, hr⟩

omit [DecidableEq α] in
/-- A text made of lines is determined by them. -/
theorem eq_of_unlines_eq (hls : ∀ l ∈ ls, nl ∉ l) (hvs : ∀ v ∈ vs, nl ∉ v)
    (h : unlines nl ls = unlines nl vs) : ls = vs := by
  obtain ⟨vs', rfl, hnil⟩ :=
    exists_eq_append_of_unlines_append hls hvs (r := []) (by rw [List.append_nil, h])
  cases vs' with
  | nil => rw [List.append_nil]
  | cons v vs' => simp at hnil

omit [DecidableEq α] in
theorem length_linesSeen_le (hls : ∀ l ∈ ls, nl ∉ l) (hvs : ∀ v ∈ vs, nl ∉ v)
    (h : unlines nl ls ++ rest ++ u = unlines nl vs) :
    (linesSeen ls rest).length ≤ vs.length := by
  rw [List.append_assoc] at h
  obtain ⟨vs', rfl, hrest⟩ := exists_eq_append_of_unlines_append hls hvs h
  rw [linesSeen, List.length_append, List.length_append]
  refine Nat.add_le_add_left ?_ _
  split_ifs with hempty
  · exact Nat.zero_le _
  · cases vs' with
    | nil => simp [hempty] at hrest
    | cons v vs' => simp

omit [DecidableEq α] in
/-- All lines of a text have been seen exactly when the whole text has been read, or all of
it but the newline after a last line that is not empty. -/
theorem linesSeen_eq_iff (hls : ∀ l ∈ ls, nl ∉ l) (hvs : ∀ v ∈ vs, nl ∉ v)
    (hrest : nl ∉ rest) (h : unlines nl ls ++ rest ++ u = unlines nl vs) :
    linesSeen ls rest = vs ↔ u = [] ∨ rest ≠ [] ∧ u = [nl] := by
  by_cases hempty : rest = []
  · subst hempty
    rw [List.append_nil] at h
    rw [linesSeen, if_pos rfl, List.append_nil]
    constructor
    · rintro rfl
      exact Or.inl (by simpa using h)
    · rintro (rfl | ⟨hne, -⟩)
      · exact eq_of_unlines_eq hls hvs (by rw [← h, List.append_nil])
      · exact absurd rfl hne
  · have hseen : linesSeen ls rest = ls ++ [rest] := by rw [linesSeen, if_neg hempty]
    have htext : unlines nl (ls ++ [rest]) = unlines nl ls ++ rest ++ [nl] := by simp
    rw [hseen]
    constructor
    · rintro rfl
      rw [htext] at h
      exact Or.inr ⟨hempty, List.append_cancel_left h⟩
    · rintro (rfl | ⟨-, rfl⟩)
      · -- what has been read last would end in a newline
        rw [List.append_nil] at h
        obtain ⟨vs', rfl, hlast⟩ := exists_eq_append_of_unlines_append hls hvs h
        cases vs' with
        | nil => exact absurd hlast hempty
        | cons v vs' =>
          rw [hlast, unlines_cons] at hrest
          exact absurd (List.mem_append_right v List.mem_cons_self) hrest
      · refine eq_of_unlines_eq (fun l hl => ?_) hvs (htext.trans h)
        rcases List.mem_append.mp hl with hl | hl
        · exact hls l hl
        · rwa [List.mem_singleton.mp hl]

/-! ### Fields -/

/-- The fields of a line, which runs of blanks separate. -/
def fields (blank : α → Bool) (l : List α) : List (List α) :=
  (l.splitOnP blank).filter (· ≠ [])

variable {blank : α → Bool}

omit [DecidableEq α] in
/-- The first field ends at the first blank. -/
theorem fields_append_cons (hl : ∀ c ∈ l, blank c = false) (hne : l ≠ []) {b : α}
    (hb : blank b = true) : fields blank (l ++ b :: r) = l :: fields blank r := by
  rw [fields, List.splitOnP_append_cons_of_forall_mem hl b hb,
    List.filter_cons_of_pos (by simpa using hne), fields]

omit [DecidableEq α] in
/-- What stands between two blanks of a line is made of its other characters. -/
theorem mem_of_mem_splitOnP {f : List α} (hf : f ∈ l.splitOnP blank) :
    ∀ c ∈ f, c ∈ l ∧ blank c = false := by
  induction l generalizing f with
  | nil =>
    rw [List.splitOnP_nil, List.mem_singleton] at hf
    simp [hf]
  | cons a l ih =>
    obtain ⟨head, rest, hsplit⟩ := List.exists_cons_of_ne_nil (List.splitOnP_ne_nil blank l)
    rw [List.splitOnP_cons_eq_if_modifyHead, hsplit] at hf
    have hrest : ∀ f ∈ head :: rest, ∀ c ∈ f, c ∈ a :: l ∧ blank c = false := by
      intro f hf c hc
      have hc := ih (hsplit ▸ hf) c hc
      exact ⟨List.mem_cons_of_mem a hc.1, hc.2⟩
    by_cases ha : blank a = true
    · rw [if_pos ha] at hf
      rcases List.mem_cons.mp hf with rfl | hf
      · simp
      · exact hrest f hf
    · rw [if_neg ha, List.modifyHead_cons] at hf
      rcases List.mem_cons.mp hf with rfl | hf
      · intro c hc
        rcases List.mem_cons.mp hc with rfl | hc
        · exact ⟨List.mem_cons_self, by simpa using ha⟩
        · exact hrest head List.mem_cons_self c hc
      · exact hrest f (List.mem_cons_of_mem head hf)

/-- A part of a text split at a character is made of characters of the text. -/
theorem mem_of_mem_splitOn {a x : α} {f : List α} (hf : f ∈ l.splitOn a) (hx : x ∈ f) : x ∈ l := by
  rw [List.splitOn_eq_splitOnP] at hf
  exact (mem_of_mem_splitOnP hf x hx).1

omit [DecidableEq α] in
theorem mem_intercalate {a x : α} (hx : x ∈ [a].intercalate ls) : x = a ∨ ∃ l ∈ ls, x ∈ l := by
  induction ls with
  | nil => simp at hx
  | cons l ls ih =>
    cases ls with
    | nil => exact Or.inr ⟨l, List.mem_cons_self, by simpa using hx⟩
    | cons l' ls =>
      rw [List.intercalate_cons_cons, List.mem_append, List.mem_append, List.mem_singleton] at hx
      rcases hx with (hx | hx) | hx
      · exact Or.inr ⟨l, List.mem_cons_self, hx⟩
      · exact Or.inl hx
      · refine (ih hx).imp_right fun ⟨m, hm, hx⟩ => ⟨m, List.mem_cons_of_mem l hm, hx⟩

omit [DecidableEq α] in
/-- A field is made of characters of the line that are not blank. -/
theorem mem_of_mem_fields {f : List α} (hf : f ∈ fields blank l) :
    ∀ c ∈ f, c ∈ l ∧ blank c = false :=
  mem_of_mem_splitOnP (List.mem_filter.mp hf).1

/-! ### Taking out a character -/

omit [DecidableEq α] in
private theorem append_singleton_eq_cons_iff {a : α} : l ++ [a] = a :: l ↔ ∀ c ∈ l, c = a := by
  induction l with
  | nil => simp
  | cons x l ih =>
    rw [List.cons_append, List.cons.injEq, List.forall_mem_cons]
    constructor
    · rintro ⟨rfl, htail⟩
      exact ⟨rfl, ih.mp htail⟩
    · rintro ⟨rfl, htail⟩
      exact ⟨rfl, ih.mpr htail⟩

/-- Taking the first `a` out of a line that `a` has been put after gives the line back
exactly when nothing but `a` follows its first `a`. -/
theorem erase_append_singleton_eq_iff {a : α} :
    (l ++ [a]).erase a = l ↔ ∀ c ∈ l.dropWhile (· ≠ a), c = a := by
  induction l with
  | nil => simp
  | cons x l ih =>
    by_cases hx : x = a
    · subst hx
      rw [List.cons_append, List.erase_cons_head, append_singleton_eq_cons_iff]
      simp
    · rw [List.cons_append, List.erase_cons_tail (by simpa using hx), List.cons.injEq,
        List.dropWhile_cons_of_pos (by simpa using hx), ← ih]
      simp

/-! ### Universal newlines -/

/-- The text that a reader with universal newlines sees, after a carriage return or not. -/
def universalNewlines (cr nl : α) : Bool → List α → List α
  | _, [] => []
  | afterCr, c :: l =>
    if c = cr then nl :: universalNewlines cr nl true l
    else if c = nl ∧ afterCr then universalNewlines cr nl false l
    else c :: universalNewlines cr nl false l

variable {afterCr : Bool}

theorem universalNewlines_eq_self (h : cr ∉ l) : universalNewlines cr nl false l = l := by
  induction l with
  | nil => rfl
  | cons c l ih =>
    rw [List.mem_cons, not_or] at h
    rw [universalNewlines, if_neg (Ne.symm h.1), if_neg (by simp), ih h.2]

/-- A newline is a newline whatever follows. -/
theorem universalNewlines_append_cons (hcr : cr ≠ nl) :
    universalNewlines cr nl afterCr (l ++ nl :: r) =
      universalNewlines cr nl afterCr (l ++ [nl]) ++ universalNewlines cr nl false r := by
  induction l generalizing afterCr with
  | nil => cases afterCr <;> simp [universalNewlines, hcr.symm]
  | cons c l ih =>
    simp only [List.cons_append, universalNewlines, ih]
    split_ifs <;> rfl

/-- What ends in a newline is seen to end in a newline. -/
theorem exists_universalNewlines_eq (hcr : cr ≠ nl) (h : afterCr = false ∨ l ≠ []) :
    ∃ r, universalNewlines cr nl afterCr (l ++ [nl]) = r ++ [nl] := by
  induction l generalizing afterCr with
  | nil =>
    obtain rfl := h.resolve_right (by simp)
    exact ⟨[], by simp [universalNewlines, hcr.symm]⟩
  | cons c l ih =>
    rw [List.cons_append, universalNewlines]
    split_ifs with hc hc'
    · by_cases hl : l = []
      · subst hl
        exact ⟨[], by simp [universalNewlines, hcr.symm]⟩
      · obtain ⟨r, hr⟩ : ∃ r, universalNewlines cr nl true (l ++ [nl]) = r ++ [nl] :=
          ih (Or.inr hl)
        exact ⟨nl :: r, by rw [hr, List.cons_append]⟩
    · exact ih (Or.inl rfl)
    · obtain ⟨r, hr⟩ : ∃ r, universalNewlines cr nl false (l ++ [nl]) = r ++ [nl] :=
        ih (Or.inl rfl)
      exact ⟨c :: r, by rw [hr, List.cons_append]⟩

/-- No carriage return is left. -/
theorem notMem_universalNewlines (hcr : cr ≠ nl) : cr ∉ universalNewlines cr nl afterCr l := by
  induction l generalizing afterCr with
  | nil => simp [universalNewlines]
  | cons c l ih =>
    rw [universalNewlines]
    split_ifs with hc
    · simp [ih, hcr]
    · exact ih
    · simp [ih, Ne.symm hc]

/-- Every character but a newline is one of the text. -/
theorem mem_of_mem_universalNewlines {x : α} (hx : x ∈ universalNewlines cr nl afterCr l)
    (hne : x ≠ nl) : x ∈ l := by
  induction l generalizing afterCr with
  | nil => simp [universalNewlines] at hx
  | cons c l ih =>
    rw [universalNewlines] at hx
    split_ifs at hx
    · exact List.mem_cons_of_mem c (ih ((List.mem_cons.mp hx).resolve_left hne))
    · exact List.mem_cons_of_mem c (ih hx)
    · rcases List.mem_cons.mp hx with rfl | hx
      · exact List.mem_cons_self
      · exact List.mem_cons_of_mem c (ih hx)

/-- What reads as one line is that line or has a carriage return at its end. -/
theorem eq_or_eq_of_universalNewlines (hl : nl ∉ l) (hr : nl ∉ r)
    (h : universalNewlines cr nl false (l ++ [nl]) = r ++ [nl]) : l = r ∨ l = r ++ [cr] := by
  induction l generalizing r with
  | nil =>
    left
    by_cases hcr : nl = cr <;> simp_all [universalNewlines]
  | cons c l ih =>
    rw [List.mem_cons, not_or] at hl
    rw [List.cons_append, universalNewlines] at h
    split_ifs at h with hc hc'
    · -- the newline in its place is the only one
      right
      subst hc
      obtain rfl : r = [] := by
        cases r with
        | nil => rfl
        | cons x r => simp_all
      cases l with
      | nil => rfl
      | cons d l =>
        have hd : ¬ d = nl := fun hd => hl.2 (hd ▸ List.mem_cons_self)
        by_cases hdc : d = c <;> simp [universalNewlines, hd, hdc] at h
    · exact absurd hc'.2 (by simp)
    · cases r with
      | nil =>
        exact absurd (List.cons.inj h).1 (Ne.symm hl.1)
      | cons x r =>
        rw [List.mem_cons, not_or] at hr
        obtain ⟨rfl, htail⟩ := List.cons.inj h
        rcases ih hl.2 hr.2 htail with rfl | rfl
        · exact Or.inl rfl
        · exact Or.inr rfl

/-! ### Pieces -/

/-- Nonempty pieces make up one item each exactly when each piece is its item. -/
theorem flatMap_eq_map_iff {β γ : Type*} {f : β → List γ} {g : β → γ} {xs : List β}
    (hf : ∀ x ∈ xs, f x ≠ []) : xs.flatMap f = xs.map g ↔ ∀ x ∈ xs, f x = [g x] := by
  induction xs with
  | nil => simp
  | cons x xs ih =>
    rw [List.forall_mem_cons] at hf
    obtain ⟨y, ys, hx⟩ := List.exists_cons_of_ne_nil hf.1
    have hlength : xs.length ≤ (xs.flatMap f).length := by
      rw [List.length_flatMap, ← List.length_map (fun x => (f x).length)]
      apply List.length_le_sum_of_one_le _
      intro i hi
      obtain ⟨x, hx, rfl⟩ := List.mem_map.mp hi
      exact List.length_pos_of_ne_nil (hf.2 x hx)
    rw [List.flatMap_cons, List.map_cons, List.forall_mem_cons, ← ih hf.2, hx,
      List.cons_append, List.cons.injEq, List.cons.injEq]
    constructor
    · rintro ⟨hy, hrest⟩
      have hys : ys = [] := by
        have := congrArg List.length hrest
        rw [List.length_append, List.length_map] at this
        exact List.length_eq_zero_iff.mp (by omega)
      subst hys
      exact ⟨⟨hy, rfl⟩, hrest⟩
    · rintro ⟨⟨hy, rfl⟩, hrest⟩
      exact ⟨hy, hrest⟩

end Sisop.Foundations.Text
