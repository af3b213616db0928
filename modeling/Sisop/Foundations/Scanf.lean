import Mathlib.Data.List.DropRight
import Mathlib.Data.List.TakeWhile
import Sisop.Foundations.Decimal

/-!
# Formatted input

`fscanf` goes through the directives of a format. White space skips blanks. A string
conversion skips blanks and takes characters up to the next blank, but no more than its
width. A number conversion skips blanks and takes a sign and digits. A conversion that
finds no input, or no number, ends the call; what it has read by then stays read, and the
next call goes on from there.

## Main definitions

* `Scanf.Directive` — the directives: white space, `%s` with or without a width and an
  assignment, and `%*d`
* `Scanf.fscanf` — a call: what it returns and assigns, and the input left

## Main results

* `Scanf.run_string`, `Scanf.run_number` — a conversion at the start of a word
* `Scanf.run_suppressed` — what the directives that assign nothing leave as it is
* `Scanf.Behind.rest_run` — number conversions stop where no number is
* `Scanf.length_rest_lt` — a call that starts with a string conversion gets on
-/

namespace Sisop.Foundations.Scanf

open Decimal

/-- A directive of a format. -/
inductive Directive
  | blanks
  | string (width : Option ℕ) (assign : Bool)
  | number
  deriving DecidableEq

/-- What a call returns, the strings it assigns, and the input it leaves. -/
structure Result where
  ret : ℤ
  assigned : List (List Char)
  rest : List Char
  deriving DecidableEq

/-- The input after its blanks. -/
def skip (input : List Char) : List Char := input.dropWhile isSpace

/-- As much of a word as a string conversion takes. -/
def cut (width : Option ℕ) (word : List Char) : List Char :=
  match width with
  | none => word
  | some n => word.take n

/-- The input after a sign. -/
def dropSign : List Char → List Char
  | [] => []
  | c :: rest => if c = '-' ∨ c = '+' then rest else c :: rest

/-- The directives still to come, when some conversion has been completed or none, and some
strings have been assigned. The end of the input before the first conversion is complete
counts as -1, that is `EOF`. -/
def run : List Directive → Bool → List (List Char) → List Char → Result
  | [], _, assigned, input => ⟨assigned.length, assigned, input⟩
  | .blanks :: format, converted, assigned, input => run format converted assigned (skip input)
  | .string width assign :: format, converted, assigned, input =>
    if skip input = [] then ⟨if converted then assigned.length else -1, assigned, []⟩
    else
      let item := cut width ((skip input).takeWhile (!isSpace ·))
      run format true (if assign then assigned ++ [item] else assigned)
        ((skip input).drop item.length)
  | .number :: format, converted, assigned, input =>
    if skip input = [] then ⟨if converted then assigned.length else -1, assigned, []⟩
    else
      let digits := dropSign (skip input)
      -- without digits the sign has been read nevertheless
      if digits.takeWhile Char.isDigit = [] then ⟨assigned.length, assigned, digits⟩
      else run format true assigned (digits.dropWhile Char.isDigit)

/-- Whether a directive assigns a string. -/
def Directive.assigns : Directive → Bool
  | .string _ assign => assign
  | _ => false

/-- A call of `fscanf`. -/
def fscanf (format : List Directive) (input : List Char) : Result := run format false [] input

variable {d : Directive} {format : List Directive} {converted assign : Bool}
  {assigned : List (List Char)} {input rest word : List Char} {width : Option ℕ} {c : Char}

/-! ### Blanks -/

theorem isSpace_space : isSpace ' ' = true := by decide

theorem isSpace_newline : isSpace '\n' = true := by decide

theorem skip_cons (hc : isSpace c = true) : skip (c :: input) = skip input :=
  List.dropWhile_cons_of_pos hc

theorem skip_skip (input : List Char) : skip (skip input) = skip input :=
  List.dropWhile_idempotent isSpace input

/-- Blanks before a directive are skipped. -/
theorem run_cons_blank (hc : isSpace c = true) :
    run (d :: format) converted assigned (c :: input) =
      run (d :: format) converted assigned input := by
  cases d with
  | blanks => rw [run, run, skip_cons hc]
  | string width assign => rw [run, run, skip_cons hc]
  | number => rw [run, run, skip_cons hc]

/-- White space in front of another directive does nothing. -/
theorem run_blanks_cons : run (.blanks :: d :: format) converted assigned input =
    run (d :: format) converted assigned input := by
  cases d with
  | blanks => rw [run, run, run, skip_skip]
  | string width assign => rw [run, run, run, skip_skip]
  | number => rw [run, run, run, skip_skip]

/-- Blanks at the start of the input do not matter to a conversion. -/
theorem run_string_congr (h : skip input = skip rest) :
    run (.string width assign :: format) converted assigned input =
      run (.string width assign :: format) converted assigned rest := by
  rw [run, run, h]

/-! ### What is assigned -/

/-- Strings once assigned stay assigned. -/
theorem isPrefix_assigned (format : List Directive) (converted : Bool)
    (assigned : List (List Char)) (input : List Char) :
    assigned <+: (run format converted assigned input).assigned := by
  fun_induction run format converted assigned input with
  | case1 _ assigned => exact List.prefix_refl assigned
  | case2 _ _ _ _ ih => exact ih
  | case3 _ _ _ _ assigned => exact List.prefix_refl assigned
  | case4 _ assign _ _ assigned _ _ item ih =>
    refine List.IsPrefix.trans ?_ ih
    cases assign with
    | false => exact List.prefix_refl assigned
    | true => exact List.prefix_append assigned [item]
  | case5 _ _ assigned => exact List.prefix_refl assigned
  | case6 _ _ assigned => exact List.prefix_refl assigned
  | case7 _ _ _ _ _ _ _ ih => exact ih

/-- Once a conversion is complete, directives that assign nothing change neither what the
call returns nor what it assigns. -/
theorem run_suppressed (h : ∀ d ∈ format, d.assigns = false) (assigned : List (List Char))
    (input : List Char) :
    ∃ rest, run format true assigned input = ⟨assigned.length, assigned, rest⟩ := by
  induction format generalizing input with
  | nil => exact ⟨input, rfl⟩
  | cons d format ih =>
    have ih := ih fun d hd => h d (List.mem_cons_of_mem _ hd)
    have hd := h d List.mem_cons_self
    cases d with
    | blanks => exact ih _
    | string width assign =>
      obtain rfl : assign = false := hd
      rw [run]
      by_cases hinput : skip input = []
      · exact ⟨[], by rw [if_pos hinput]; rfl⟩
      · rw [if_neg hinput]
        exact ih _
    | number =>
      rw [run]
      by_cases hinput : skip input = []
      · exact ⟨[], by rw [if_pos hinput]; rfl⟩
      · rw [if_neg hinput]
        simp only
        split_ifs with hnumber
        · exact ⟨_, rfl⟩
        · exact ih _

/-- A string conversion ends the call or goes on. -/
theorem run_string_cases (width : Option ℕ) (assign : Bool) (format : List Directive)
    (converted : Bool) (assigned : List (List Char)) (input : List Char) :
    (run (.string width assign :: format) converted assigned input).assigned = assigned ∨
      ∃ word rest, run (.string width assign :: format) converted assigned input =
        run format true (if assign then assigned ++ [cut width word] else assigned) rest := by
  rw [run]
  by_cases hinput : skip input = []
  · exact Or.inl (by rw [if_pos hinput])
  · exact Or.inr ⟨_, _, if_neg hinput⟩

/-! ### Words -/

/-- A word: characters without a blank, and at least one. -/
structure IsWord (word : List Char) : Prop where
  ne_nil : word ≠ []
  no_blank : ∀ c ∈ word, isSpace c = false

theorem isWord_iff : IsWord word ↔ word ≠ [] ∧ word.all (!isSpace ·) = true := by
  constructor
  · intro h
    exact ⟨h.ne_nil, List.all_eq_true.mpr fun c hc => by simp [h.no_blank c hc]⟩
  · rintro ⟨hne, hall⟩
    exact ⟨hne, fun c hc => by simpa using List.all_eq_true.mp hall c hc⟩

instance : DecidablePred IsWord := fun _ => decidable_of_iff _ isWord_iff.symm

/-- No word goes on at the start of the input. -/
def Ends (rest : List Char) : Prop := ∀ c ∈ rest.head?, isSpace c = true

theorem ends_cons (hc : isSpace c = true) : Ends (c :: rest) := by
  intro a ha
  obtain rfl := Option.mem_some_iff.mp ha
  exact hc

theorem IsWord.skip_append (h : IsWord word) (rest : List Char) :
    skip (word ++ rest) = word ++ rest := by
  cases word with
  | nil => exact absurd rfl h.ne_nil
  | cons c l => exact List.dropWhile_cons_of_neg (by simp [h.no_blank c])

theorem IsWord.takeWhile_append (h : IsWord word) (hrest : Ends rest) :
    (word ++ rest).takeWhile (!isSpace ·) = word := by
  rw [List.takeWhile_append_of_pos fun c hc => by simp [h.no_blank c hc]]
  cases rest with
  | nil => simp
  | cons c l => simp [hrest c rfl]

/-- A string conversion at the start of a word takes as much of it as its width allows. -/
theorem run_string (h : IsWord word) (hrest : Ends rest) :
    run (.string width assign :: format) converted assigned (word ++ rest) =
      run format true (if assign then assigned ++ [cut width word] else assigned)
        (word.drop (cut width word).length ++ rest) := by
  have hne : word ++ rest ≠ [] := by simp [h.ne_nil]
  have hle : (cut width word).length ≤ word.length := by
    cases width with
    | none => exact le_rfl
    | some n => exact List.length_take_le' n word
  rw [run, h.skip_append, if_neg hne, h.takeWhile_append hrest]
  simp only
  rw [List.drop_append_of_le_length hle]

/-- A string conversion that takes a whole word goes on after the blank that follows it. -/
theorem run_field (h : IsWord word) (hcut : cut width word = word) (hc : isSpace c = true) :
    run (.string width assign :: .blanks :: d :: format) converted assigned
        (word ++ c :: rest) =
      run (d :: format) true (if assign then assigned ++ [word] else assigned) rest := by
  rw [run_string h (ends_cons hc), hcut, List.drop_length, List.nil_append, run_blanks_cons,
    run_cons_blank hc]

/-- What is left of a word is a word or nothing. -/
theorem IsWord.drop (h : IsWord word) {n : ℕ} (hn : n < word.length) : IsWord (word.drop n) where
  ne_nil := by simpa using hn
  no_blank c hc := h.no_blank c (List.mem_of_mem_drop hc)

/-! ### Numbers -/

theorem isDigit_eq_false_of_isSpace (hc : isSpace c = true) : c.isDigit = false := by
  rw [Bool.eq_false_iff, Ne, Char.isDigit_iff_toNat]
  rintro ⟨hlow, -⟩
  have hzero : '0'.toNat = 48 := rfl
  simp only [isSpace, decide_eq_true_eq] at hc
  rcases hc with rfl | hc
  · exact absurd hlow (by decide)
  · omega

theorem dropSign_append (h : word ≠ []) (rest : List Char) :
    dropSign (word ++ rest) = dropSign word ++ rest := by
  cases word with
  | nil => exact absurd rfl h
  | cons c l =>
    rw [List.cons_append, dropSign, dropSign]
    split_ifs <;> rfl

/-- Digits end where a word does. -/
theorem Ends.takeWhile_append (h : Ends rest) (l : List Char) :
    (l ++ rest).takeWhile Char.isDigit = l.takeWhile Char.isDigit ∧
      (l ++ rest).dropWhile Char.isDigit = l.dropWhile Char.isDigit ++ rest := by
  induction l with
  | nil =>
    cases rest with
    | nil => exact ⟨rfl, rfl⟩
    | cons c l =>
      have hc := isDigit_eq_false_of_isSpace (h c rfl)
      simp [hc]
  | cons c l ih =>
    by_cases hc : c.isDigit = true
    · simp [hc, ih.1, ih.2]
    · simp [hc]

/-- A number conversion at the start of a word takes the number that the word starts with.
Without one it fails after the sign. -/
theorem run_number (h : IsWord word) (hrest : Ends rest) :
    run (.number :: format) converted assigned (word ++ rest) =
      if (dropSign word).takeWhile Char.isDigit = [] then
        ⟨assigned.length, assigned, dropSign word ++ rest⟩
      else run format true assigned ((dropSign word).dropWhile Char.isDigit ++ rest) := by
  have hne : word ++ rest ≠ [] := by simp [h.ne_nil]
  obtain ⟨htake, hdrop⟩ := hrest.takeWhile_append (dropSign word)
  rw [run, h.skip_append, if_neg hne, dropSign_append h.ne_nil]
  simp only [htake, hdrop]

/-- A decimal number, with or without a sign. -/
structure IsNumber (word : List Char) : Prop extends IsWord word where
  digits_ne_nil : dropSign word ≠ []
  digits : ∀ c ∈ dropSign word, c.isDigit = true

theorem isNumber_iff : IsNumber word ↔
    IsWord word ∧ dropSign word ≠ [] ∧ (dropSign word).all Char.isDigit = true := by
  constructor
  · intro h
    exact ⟨h.toIsWord, h.digits_ne_nil, List.all_eq_true.mpr h.digits⟩
  · rintro ⟨hword, hne, hall⟩
    exact ⟨hword, hne, List.all_eq_true.mp hall⟩

instance : DecidablePred IsNumber := fun _ => decidable_of_iff _ isNumber_iff.symm

/-- A number conversion takes a number. -/
theorem run_isNumber (h : IsNumber word) (hrest : Ends rest) :
    run (.number :: format) converted assigned (word ++ rest) =
      run format true assigned rest := by
  have htake : (dropSign word).takeWhile Char.isDigit = dropSign word :=
    List.takeWhile_eq_self_iff.mpr h.digits
  have hdrop : (dropSign word).dropWhile Char.isDigit = [] :=
    List.dropWhile_eq_nil_iff.mpr h.digits
  rw [run_number h.toIsWord hrest, htake, hdrop, if_neg h.digits_ne_nil]
  rfl

/-! ### Where numbers stop -/

/-- The input goes on with what may be left of a word, a blank and the given text. -/
def Behind (text input : List Char) : Prop :=
  ∃ word, (∀ a ∈ word, isSpace a = false) ∧ skip input = skip (word ++ ' ' :: text)

theorem Behind.of_word (h : ∀ a ∈ word, isSpace a = false) :
    Behind rest (word ++ ' ' :: rest) := ⟨word, h, rfl⟩

theorem mem_dropSign {a : Char} (ha : a ∈ dropSign word) : a ∈ word := by
  cases word with
  | nil => exact ha
  | cons b l =>
    rw [dropSign] at ha
    split_ifs at ha
    · exact List.mem_cons_of_mem b ha
    · exact ha

theorem Behind.of_skip_eq (h : skip input = c :: rest) :
    Behind (c :: rest) input := by
  refine ⟨[], fun a ha => absurd ha List.not_mem_nil, ?_⟩
  rw [List.nil_append, skip_cons isSpace_space, ← h, skip_skip]

theorem Behind.skip_eq (hspace : isSpace c = false) (h : Behind (c :: rest) input) :
    skip input = c :: rest ∨ ∃ word, IsWord word ∧ skip input = word ++ ' ' :: c :: rest := by
  obtain ⟨word, hword, hinput⟩ := h
  rw [hinput]
  cases word with
  | nil =>
    left
    rw [List.nil_append, skip_cons isSpace_space]
    exact List.dropWhile_cons_of_neg (by simp [hspace])
  | cons b l =>
    have hisWord : IsWord (b :: l) := ⟨List.cons_ne_nil b l, hword⟩
    exact Or.inr ⟨b :: l, hisWord, hisWord.skip_append _⟩

/-- Number conversions do not get into a text that starts with neither a sign nor a
digit. -/
theorem Behind.rest_run (hspace : isSpace c = false) (hsign : ¬(c = '-' ∨ c = '+'))
    (hdigit : c.isDigit = false) (hformat : ∀ d ∈ format, d = .blanks ∨ d = .number)
    (h : Behind (c :: rest) input) :
    Behind (c :: rest) (run format converted assigned input).rest := by
  have hdropSign : dropSign (c :: rest) = c :: rest := if_neg hsign
  fun_induction run format converted assigned input with
  | case1 => exact h
  | case2 format _ _ input ih =>
    obtain ⟨word, hword, hinput⟩ := h
    exact ih (fun d hd => hformat d (List.mem_cons_of_mem _ hd))
      ⟨word, hword, by rw [skip_skip, hinput]⟩
  | case3 => simpa using hformat _ List.mem_cons_self
  | case4 => simpa using hformat _ List.mem_cons_self
  | case5 format _ _ input hnil =>
    obtain hstart | ⟨word, -, hstart⟩ := h.skip_eq hspace
    · exact absurd (hstart.symm.trans hnil) (List.cons_ne_nil c rest)
    · exact absurd (hstart.symm.trans hnil) (by simp)
  | case6 format _ _ input _ digits _ =>
    obtain hstart | ⟨word, hword, hstart⟩ := h.skip_eq hspace
    · refine Behind.of_skip_eq ?_
      simp only [digits, hstart, hdropSign]
      exact List.dropWhile_cons_of_neg (by simp [hspace])
    · simp only [digits, hstart, dropSign_append hword.ne_nil]
      exact Behind.of_word fun a ha => hword.no_blank a (mem_dropSign ha)
  | case7 format _ _ input _ digits hnumber ih =>
    refine ih (fun d hd => hformat d (List.mem_cons_of_mem _ hd)) ?_
    obtain hstart | ⟨word, hword, hstart⟩ := h.skip_eq hspace
    -- the text itself starts with no number
    · simp only [digits, hstart, hdropSign] at hnumber
      exact absurd (List.takeWhile_cons_of_neg (by simp [hdigit])) hnumber
    · simp only [digits, hstart, dropSign_append hword.ne_nil]
      rw [((ends_cons isSpace_space).takeWhile_append (dropSign word)).2]
      exact Behind.of_word fun a ha =>
        hword.no_blank a (mem_dropSign ((List.dropWhile_suffix _).subset ha))

/-! ### The input left -/

/-- What follows the blanks starts with no blank. -/
theorem isSpace_of_skip_eq_cons (h : skip input = c :: rest) : isSpace c = false := by
  have hne : input.dropWhile isSpace ≠ [] := by
    rw [show input.dropWhile isSpace = c :: rest from h]
    exact List.cons_ne_nil c rest
  have hhead : ((input.dropWhile isSpace).head hne) = c := by
    simp only [show input.dropWhile isSpace = c :: rest from h, List.head_cons]
  rw [← hhead]
  exact List.head_dropWhile_not isSpace hne

theorem length_skip_le (input : List Char) : (skip input).length ≤ input.length :=
  List.length_dropWhile_le isSpace input

theorem length_dropSign_le (input : List Char) : (dropSign input).length ≤ input.length := by
  cases input with
  | nil => exact le_rfl
  | cons c l =>
    rw [dropSign]
    split_ifs
    · exact Nat.le_succ _
    · exact le_rfl

/-- A call leaves no more input than it finds. -/
theorem length_rest_le (format : List Directive) (converted : Bool)
    (assigned : List (List Char)) (input : List Char) :
    (run format converted assigned input).rest.length ≤ input.length := by
  fun_induction run format converted assigned input with
  | case1 => exact le_rfl
  | case2 _ _ _ input ih => exact ih.trans (length_skip_le input)
  | case3 => exact Nat.zero_le _
  | case4 _ _ _ _ _ input _ item ih =>
    refine ih.trans ?_
    rw [List.length_drop]
    exact (Nat.sub_le _ _).trans (length_skip_le input)
  | case5 => exact Nat.zero_le _
  | case6 _ _ _ input _ digits => exact (length_dropSign_le _).trans (length_skip_le input)
  | case7 _ _ _ input _ digits _ ih =>
    have hdigits : (digits.dropWhile Char.isDigit).length ≤ digits.length :=
      List.length_dropWhile_le Char.isDigit digits
    exact ih.trans (hdigits.trans ((length_dropSign_le _).trans (length_skip_le input)))

/-- A call whose first conversion is of strings without a width finds the end of the input,
or leaves less of it. -/
theorem length_rest_lt (assign : Bool) (format : List Directive) (input : List Char) :
    (fscanf (.string none assign :: format) input).ret = -1 ∨
      (fscanf (.string none assign :: format) input).rest.length < input.length := by
  rw [fscanf, run]
  by_cases hinput : skip input = []
  · rw [if_pos hinput]
    exact Or.inl rfl
  · right
    rw [if_neg hinput]
    have hskip := length_skip_le input
    cases hstart : skip input with
    | nil => exact absurd hstart hinput
    | cons c l =>
      have hc : isSpace c = false := isSpace_of_skip_eq_cons hstart
      have hword : (c :: l).takeWhile (!isSpace ·) = c :: l.takeWhile (!isSpace ·) :=
        List.takeWhile_cons_of_pos (by simp [hc])
      refine (length_rest_le _ _ _ _).trans_lt ?_
      rw [hstart, List.length_cons] at hskip
      rw [hword, cut, List.length_drop, List.length_cons, List.length_cons]
      omega

end Sisop.Foundations.Scanf
