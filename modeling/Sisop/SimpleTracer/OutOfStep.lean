import Sisop.SimpleTracer.Mounts

/-!
# Mount tables read out of step

A field that is longer than the width of its conversion is read in two parts. The call
still assigns two strings, but it ends inside the line, and what the calls after it take
for a mount point and a type depends on all that follows. So for every line that does not
fit there is one with the same mount point and type, and a line to follow it, after which
the answer is wrong.

## Main definitions

* `Mount.rogue` — the line with options that a later call may take for a mount point

## Main results

* `Correct.fits` — what is needed for the answer to be right
* `fscanf_of_tooLong` — where a call on a line that does not fit ends
* `scanMounts_behind` — a loop that goes on from there finds a type that is not in the table
* `correct_of_readable` — readable tables are read correctly, and mount points and types
  that do not fit are not
-/

namespace Sisop.SimpleTracer

open Foundations CString Decimal Scanf

variable {m : Mount} {table before after : List Mount} {tracefs type input rest : List Char}
  {path : List Char}

/-! ### What is needed of every table -/

/-- The first string a call assigns fits `tracefs`. -/
theorem length_assigned_le (h : path ∈ (fscanf mountFormat input).assigned[0]?) :
    path.length ≤ maxPath := by
  have hformat : mountFormat =
      .string none false :: .blanks :: .string (some maxPath) true :: mountFormat.drop 3 := rfl
  rw [fscanf, hformat] at h
  obtain hdevice | ⟨_, rest, hdevice⟩ := run_string_cases none false
    (.blanks :: .string (some maxPath) true :: mountFormat.drop 3) false [] input
  · rw [hdevice] at h
    exact absurd h (by simp)
  rw [hdevice, run_blanks_cons] at h
  obtain hpath | ⟨word, rest, hpath⟩ :=
    run_string_cases (some maxPath) true (mountFormat.drop 3) true [] rest
  · rw [if_neg Bool.false_ne_true, hpath] at h
    exact absurd h (by simp)
  rw [if_neg Bool.false_ne_true, hpath, if_pos rfl, List.nil_append] at h
  -- what is assigned later comes after it
  obtain ⟨later, hassigned⟩ :=
    isPrefix_assigned (mountFormat.drop 3) true [cut (some maxPath) word] rest
  rw [← hassigned] at h
  obtain rfl : cut (some maxPath) word = path := by simpa using h
  exact List.length_take_le maxPath word

/-- What the loop leaves in `tracefs` fits there. -/
theorem length_scanMounts_le (h : tracefs.length ≤ maxPath) :
    (scanMounts tracefs type input).1.length ≤ maxPath := by
  have hcall : ∀ {tracefs : List Char} (input), tracefs.length ≤ maxPath →
      ((fscanf mountFormat input).assigned[0]?.getD tracefs).length ≤ maxPath := by
    intro tracefs input h
    cases hassigned : (fscanf mountFormat input).assigned[0]? with
    | none => exact h
    | some path => exact length_assigned_le hassigned
  fun_induction scanMounts tracefs type input with
  | case1 => exact hcall _ h
  | case2 _ _ _ _ _ _ _ _ ih => exact ih (hcall _ h)
  | case3 => exact hcall _ h

/-- The first line of type `tracefs` of a table that is read correctly fits, and its mount
point goes on to its end as a string. -/
theorem Correct.fits (h : Correct table) (hm : table.find? (·.IsTracefs) = some m) :
    m.Fits ∧ m.Plain := by
  have hfound := h []
  have hexpected : tracefsMount table = some m.mountPoint := by rw [tracefsMount, hm]; rfl
  have htracefs : m.IsTracefs := by simpa using List.find?_some hm
  have htracefs : m.type = tracefsType := htracefs
  by_cases htype : cString nul (scanMounts init.tracefs [] (text table)).2 = tracefsType
  · rw [findTracefs_of_eq rfl htype, hexpected] at hfound
    have hpath := Option.some.inj hfound
    refine ⟨⟨?_, ?_⟩, ?_, ?_⟩
    · rw [← hpath]
      exact (List.takeWhile_prefix _).length_le.trans (length_scanMounts_le (Nat.zero_le _))
    · rw [htracefs]
      decide +kernel
    · rw [← hpath]
      exact notMem_cString nul _
    · rw [htracefs]
      decide +kernel
  · rw [findTracefs_of_ne rfl htype, hexpected] at hfound
    exact absurd hfound (by simp)

/-! ### A line that does not fit -/

/-- The directives after the strings. -/
def numbers : List Directive := [.number, .blanks, .number, .blanks]

/-- The numbers stop before a text that starts with a letter, whatever is left of the
fields in front of it. -/
theorem run_numbers (first second : List Char) (h : Behind ('x' :: rest) input) :
    ∃ left, Behind ('x' :: rest) left ∧
      run numbers true [first, second] input = ⟨2, [first, second], left⟩ := by
  obtain ⟨left, hleft⟩ :=
    run_suppressed (by decide : ∀ d ∈ numbers, d.assigns = false) [first, second] input
  have hbehind : Behind ('x' :: rest) (run numbers true [first, second] input).rest :=
    h.rest_run (by decide) (by decide) (by decide) (by decide)
  rw [hleft] at hbehind
  exact ⟨left, hbehind, hleft⟩

/-- A call on a line that does not fit assigns two strings and stops before the text after
the type, if that starts with a letter. -/
theorem fscanf_of_tooLong (hlong : maxPath < m.mountPoint.length ∨ 99 < m.type.length)
    (rest : List Char) :
    ∃ first second left, Behind ('x' :: rest) left ∧
      fscanf mountFormat (m.device ++ ' ' :: (m.mountPoint ++ ' ' :: (m.type ++ ' ' ::
        'x' :: rest))) = ⟨2, [first, second], left⟩ := by
  have hends : ∀ text, Ends (' ' :: text) := fun text => ends_cons isSpace_space
  have hletter : Behind ('x' :: rest) ('x' :: rest) := Behind.of_skip_eq rfl
  rw [fscanf, mountFormat, run_field m.isWord_device rfl isSpace_space]
  by_cases hmountPoint : m.mountPoint.length ≤ maxPath
  -- the options' conversion takes what is left of the type
  · have htype := hlong.resolve_left (not_lt.mpr hmountPoint)
    have hcut : (cut (some 99) m.type).length < m.type.length := by
      rw [cut, List.length_take_of_le htype.le]
      exact htype
    rw [run_field m.isWord_mountPoint (cut_some_of_le hmountPoint) isSpace_space,
      run_string m.isWord_type (hends _), run_blanks_cons,
      run_field (m.isWord_type.drop hcut) rfl isSpace_space]
    exact ⟨_, _, run_numbers m.mountPoint (cut (some 99) m.type) hletter⟩
  -- the type's conversion takes more of the mount point
  · have hcut : (cut (some maxPath) m.mountPoint).length < m.mountPoint.length := by
      rw [cut, List.length_take_of_le (not_le.mp hmountPoint).le]
      exact not_le.mp hmountPoint
    have hword := m.isWord_mountPoint.drop hcut
    rw [run_string m.isWord_mountPoint (hends _), run_blanks_cons, run_string hword (hends _)]
    generalize m.mountPoint.drop (cut (some maxPath) m.mountPoint).length = word at *
    by_cases hend : word.drop (cut (some 99) word).length = []
    · rw [hend, List.nil_append (' ' :: _), run_blanks_cons, run_cons_blank isSpace_space,
        run_field m.isWord_type rfl isSpace_space]
      exact ⟨_, _, run_numbers (cut (some maxPath) m.mountPoint) (cut (some 99) word) hletter⟩
    · rw [run_blanks_cons, run_field (hword.drop (by simpa using hend)) rfl isSpace_space]
      exact ⟨_, _, run_numbers (cut (some maxPath) m.mountPoint) (cut (some 99) word)
        (Behind.of_word m.isWord_type.no_blank)⟩

/-- Options that a conversion of a mount point and the next one read as two strings, the
second of them `tracefs`. -/
def rogueOptions : List Char := List.replicate maxPath 'x' ++ tracefsType

theorem isWord_tracefsType : IsWord tracefsType := by decide +kernel

theorem isWord_rogueOptions : IsWord rogueOptions where
  ne_nil := List.cons_ne_nil _ _
  no_blank c hc := by
    obtain hc | hc := List.mem_append.mp hc
    · rw [List.eq_of_mem_replicate hc]
      decide
    · exact isWord_tracefsType.no_blank c hc

theorem isNumber_zero : IsNumber ['0'] := by decide +kernel

/-- A line of the same mount point and type. -/
def Mount.rogue (m : Mount) : Mount :=
  { m with
    options := rogueOptions
    dump := ['0']
    pass := ['0']
    isWord_options := isWord_rogueOptions
    isNumber_dump := isNumber_zero
    isNumber_pass := isNumber_zero }

/-- A line of another type that has `tracefs` for its options. -/
def procMount : Mount where
  device := "d".toList
  mountPoint := "/".toList
  type := "proc".toList
  options := tracefsType
  dump := ['0']
  pass := ['0']
  isWord_device := by decide +kernel
  isWord_mountPoint := by decide +kernel
  isWord_type := by decide +kernel
  isWord_options := isWord_tracefsType
  isNumber_dump := isNumber_zero
  isNumber_pass := isNumber_zero

/-- What follows the options. -/
def rogueRest : List Char := "0 0\nd / proc tracefs 0 0\n".toList

/-- Behind a line that does not fit the loop finds the type, whether the next call takes the
options for a device or for a mount point and a type. -/
theorem scanMounts_behind (h : Behind (rogueOptions ++ ' ' :: rogueRest) input) :
    cString nul (scanMounts tracefs type input).2 = tracefsType := by
  have hname : cString nul tracefsType = tracefsType := by decide +kernel
  have hcall : ∀ {text : List Char}, skip input = text → skip text = text →
      fscanf mountFormat input = fscanf mountFormat text :=
    fun hinput htext => run_string_congr (hinput.trans htext.symm)
  have hcases : skip input = rogueOptions ++ ' ' :: rogueRest ∨ ∃ word, IsWord word ∧
      skip input = word ++ ' ' :: (rogueOptions ++ ' ' :: rogueRest) :=
    Behind.skip_eq (by decide : isSpace 'x' = false) h
  obtain hinput | ⟨word, hword, hinput⟩ := hcases
  -- the lines are out of step, and the next type is among the options of the next line
  · have hfirst : fscanf mountFormat input =
        ⟨2, [['0'], ['0']], "/ proc tracefs 0 0\n".toList⟩ := by
      rw [hcall hinput (isWord_rogueOptions.skip_append _), fscanf, mountFormat,
        run_field isWord_rogueOptions rfl isSpace_space]
      decide +kernel
    have hsecond : fscanf mountFormat "/ proc tracefs 0 0\n".toList =
        ⟨2, ["proc".toList, tracefsType], []⟩ := by decide +kernel
    rw [scanMounts_of_eq hfirst, if_neg (by decide +kernel), scanMounts_of_eq hsecond,
      if_pos hname, hname]
  -- the options are too long for a mount point
  · have hleft : rogueOptions.drop (cut (some maxPath) rogueOptions).length = tracefsType := by
      decide +kernel
    obtain ⟨rest, hfirst⟩ : ∃ rest, fscanf mountFormat input =
        ⟨2, [cut (some maxPath) rogueOptions, tracefsType], rest⟩ := by
      rw [hcall hinput (hword.skip_append _), fscanf, mountFormat,
        run_field hword rfl isSpace_space,
        run_string isWord_rogueOptions (ends_cons isSpace_space), hleft, run_blanks_cons,
        run_field isWord_tracefsType (by decide +kernel) isSpace_space]
      exact run_suppressed (by decide) _ _
    rw [scanMounts_of_eq hfirst, if_pos hname, hname]

/-- Whatever fits before it, no table with the line and the other after it is read
correctly. -/
theorem not_correct_rogue (hbefore : ∀ l ∈ before, l.Fits ∧ ¬l.ReadsTracefs)
    (hm : ¬m.IsTracefs) (hlong : maxPath < m.mountPoint.length ∨ 99 < m.type.length) :
    ¬Correct (before ++ [m.rogue, procMount]) := by
  intro h
  obtain ⟨tracefs, type, -, hscan⟩ := scanMounts_text hbefore [] []
  have hrest : (['0'] ++ ' ' :: (['0'] ++ ['\n'])) ++ text [procMount] = rogueRest := by
    decide +kernel
  have hrogue : text [m.rogue, procMount] = m.device ++ ' ' :: (m.mountPoint ++ ' ' ::
      (m.type ++ ' ' :: (rogueOptions ++ ' ' :: rogueRest))) := by
    simp only [text_cons, Mount.line, Mount.rogue, List.append_assoc, List.cons_append, ← hrest]
  obtain ⟨first, second, left, hleft, hcall⟩ :=
    fscanf_of_tooLong hlong (rogueOptions.tail ++ ' ' :: rogueRest)
  have hcall : fscanf mountFormat (text [m.rogue, procMount]) = ⟨2, [first, second], left⟩ := by
    rw [hrogue]
    exact hcall
  have htype : cString nul (scanMounts tracefs type (text [m.rogue, procMount])).2 =
      tracefsType := by
    rw [scanMounts_of_eq hcall]
    split_ifs with hsecond
    · exact hsecond
    · exact scanMounts_behind hleft
  have hnone : tracefsMount (before ++ [m.rogue, procMount]) = none := by
    rw [tracefsMount_append fun l hl htracefs => (hbefore l hl).2 htracefs.readsTracefs]
    refine tracefsMount_eq_none fun l hl => ?_
    obtain rfl | rfl : l = m.rogue ∨ l = procMount := by simpa using hl
    · exact hm
    · decide +kernel
  have hfound := h []
  have htype : cString nul (scanMounts init.tracefs [] (text (before ++
      [m.rogue, procMount]))).2 = tracefsType := by
    rw [show init.tracefs = [] from rfl, hscan, htype]
  rw [hnone, findTracefs_of_eq rfl htype] at hfound
  exact Option.some_ne_none _ hfound

theorem procMount_fits : procMount.Fits ∧ procMount.Plain :=
  ⟨⟨by decide +kernel, by decide +kernel⟩, by decide +kernel, by decide +kernel⟩

/-- A readable table is read correctly, and no other table is whose lines fit as far as they
are read. Of any table that is read correctly the first line of type `tracefs` fits. After any
lines that fit, the mount point and the type of the next line are read correctly, whatever
else is in it and after it, exactly if they fit. -/
theorem correct_of_readable (table before : List Mount) (m : Mount) :
    (Readable table → Correct table) ∧ (InStep table → Correct table → Readable table) ∧
      (Correct table → table ≠ [] ∧
        ∀ m, table.find? (·.IsTracefs) = some m → m.Fits ∧ m.Plain) ∧
      ((∀ l ∈ before, l.Fits ∧ l.Plain ∧ ¬l.IsTracefs) → m.Plain →
        (m.Fits ↔ ∀ m' after, m'.mountPoint = m.mountPoint → m'.type = m.type →
          (∀ l ∈ after, l.Fits ∧ l.Plain) → Correct (before ++ m' :: after))) := by
  refine ⟨fun h => h.inStep.correct_iff.mpr h, fun h => h.correct_iff.mp, fun h => ⟨?_, ?_⟩,
    fun hbefore hplain => ?_⟩
  · rintro rfl
    exact not_correct_nil h
  · exact fun m hm => h.fits hm
  constructor
  · intro hm m' after hmountPoint' htype' hafter
    have hm' : m'.Fits ∧ m'.Plain := by
      refine ⟨⟨?_, ?_⟩, ?_, ?_⟩
      · exact hmountPoint' ▸ hm.mountPoint_le
      · exact htype' ▸ hm.type_le
      · exact hmountPoint' ▸ hplain.nul_notMem_mountPoint
      · exact htype' ▸ hplain.nul_notMem_type
    have hreadable : Readable (before ++ m' :: after) := by
      refine readable_of_plain (by simp) fun l hl => ?_
      obtain hl | hl | hl : l ∈ before ∨ l = m' ∨ l ∈ after := by simpa using hl
      · exact ⟨(hbefore l hl).1, (hbefore l hl).2.1⟩
      · exact hl ▸ hm'
      · exact hafter l hl
    exact hreadable.inStep.correct_iff.mpr hreadable
  · intro hcorrect
    by_contra hfits
    have hlong : maxPath < m.mountPoint.length ∨ 99 < m.type.length := by
      by_contra hshort
      push Not at hshort
      exact hfits ⟨hshort.1, hshort.2⟩
    by_cases hm : m.IsTracefs
    -- a mount point of that type which does not fit cannot be returned
    · have hself := hcorrect m [] rfl rfl fun l hl => absurd hl List.not_mem_nil
      refine hfits (hself.fits (m := m) ?_).1
      rw [find?_isTracefs_append fun l hl => (hbefore l hl).2.2,
        List.find?_cons_of_pos (by simpa using hm)]
    · refine not_correct_rogue (fun l hl => ?_) hm hlong (hcorrect m.rogue [procMount] rfl rfl ?_)
      · obtain ⟨hfits', hplain', hno⟩ := hbefore l hl
        exact ⟨hfits', fun hreads => hno (hplain'.readsTracefs_iff.mp hreads)⟩
      · intro l hl
        rw [List.mem_singleton.mp hl]
        exact procMount_fits

/-- A line with a mount point of 257 characters. -/
def longMount : Mount where
  device := "/dev/sda".toList
  mountPoint := '/' :: List.replicate maxPath 'a'
  type := "ext4".toList
  options := "rw".toList
  dump := ['0']
  pass := ['0']
  isWord_device := by decide +kernel
  isWord_mountPoint := by decide +kernel
  isWord_type := by decide +kernel
  isWord_options := by decide +kernel
  isNumber_dump := isNumber_zero
  isNumber_pass := isNumber_zero

/-- The line of the tracer's file system. -/
def tracingMount : Mount where
  device := tracefsType
  mountPoint := "/sys/kernel/tracing".toList
  type := tracefsType
  options := "rw".toList
  dump := ['0']
  pass := ['0']
  isWord_device := isWord_tracefsType
  isWord_mountPoint := by decide +kernel
  isWord_type := isWord_tracefsType
  isWord_options := by decide +kernel
  isNumber_dump := isNumber_zero
  isNumber_pass := isNumber_zero

/-- After a mount point of 257 characters the file system is not found. -/
theorem tracing_mount_missed :
    (findTracefs (some (text [longMount, tracingMount])) [] init).1 = none ∧
      tracefsMount [longMount, tracingMount] = some "/sys/kernel/tracing".toList := by
  have hfirst : fscanf mountFormat (text [longMount, tracingMount]) =
      ⟨2, [longMount.mountPoint.take maxPath, ['a']],
        "rw 0 0\ntracefs /sys/kernel/tracing tracefs rw 0 0\n".toList⟩ := by decide +kernel
  have hsecond : fscanf mountFormat
        "rw 0 0\ntracefs /sys/kernel/tracing tracefs rw 0 0\n".toList =
      ⟨2, [['0'], ['0']], "/sys/kernel/tracing tracefs rw 0 0\n".toList⟩ := by decide +kernel
  have hthird : fscanf mountFormat "/sys/kernel/tracing tracefs rw 0 0\n".toList =
      ⟨2, [tracefsType, "rw".toList], []⟩ := by decide +kernel
  have hscan : scanMounts init.tracefs [] (text [longMount, tracingMount]) =
      (tracefsType, "rw".toList) := by
    rw [scanMounts_of_eq hfirst, if_neg (by decide +kernel), scanMounts_of_eq hsecond,
      if_neg (by decide +kernel), scanMounts_of_eq hthird, if_neg (by decide +kernel),
      scanMounts_nil]
  constructor
  · rw [findTracefs_of_ne rfl (by rw [hscan]; decide +kernel)]
  · decide +kernel

end Sisop.SimpleTracer
