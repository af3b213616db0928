import Mathlib.Data.List.Find
import Sisop.SimpleTracer.Basic

/-!
# Mount tables read line by line

A call of `fscanf` reads a whole line as long as the mount point and the type are not
longer than the widths of their conversions. If this is so of every line up to the first
that is taken for one of type `tracefs`, the loop goes from line to line, and the answer
is right exactly if it stops at a line with the mount point asked for. Only a terminator
inside a field can make it stop at another one.

## Main definitions

* `Mount.Fits` — a line whose mount point and type are read whole
* `InStep` — a table that is read line by line as far as it is read
* `Correct` — a table on which the first call returns the mount point asked for

## Main results

* `scanMounts_text` — lines that fit are read one by one
* `InStep.correct_iff` — when a table that is read line by line is read correctly
-/

namespace Sisop.SimpleTracer

open Foundations CString Decimal Scanf

/-- A line whose mount point and type fit the widths of their conversions. -/
structure Mount.Fits (m : Mount) : Prop where
  mountPoint_le : m.mountPoint.length ≤ maxPath
  type_le : m.type.length ≤ 99

/-- A line whose mount point and type go on to their ends as strings. -/
structure Mount.Plain (m : Mount) : Prop where
  nul_notMem_mountPoint : nul ∉ m.mountPoint
  nul_notMem_type : nul ∉ m.type

/-- `strcmp` takes the line for one of type `tracefs`. -/
def Mount.ReadsTracefs (m : Mount) : Prop := cString nul m.type = tracefsType

instance : DecidablePred Mount.ReadsTracefs := fun m =>
  inferInstanceAs (Decidable (cString nul m.type = tracefsType))

/-- Up to the first line that is taken for one of type `tracefs` the lines fit. -/
def InStep (table : List Mount) : Prop :=
  ∀ before m after, table = before ++ m :: after → (∀ l ∈ before, ¬l.ReadsTracefs) → m.Fits

/-- There is a line, the lines that are read fit, and the first that is taken for one of type
`tracefs` has, as a string, the mount point asked for. -/
structure Readable (table : List Mount) : Prop where
  ne_nil : table ≠ []
  inStep : InStep table
  mountPoint : ∀ m, table.find? (·.ReadsTracefs) = some m →
    tracefsMount table = some (cString nul m.mountPoint)

/-- The first call returns the mount point of the first line of type `tracefs`, and `NULL`
if there is no such line, whatever `type` starts with. -/
def Correct (table : List Mount) : Prop :=
  ∀ type, (findTracefs (some (text table)) type init).1 = tracefsMount table

variable {m : Mount} {table before after : List Mount} {tracefs type input rest : List Char}

/-! ### One line -/

theorem cut_some_of_le {n : ℕ} {word : List Char} (h : word.length ≤ n) :
    cut (some n) word = word := List.take_of_length_le h

/-- A call on a line that fits reads this line. -/
theorem fscanf_line (h : m.Fits) (rest : List Char) :
    fscanf mountFormat (m.line ++ rest) = ⟨2, [m.mountPoint, m.type], skip rest⟩ := by
  simp only [fscanf, mountFormat, Mount.line, List.append_assoc, List.cons_append,
    List.nil_append]
  rw [run_field m.isWord_device rfl isSpace_space,
    run_field m.isWord_mountPoint (cut_some_of_le h.mountPoint_le) isSpace_space,
    run_field m.isWord_type (cut_some_of_le h.type_le) isSpace_space,
    run_field m.isWord_options rfl isSpace_space,
    run_isNumber m.isNumber_dump (ends_cons isSpace_space), run_blanks_cons,
    run_cons_blank isSpace_space,
    run_isNumber m.isNumber_pass (ends_cons isSpace_newline), run, skip_cons isSpace_newline]
  rfl

theorem text_cons (m : Mount) (table : List Mount) :
    text (m :: table) = m.line ++ text table := List.flatMap_cons

theorem skip_text (table : List Mount) : skip (text table) = text table := by
  cases table with
  | nil => rfl
  | cons m table =>
    rw [text_cons, Mount.line, List.append_assoc, m.isWord_device.skip_append]

/-- The loop on a line that fits. -/
theorem scanMounts_line (h : m.Fits) :
    scanMounts tracefs type (text (m :: table)) =
      if m.ReadsTracefs then (m.mountPoint, m.type)
      else scanMounts m.mountPoint m.type (text table) := by
  rw [text_cons, scanMounts_of_eq (fscanf_line h _), skip_text]
  rfl

theorem Mount.IsTracefs.readsTracefs (h : m.IsTracefs) : m.ReadsTracefs := by
  rw [Mount.ReadsTracefs, show m.type = tracefsType from h]
  decide +kernel

/-- Without a terminator inside a type only the right types are taken for it. -/
theorem Mount.Plain.readsTracefs_iff (h : m.Plain) : m.ReadsTracefs ↔ m.IsTracefs := by
  rw [Mount.ReadsTracefs, cString_eq_self h.nul_notMem_type]
  rfl

/-! ### The lines before -/

/-- Lines that fit are read one by one. What the loop then has in `type` is not `tracefs`,
if it was not before or some line was read. -/
theorem scanMounts_text (h : ∀ l ∈ before, l.Fits ∧ ¬l.ReadsTracefs)
    (tracefs type : List Char) :
    ∃ tracefs' type', (before ≠ [] ∨ cString nul type ≠ tracefsType →
        cString nul type' ≠ tracefsType) ∧
      ∀ after, scanMounts tracefs type (text (before ++ after)) =
        scanMounts tracefs' type' (text after) := by
  induction before generalizing tracefs type with
  | nil => exact ⟨tracefs, type, fun h => h.resolve_left (not_not.mpr rfl), fun _ => rfl⟩
  | cons l before ih =>
    obtain ⟨hfits, htracefs⟩ := h l List.mem_cons_self
    obtain ⟨tracefs', type', htype', hscan⟩ :=
      ih (fun l hl => h l (List.mem_cons_of_mem _ hl)) l.mountPoint l.type
    refine ⟨tracefs', type', fun _ => htype' (Or.inr htracefs), fun after => ?_⟩
    rw [List.cons_append, scanMounts_line hfits, if_neg htracefs, hscan]

theorem find?_isTracefs_append (h : ∀ l ∈ before, ¬l.IsTracefs) (after : List Mount) :
    (before ++ after).find? (·.IsTracefs) = after.find? (·.IsTracefs) := by
  have hbefore : before.find? (·.IsTracefs) = none :=
    List.find?_eq_none.mpr fun l hl => by simpa using h l hl
  rw [List.find?_append, hbefore, Option.none_or]

theorem tracefsMount_append (h : ∀ l ∈ before, ¬l.IsTracefs) (after : List Mount) :
    tracefsMount (before ++ after) = tracefsMount after := by
  rw [tracefsMount, find?_isTracefs_append h, tracefsMount]

theorem tracefsMount_eq_none (h : ∀ l ∈ table, ¬l.IsTracefs) : tracefsMount table = none := by
  rw [← List.append_nil table, tracefsMount_append h]
  rfl

/-! ### Tables read line by line -/

/-- The lines before the first that is taken for one of type `tracefs` fit. -/
theorem InStep.forall_mem (h : InStep table) (htable : table = before ++ after)
    (hbefore : ∀ l ∈ before, ¬l.ReadsTracefs) : ∀ l ∈ before, l.Fits ∧ ¬l.ReadsTracefs := by
  intro l hl
  obtain ⟨front, back, rfl⟩ := List.append_of_mem hl
  refine ⟨h front l (back ++ after) (by simpa using htable) fun a ha => ?_, hbefore l hl⟩
  exact hbefore a (List.mem_append_left _ ha)

/-- What the first call returns on a table that is read line by line: the mount point of the
first line that is taken for one of type `tracefs`, as a string. -/
theorem InStep.findTracefs_eq (h : InStep table) (hne : table ≠ []) (type : List Char) :
    (findTracefs (some (text table)) type init).1 =
      (table.find? (·.ReadsTracefs)).map fun m => cString nul m.mountPoint := by
  cases hfind : table.find? (·.ReadsTracefs) with
  | none =>
    have hnone : ∀ l ∈ table, ¬l.ReadsTracefs := fun l hl => by
      simpa using List.find?_eq_none.mp hfind l hl
    obtain ⟨tracefs', type', htype', hscan⟩ :=
      scanMounts_text (h.forall_mem (List.append_nil table).symm hnone) [] type
    have hscan : scanMounts init.tracefs type (text table) = (tracefs', type') := by
      have hend := hscan []
      rwa [List.append_nil, show text [] = [] from rfl, scanMounts_nil] at hend
    rw [findTracefs_of_ne rfl (by rw [hscan]; exact htype' (Or.inl hne))]
    rfl
  | some m =>
    obtain ⟨hm, before, after, rfl, hbefore⟩ := List.find?_eq_some_iff_append.mp hfind
    have hm : m.ReadsTracefs := by simpa using hm
    have hbefore : ∀ l ∈ before, ¬l.ReadsTracefs := fun l hl => by simpa using hbefore l hl
    obtain ⟨tracefs', type', -, hscan⟩ := scanMounts_text (h.forall_mem rfl hbefore) [] type
    have hscan : scanMounts init.tracefs type (text (before ++ m :: after)) =
        (m.mountPoint, m.type) := by
      rw [show init.tracefs = [] from rfl, hscan, scanMounts_line (h before m after rfl hbefore),
        if_pos hm]
    rw [findTracefs_of_eq rfl (by rw [hscan]; exact hm), hscan]
    rfl

/-- Without a line the answer depends on what `type` starts with. -/
theorem not_correct_nil : ¬Correct [] := by
  intro h
  have htype : cString nul (scanMounts init.tracefs tracefsType (text [])).2 = tracefsType := by
    rw [show text [] = [] from rfl, scanMounts_nil]
    decide +kernel
  have hnull := h tracefsType
  rw [findTracefs_of_eq rfl htype] at hnull
  exact absurd hnull (by simp [tracefsMount])

/-- A table that is read line by line is read correctly exactly if it is readable. -/
theorem InStep.correct_iff (h : InStep table) : Correct table ↔ Readable table := by
  constructor
  · intro hcorrect
    have hne : table ≠ [] := by
      rintro rfl
      exact not_correct_nil hcorrect
    refine ⟨hne, h, fun m hm => ?_⟩
    rw [← hcorrect [], h.findTracefs_eq hne, hm]
    rfl
  · intro hreadable type
    rw [h.findTracefs_eq hreadable.ne_nil]
    cases hfind : table.find? (·.ReadsTracefs) with
    | none =>
      rw [tracefsMount_eq_none fun l hl htracefs => ?_]
      · rfl
      · exact List.find?_eq_none.mp hfind l hl (by simpa using htracefs.readsTracefs)
    | some m => exact (hreadable.mountPoint m hfind).symm

/-- Lines that fit, without a terminator in a mount point or a type, are readable. -/
theorem readable_of_plain (hne : table ≠ []) (hall : ∀ l ∈ table, l.Fits ∧ l.Plain) :
    Readable table := by
  refine ⟨hne, fun before m after htable _ => ?_, fun m hm => ?_⟩
  · exact (hall m (htable ▸ List.mem_append_right _ List.mem_cons_self)).1
  · have hsame : table.find? (·.ReadsTracefs) = table.find? (·.IsTracefs) :=
      List.find?_congr fun l hl => by simpa using (hall l hl).2.readsTracefs_iff
    have hmem := List.mem_of_find?_eq_some hm
    rw [tracefsMount, ← hsame, hm, cString_eq_self (hall m hmem).2.nul_notMem_mountPoint]
    rfl

end Sisop.SimpleTracer
