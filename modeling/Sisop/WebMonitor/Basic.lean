import Sisop.Foundations.Text

/-!
# Scripts and tables of the web monitor

A page of the web monitor runs a shell script and makes a table of what the script
prints: a row for each line, which a separator splits into cells.

## Main definitions

* `execscript` — the output of a script as the application reads it
* `table` — the rows and cells of an output

## Main results

* `table_flatMap` — the table of an output made of whole lines
* `table_eq_iff` — when a single printed line becomes a given row
-/

namespace Sisop.WebMonitor

open Foundations

/-- `execscript`, given what the script prints. `universal_newlines` is on. -/
def execscript (out : List Char) : List Char := Text.universalNewlines '\r' '\n' false out

/-- The output split at newlines, without the last part, and each line split at `sep`. -/
def table (sep : Char) (out : List Char) : List (List (List Char)) :=
  (Text.lines '\n' out).map fun line => line.splitOn sep

variable {sep : Char} {l r : List Char}

theorem execscript_append (l r : List Char) :
    execscript (l ++ '\n' :: r) = execscript (l ++ ['\n']) ++ execscript r :=
  Text.universalNewlines_append_cons (by decide)

theorem exists_execscript_eq (l : List Char) : ∃ r, execscript (l ++ ['\n']) = r ++ ['\n'] :=
  Text.exists_universalNewlines_eq (by decide) (Or.inl rfl)

theorem table_append_cons :
    table sep (l ++ '\n' :: r) = table sep (l ++ ['\n']) ++ table sep r := by
  have hlast : Text.lines '\n' (l ++ ['\n']) = l.splitOn '\n' := by
    rw [Text.lines_append_cons]
    simp [Text.lines]
  rw [table, table, table, hlast, Text.lines_append_cons, List.map_append]

/-- The table of whole lines is that of the first followed by that of the others. -/
theorem table_execscript_append (l r : List Char) :
    table sep (execscript (l ++ '\n' :: r)) =
      table sep (execscript (l ++ ['\n'])) ++ table sep (execscript r) := by
  obtain ⟨l', hl'⟩ := exists_execscript_eq l
  rw [execscript_append, hl', List.append_assoc, List.singleton_append, table_append_cons]

/-- The table of an output made of whole lines. -/
theorem table_flatMap {β : Type*} (f : β → List Char) (xs : List β) :
    table sep (execscript (xs.flatMap fun x => f x ++ ['\n'])) =
      xs.flatMap fun x => table sep (execscript (f x ++ ['\n'])) := by
  induction xs with
  | nil => rfl
  | cons x xs ih =>
    rw [List.flatMap_cons, List.flatMap_cons, ← ih, ← table_execscript_append,
      List.append_assoc, List.singleton_append]

theorem table_ne_nil (l : List Char) : table sep (execscript (l ++ ['\n'])) ≠ [] := by
  obtain ⟨r, hr⟩ := exists_execscript_eq l
  rw [hr, table, Text.lines_append_cons]
  simp [Text.lines]

/-- A line without carriage returns becomes one row, of its parts. -/
theorem table_line (hnl : '\n' ∉ l) (hcr : '\r' ∉ l) :
    table sep (execscript (l ++ ['\n'])) = [l.splitOn sep] := by
  have hread : execscript (l ++ ['\n']) = l ++ ['\n'] :=
    Text.universalNewlines_eq_self (by simp [hcr])
  rw [hread, table, Text.lines_append_cons_of_notMem hnl]
  rfl

/-- A printed line that becomes one row of given cells is made of these cells, but for a
carriage return at its end. -/
theorem eq_or_eq_of_table_eq {cells : List (List Char)} (hnl : '\n' ∉ l)
    (htable : table sep (execscript (l ++ ['\n'])) = [cells]) :
    (l = [sep].intercalate cells ∨ l = [sep].intercalate cells ++ ['\r']) ∧
      '\r' ∉ [sep].intercalate cells := by
  obtain ⟨r, hr⟩ := exists_execscript_eq l
  have hnocr : '\r' ∉ execscript (l ++ ['\n']) := Text.notMem_universalNewlines (by decide)
  rw [hr, table, Text.lines_append_cons] at htable
  obtain ⟨line, hline, hcells⟩ : ∃ line, r.splitOn '\n' = [line] ∧ line.splitOn sep = cells := by
    simpa [Text.lines, List.map_eq_singleton_iff] using htable
  obtain rfl : line = r := by
    have hjoin : ['\n'].intercalate (r.splitOn '\n') = r := List.intercalate_splitOn '\n'
    rw [← hjoin, hline]
    simp
  -- a newline inside would have made a second row
  have hone : '\n' ∉ line := by
    intro hmem
    obtain ⟨a, b, rfl⟩ := List.append_of_mem hmem
    have hlength := congrArg List.length hline
    rw [List.splitOn_append_cons_self, List.length_append, List.length_singleton] at hlength
    have ha := List.length_pos_of_ne_nil (List.splitOn_ne_nil '\n' a)
    have hb := List.length_pos_of_ne_nil (List.splitOn_ne_nil '\n' b)
    omega
  rw [← hcells, List.intercalate_splitOn]
  refine ⟨Text.eq_or_eq_of_universalNewlines hnl hone hr, fun h => hnocr ?_⟩
  rw [hr]
  exact List.mem_append_left _ h

/-- Lines without carriage returns become a row each, and what stands after the last one is
not shown. -/
theorem table_unlines_append {ls : List (List Char)} (hls : ∀ l ∈ ls, '\n' ∉ l ∧ '\r' ∉ l)
    (hr : '\n' ∉ r ∧ '\r' ∉ r) :
    table sep (execscript (Text.unlines '\n' ls ++ r)) = ls.map fun l => l.splitOn sep := by
  have hread : execscript (Text.unlines '\n' ls ++ r) = Text.unlines '\n' ls ++ r := by
    apply Text.universalNewlines_eq_self
    intro h
    rcases List.mem_append.mp h with h | h
    · obtain ⟨l, hl, hmem⟩ := List.mem_flatMap.mp h
      exact (hls l hl).2 (by simpa using hmem)
    · exact hr.2 h
  rw [hread, table, Text.lines_unlines_append (fun l hl => (hls l hl).1) hr.1]

/-- A cell is made of characters of the output as it is read. -/
theorem mem_execscript_of_mem_table {out cell : List Char} {row : List (List Char)} {x : Char}
    (hrow : row ∈ table sep (execscript out)) (hcell : cell ∈ row) (hx : x ∈ cell) :
    x ∈ execscript out := by
  obtain ⟨line, hline, rfl⟩ := List.mem_map.mp hrow
  exact Text.mem_of_mem_splitOn ((List.dropLast_sublist _).subset hline)
    (Text.mem_of_mem_splitOn hcell hx)

end Sisop.WebMonitor
