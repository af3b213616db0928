import Mathlib.Data.Bool.AllAny
import Sisop.WebMonitor.Schedule

/-!
# When the processor table is right

What `paste` reads of a named pipe is all that its job prints, in any schedule. What it
reads of the third file is what the job of that file has written when `paste` meets the
end, and `paste` finds no such file if the job has not created it yet. The rows are the
lines that the third file has given: the cells of the others are printed without a newline
after them. So the table is right exactly when `paste` finds the file and its job has
written everything when `paste` meets the end, up to the newline of a last speed that is
not empty, and no value holds a carriage return or a terminator.

## Main definitions

* `Cpuinfo.table` — the right table
* `Synchronised` — the condition on a schedule

## Main results

* `getProcinfo_roundsText` — the table by the lines that `paste` has taken
* `getProcinfo_eq_iff` — exactly under this condition the table is right
-/

namespace Sisop.WebMonitor.ProcInfo

open Foundations CString

variable {info : Cpuinfo} {c : Channel} {s t : State} {w : List Event} {e : Event}

/-- A row for each processor, with its core id, its model name and its speed. -/
def Cpuinfo.table (info : Cpuinfo) : List (List (List Char)) :=
  (List.range info.processors).map fun k => files.map fun c => (info.values c).getD k []

/-- No value holds a carriage return or a terminator, `paste` finds the third file, unless
there are no processors, and when it meets the end of that file nothing is unwritten, or
no more than the newline of a line that it has found cut off. -/
structure Synchronised (info : Cpuinfo) (w : List Event) : Prop where
  noReturn : ∀ c, ∀ v ∈ info.values c, '\r' ∉ v
  terminated : info.Terminated
  found : info.processors = 0 ∨ .opened .f3 false ∉ w
  complete : ∀ rest u, .ending .f3 rest u ∈ w → u = [] ∨ rest ≠ [] ∧ u = ['\n']

/-! ### What is read of each file -/

/-- Only the third file may be missing. -/
theorem eq_f3_of_missing (hrun : (machine info).Run started w s) (h : .opened c false ∈ w) :
    c = .f3 := by
  have hall := hrun.history_invariant (I := fun w _ => ∀ c, .opened c false ∈ w → c = .f3) ?_
    (by simp)
  · exact hall c h
  intro w s e t hstep ih c hmem
  rcases List.mem_append.mp hmem with hmem | hmem
  · exact ih c hmem
  · obtain rfl := List.mem_singleton.mp hmem
    cases hstep with
    | openMissing hpaste hfile => cases c <;> first | rfl | cases hfile

/-- While a file may have more to read, its end has not been met. -/
theorem ending_notMem (hrun : (machine info).Run started w s) (hactive : s.stream c = .active) :
    ∀ rest u, .ending c rest u ∉ w := by
  have hall := hrun.history_invariant
    (I := fun w s => ∀ rest u, .ending c rest u ∈ w → s.stream c ≠ .active) ?_ (by simp)
  · exact fun rest u hmem => hall rest u hmem hactive
  intro w s e t hstep ih rest u hmem
  have hkeep : ∀ c' r, r ≠ .active → s.stream c ≠ .active →
      Function.update s.stream c' r c ≠ .active := by
    intro c' r hr hs
    by_cases hc : c = c'
    · rwa [hc, Function.update_self]
    · rwa [Function.update_of_ne hc]
  rcases List.mem_append.mp hmem with hmem | hmem
  · have hs := ih rest u hmem
    cases hstep with
    | lastLine | noLine | close => exact hkeep _ _ (by simp) hs
    | _ => exact hs
  · obtain rfl := List.mem_singleton.mp hmem
    cases hstep <;> simp

/-- The lines that `paste` takes from a file whose end it has met. -/
structure Seen (info : Cpuinfo) (w : List Event) (c : Channel) : Prop where
  length_le : (linesRead c w).length ≤ info.processors
  complete : linesRead c w = info.values c ↔
    ∀ rest u, .ending c rest u ∈ w → u = [] ∨ rest ≠ [] ∧ u = ['\n']
  mem : ∀ l ∈ linesRead c w, ∀ x ∈ l, ∃ v ∈ info.values c, x ∈ v
  fifo : c.isFifo = true → linesRead c w = info.values c

theorem Contents.seen (h : Contents info c w s) (hended : s.stream c ≠ .active) :
    Seen info w c := by
  obtain ⟨ls, rest, u, hmem, hunique, hls, hrest, hfifo, hlines, htext⟩ := h.ended hended
  have hvs : ∀ v ∈ info.values c, '\n' ∉ v := fun v hv => (info.plain c v hv).2
  have hcomplete : linesRead c w = info.values c ↔ u = [] ∨ rest ≠ [] ∧ u = ['\n'] :=
    hlines ▸ Text.linesSeen_eq_iff hls hvs hrest htext
  constructor
  · rw [hlines, ← info.length_values c]
    exact Text.length_linesSeen_le hls hvs htext
  · rw [hcomplete]
    constructor
    · intro hu rest' u' hmem'
      obtain ⟨rfl, rfl⟩ := hunique rest' u' hmem'
      exact hu
    · exact fun hall => hall rest u hmem
  · intro l hl x hx
    have hnl : x ≠ '\n' := by
      rintro rfl
      exact h.lines l hl hx
    have hxtext : x ∈ info.text c := by
      rw [hlines, Text.linesSeen] at hl
      rw [← htext]
      apply List.mem_append_left u
      rcases List.mem_append.mp hl with hl | hl
      · exact List.mem_append_left _ (List.mem_flatMap.mpr ⟨l, hl, List.mem_append_left _ hx⟩)
      · split_ifs at hl
        · simp at hl
        · rw [List.mem_singleton] at hl
          exact List.mem_append_right _ (hl ▸ hx)
    obtain ⟨v, hv, hx⟩ := List.mem_flatMap.mp hxtext
    exact ⟨v, hv, by simpa [hnl] using hx⟩
  · -- the job of a named pipe leaves nothing unwritten
    exact fun hpipe => hcomplete.mpr (Or.inl (hfifo hpipe))

/-! ### What is printed -/

section Printed

variable {L : Channel → List (List Char)} {n k : ℕ}

/-- The cells of row `k`, given the lines that `paste` takes from each file. -/
def cells (L : Channel → List (List Char)) (k : ℕ) : List (List Char) :=
  files.map fun c => (L c).getD k []

/-- A round with a line from each file prints a row. -/
theorem roundText_eq (h : ∀ c, k < (L c).length) :
    roundText L k = ['\t'].intercalate (cells L k) ++ ['\n'] := by
  have hcell : ∀ c, cellText L k c = (L c).getD k [] ++ [c.delim] := by
    intro c
    rw [cellText, List.getD_eq_getElem?_getD, List.getElem?_eq_getElem (h c)]
    rfl
  simp [roundText, cells, files, hcell, Channel.delim, List.intercalate_cons_cons]

/-- A round without a line from the third file prints no newline. -/
theorem mem_roundText (h : (L .f3).length ≤ k) {x : Char} (hx : x ∈ roundText L k) :
    x = '\t' ∨ ∃ c, ∃ l ∈ L c, x ∈ l := by
  obtain ⟨c, -, hx⟩ := List.mem_flatMap.mp hx
  have hc : c ≠ .f3 := by
    rintro rfl
    rw [cellText_of_length_le h] at hx
    cases hx
  have hdelim : c.delim = '\t' := by
    cases c with
    | f1 | f2 => rfl
    | f3 => exact absurd rfl hc
  cases hk : (L c)[k]? with
  | none =>
    rw [cellText, hk] at hx
    cases hx
  | some l =>
    rw [cellText, hk, hdelim, Option.map_some, Option.getD_some, List.mem_append,
      List.mem_singleton] at hx
    exact hx.symm.imp_right fun hx => ⟨c, l, List.mem_of_getElem? hk, hx⟩

/-- What is printed is a row for each line of the third file, and no whole line after
them. -/
theorem exists_roundsText_eq (hlength : ∀ c, (L .f3).length ≤ (L c).length)
    (hn : (L .f3).length ≤ n) : ∃ r,
      roundsText L n = Text.unlines '\n' ((List.range (L .f3).length).map fun k =>
        ['\t'].intercalate (cells L k)) ++ r ∧ ∀ x ∈ r, x = '\t' ∨ ∃ c, ∃ l ∈ L c, x ∈ l := by
  obtain ⟨d, rfl⟩ := Nat.exists_eq_add_of_le hn
  refine ⟨(List.range d).flatMap fun k => roundText L ((L .f3).length + k), ?_, fun x hx => ?_⟩
  · rw [roundsText, List.range_add, List.flatMap_append, List.flatMap_map, Text.unlines,
      List.flatMap_map]
    congr 1
    exact List.flatMap_congr fun k hk =>
      roundText_eq fun c => (List.mem_range.mp hk).trans_le (hlength c)
  · obtain ⟨k, -, hx⟩ := List.mem_flatMap.mp hx
    exact mem_roundText (Nat.le_add_right _ k) hx

/-- The page shows a row for each line of the third file. -/
theorem getProcinfo_roundsText
    (hplain : ∀ c, ∀ l ∈ L c, '\n' ∉ l ∧ '\t' ∉ l ∧ '\r' ∉ l)
    (hlength : ∀ c, (L .f3).length ≤ (L c).length) (hn : (L .f3).length ≤ n) :
    getProcinfo (roundsText L n) = (List.range (L .f3).length).map (cells L) := by
  obtain ⟨r, htext, hr⟩ := exists_roundsText_eq hlength hn
  have hcell : ∀ k, ∀ l ∈ cells L k, '\n' ∉ l ∧ '\t' ∉ l ∧ '\r' ∉ l := by
    intro k l hl
    obtain ⟨c, -, rfl⟩ := List.mem_map.mp hl
    rw [List.getD_eq_getElem?_getD]
    cases hk : (L c)[k]? with
    | none => simp
    | some l => exact hplain c l (List.mem_of_getElem? hk)
  -- a newline or a carriage return would be in a cell
  have hrow : ∀ x, x = '\n' ∨ x = '\r' → ∀ k, x ∉ ['\t'].intercalate (cells L k) := by
    intro x hx k hmem
    rcases Text.mem_intercalate hmem with rfl | ⟨l, hl, hmem⟩
    · rcases hx with hx | hx <;> exact absurd hx (by decide)
    · rcases hx with rfl | rfl
      · exact (hcell k l hl).1 hmem
      · exact (hcell k l hl).2.2 hmem
  have hrest : ∀ x, x = '\n' ∨ x = '\r' → x ∉ r := by
    intro x hx hmem
    rcases hr x hmem with rfl | ⟨c, l, hl, hmem⟩
    · rcases hx with hx | hx <;> exact absurd hx (by decide)
    · rcases hx with rfl | rfl
      · exact (hplain c l hl).1 hmem
      · exact (hplain c l hl).2.2 hmem
  rw [getProcinfo, htext, table_unlines_append _ ⟨hrest _ (Or.inl rfl), hrest _ (Or.inr rfl)⟩,
    List.map_map]
  · apply List.map_congr_left
    intro k _
    exact List.splitOn_intercalate '\t' (fun l hl => (hcell k l hl).2.1) (by simp [cells, files])
  · intro l hl
    obtain ⟨k, -, rfl⟩ := List.mem_map.mp hl
    exact ⟨hrow _ (Or.inl rfl) k, hrow _ (Or.inr rfl) k⟩

/-- With all lines of the first two files the table is right if the third file gives all of
its lines. -/
theorem map_cells_eq_iff (hpipes : ∀ c, c ≠ .f3 → L c = info.values c) :
    (List.range (L .f3).length).map (cells L) = info.table ↔ L .f3 = info.values .f3 := by
  constructor
  · intro h
    have hlength : (L .f3).length = info.processors := by
      simpa [Cpuinfo.table] using congrArg List.length h
    refine List.ext_getElem (hlength.trans (info.length_values .f3).symm) fun k hk hk' => ?_
    rw [Cpuinfo.table, ← hlength, List.map_inj_left] at h
    have hcells := h k (List.mem_range.mpr hk)
    rw [cells, List.map_inj_left] at hcells
    have hcell := hcells .f3 (mem_files .f3)
    rwa [List.getD_eq_getElem?_getD, List.getD_eq_getElem?_getD, List.getElem?_eq_getElem hk,
      List.getElem?_eq_getElem hk'] at hcell
  · intro h
    have hL : ∀ c, L c = info.values c := by
      intro c
      by_cases hc : c = .f3
      · rw [hc, h]
      · exact hpipes c hc
    rw [h, info.length_values, Cpuinfo.table]
    refine List.map_congr_left fun k _ => List.map_congr_left fun c _ => ?_
    rw [hL]

end Printed

/-! ### The table -/

/-- `paste` never prints a terminator. -/
theorem nul_notMem_out (hs : (machine info).Reachable s) : nul ∉ s.out := by
  refine hs.invariant (I := fun s => nul ∉ s.out) ?_ ?_
  · rintro s rfl
    exact List.not_mem_nil
  · intro s e t hstep h
    have hline : ∀ (c : Channel) (l : List Char), (∀ y ∈ l, ¬ EndsLine y) →
        nul ∉ s.out ++ (l ++ [c.delim]) := by
      intro c l hl hmem
      rcases List.mem_append.mp hmem with hmem | hmem
      · exact h hmem
      rcases List.mem_append.mp hmem with hmem | hmem
      · exact hl _ hmem (Or.inr rfl)
      · rw [List.mem_singleton] at hmem
        cases c <;> exact absurd hmem (by decide)
    cases hstep with
    | @line c _ l _ _ _ _ _ _ hl => exact hline c l hl
    | @lastLine c _ _ _ _ hl => exact hline c _ hl
    | _ => exact h

/-- Every character of a right table is read from the output of the script. -/
theorem mem_execscript_of_getProcinfo_eq {out : List Char} (h : getProcinfo out = info.table)
    {v : List Char} (hv : v ∈ info.values c) {x : Char} (hx : x ∈ v) : x ∈ execscript out := by
  obtain ⟨k, hk, rfl⟩ := List.mem_iff_getElem.mp hv
  have hrow : (files.map fun c => (info.values c).getD k []) ∈ getProcinfo out := by
    rw [h, Cpuinfo.table]
    exact List.mem_map_of_mem (List.mem_range.mpr (info.length_values c ▸ hk))
  refine mem_execscript_of_mem_table hrow (List.mem_map.mpr ⟨c, mem_files c, ?_⟩) hx
  rw [List.getD_eq_getElem?_getD, List.getElem?_eq_getElem hk, Option.getD_some]

/-- A right table shows that no value holds a carriage return or a terminator. -/
theorem plain_of_getProcinfo_eq (hs : (machine info).Reachable s)
    (h : getProcinfo s.out = info.table) :
    (∀ c, ∀ v ∈ info.values c, '\r' ∉ v) ∧ info.Terminated := by
  constructor
  · intro c v hv hx
    exact Text.notMem_universalNewlines (by decide) (mem_execscript_of_getProcinfo_eq h hv hx)
  · intro c v hv hx
    have hout : nul ∈ s.out := Text.mem_of_mem_universalNewlines
      (mem_execscript_of_getProcinfo_eq h hv hx) (by decide)
    exact nul_notMem_out hs hout

/-- If the third file is missing, nothing is printed. -/
theorem getProcinfo_eq_iff_of_missing (hmissing : .opened .f3 false ∈ w) (hout : s.out = [])
    (hnone : ∀ rest u, .ending .f3 rest u ∉ w) :
    getProcinfo s.out = info.table ↔ Synchronised info w := by
  have hempty : getProcinfo s.out = [] := by
    rw [hout]
    rfl
  have htable : info.table = [] ↔ info.processors = 0 := by
    rw [Cpuinfo.table, List.map_eq_nil_iff, List.range_eq_nil]
  rw [hempty, eq_comm, htable]
  constructor
  · intro h
    have hvalues : ∀ c, info.values c = [] := fun c =>
      List.length_eq_zero_iff.mp ((info.length_values c).trans h)
    exact ⟨fun c v hv => by simp [hvalues] at hv, fun c v hv => by simp [hvalues] at hv, Or.inl h,
      fun rest u hmem => absurd hmem (hnone rest u)⟩
  · intro h
    exact h.found.resolve_right (not_not_intro hmissing)

/-- If all files are found and no value holds a terminator, the table is right exactly if
all speeds are read, and no value holds a carriage return. -/
theorem getProcinfo_eq_iff_of_found {n : ℕ} (hcontents : ∀ c, Contents info c w s)
    (hclosed : ∀ c, s.stream c = .closed) (hout : s.out = roundsText (linesRead · w) n)
    (hlength : ∀ c, (linesRead c w).length ≤ n) (hcr : ∀ c, ∀ v ∈ info.values c, '\r' ∉ v) :
    getProcinfo s.out = info.table ↔
      ∀ rest u, .ending .f3 rest u ∈ w → u = [] ∨ rest ≠ [] ∧ u = ['\n'] := by
  have hseen : ∀ c, Seen info w c := fun c => (hcontents c).seen (by simp [hclosed c])
  have hpipes : ∀ c, c ≠ .f3 → linesRead c w = info.values c := by
    intro c hc
    refine (hseen c).fifo ?_
    cases c with
    | f1 | f2 => rfl
    | f3 => exact absurd rfl hc
  -- every character of a line is one of a value
  have hplain : ∀ c, ∀ l ∈ linesRead c w, '\n' ∉ l ∧ '\t' ∉ l ∧ '\r' ∉ l := by
    intro c l hl
    refine ⟨(hcontents c).lines l hl, fun h => ?_, fun h => ?_⟩
    · obtain ⟨v, hv, hx⟩ := (hseen c).mem l hl _ h
      exact (info.plain c v hv).1 hx
    · obtain ⟨v, hv, hx⟩ := (hseen c).mem l hl _ h
      exact hcr c v hv hx
  have hfewer : ∀ c, (linesRead .f3 w).length ≤ (linesRead c w).length := by
    intro c
    by_cases hc : c = .f3
    · rw [hc]
    · rw [hpipes c hc, info.length_values]
      exact (hseen .f3).length_le
  rw [hout, getProcinfo_roundsText hplain hfewer (hlength .f3), map_cells_eq_iff hpipes,
    (hseen .f3).complete]

/-- In every schedule, once `paste` has exited, the table has a row for each processor with
its three values, and no others, if and only if the schedule is synchronised. -/
theorem getProcinfo_eq_iff (hrun : (machine info).Run started w s)
    (hexited : s.paste = .exited) : getProcinfo s.out = info.table ↔ Synchronised info w := by
  have hrounds := rounds_of_run hrun
  simp only [Rounds, hexited] at hrounds
  rcases hrounds with ⟨⟨c, hmissing⟩, hout, hopen⟩ | ⟨hfound, n, hout, hfiles⟩
  -- the only file that can be missing is the third
  · obtain rfl := eq_f3_of_missing hrun hmissing
    exact getProcinfo_eq_iff_of_missing hmissing hout (ending_notMem hrun (hopen .f3))
  -- what `paste` has read of the files is known if no value holds a terminator
  · constructor
    · intro h
      obtain ⟨hcr, hterminated⟩ := plain_of_getProcinfo_eq ⟨started, w, rfl, hrun⟩ h
      refine ⟨hcr, hterminated, Or.inr fun hmem => hfound ⟨_, hmem⟩, ?_⟩
      exact (getProcinfo_eq_iff_of_found (contents_of_run hterminated hrun)
        (fun c => (hfiles c).1) hout (fun c => (hfiles c).2) hcr).mp h
    · intro h
      exact (getProcinfo_eq_iff_of_found (contents_of_run h.terminated hrun)
        (fun c => (hfiles c).1) hout (fun c => (hfiles c).2) h.noReturn).mpr h.complete

/-- One processor. -/
def oneProcessor : Cpuinfo where
  processors := 1
  values
    | .f1 => ["0".toList]
    | .f2 => ["Atom".toList]
    | .f3 => ["9".toList]
  length_values c := by cases c <;> rfl
  plain c := by cases c <;> decide

/-- All jobs have written their lines before `paste` reads the first. -/
theorem getProcinfo_eq_iff_one_processor : ∃ w s,
    (machine oneProcessor).Run started w s ∧ Synchronised oneProcessor w ∧
    getProcinfo s.out = [["0".toList, "Atom".toList, "9".toList]] := by
  have hopen := ((((Machine.Run.refl (M := machine oneProcessor) started).snoc
    (.openFifo (c := .f1) rfl rfl rfl)).snoc (.openFifo (c := .f2) rfl rfl rfl)).snoc
    (.create (c := .f3) rfl rfl rfl)).snoc (.openFile (c := .f3) rfl rfl (by simp [started]))
  have hspeed := ((((hopen.snoc (.write (c := .f1) rfl)).snoc (.write (c := .f1) rfl)).snoc
    (.exit (c := .f1) rfl)).snoc (.write (c := .f3) rfl)).snoc (.write (c := .f3) rfl)
  have hmodel := ((((hspeed.snoc (.write (c := .f2) rfl)).snoc (.write (c := .f2) rfl)).snoc
    (.write (c := .f2) rfl)).snoc (.write (c := .f2) rfl)).snoc (.write (c := .f2) rfl)
  have hlines := ((((hmodel.snoc (.exit (c := .f2) rfl)).snoc (.begin rfl)).snoc
    (.line (l := "0".toList) rfl rfl rfl (Or.inl rfl)
      (List.all_iff_forall_prop.mp rfl))).snoc
    (.line (l := "Atom".toList) rfl rfl rfl (Or.inl rfl)
      (List.all_iff_forall_prop.mp rfl))).snoc
    (.line (l := "9".toList) rfl rfl rfl (Or.inl rfl)
      (List.all_iff_forall_prop.mp rfl))
  have hends := (((hlines.snoc (.again rfl ⟨.f1, by decide⟩)).snoc
    (.noLine rfl rfl rfl fun _ => rfl)).snoc (.noLine rfl rfl rfl fun _ => rfl)).snoc
    (.noLine (c := .f3) rfl rfl rfl (by simp [Channel.isFifo]))
  have hexit := hends.snoc (.finish rfl (by rintro (_ | _ | _) <;> rfl))
  exact ⟨_, _, hexit, (getProcinfo_eq_iff hexit rfl).mp (by decide +kernel), by decide +kernel⟩

/-- `paste` meets the end of the third file before its job has written the speed. -/
theorem speed_lost : ∃ w s, (machine oneProcessor).Run started w s ∧ s.paste = .exited ∧
    oneProcessor.table = [["0".toList, "Atom".toList, "9".toList]] ∧
    s.out = "0\tAtom\t".toList ∧ getProcinfo s.out = [] := by
  have hopen := ((((Machine.Run.refl (M := machine oneProcessor) started).snoc
    (.openFifo (c := .f1) rfl rfl rfl)).snoc (.openFifo (c := .f2) rfl rfl rfl)).snoc
    (.create (c := .f3) rfl rfl rfl)).snoc (.openFile (c := .f3) rfl rfl (by simp [started]))
  have hid := (((hopen.snoc (.write (c := .f1) rfl)).snoc (.write (c := .f1) rfl)).snoc
    (.exit (c := .f1) rfl)).snoc (.begin rfl)
  have hmodel := ((((hid.snoc (.write (c := .f2) rfl)).snoc (.write (c := .f2) rfl)).snoc
    (.write (c := .f2) rfl)).snoc (.write (c := .f2) rfl)).snoc (.write (c := .f2) rfl)
  have hlines := ((hmodel.snoc (.exit (c := .f2) rfl)).snoc
    (.line (l := "0".toList) rfl rfl rfl (Or.inl rfl)
      (List.all_iff_forall_prop.mp rfl))).snoc
    (.line (l := "Atom".toList) rfl rfl rfl (Or.inl rfl)
      (List.all_iff_forall_prop.mp rfl))
  -- the third job has created its file and not written to it
  have hround := (hlines.snoc
    (.noLine (c := .f3) rfl rfl rfl (by simp [Channel.isFifo]))).snoc
    (.again rfl ⟨.f1, by decide⟩)
  have hexit := (((hround.snoc (.noLine rfl rfl rfl fun _ => rfl)).snoc
    (.noLine rfl rfl rfl fun _ => rfl)).snoc (.skip rfl rfl)).snoc
    (.finish rfl (by rintro (_ | _ | _) <;> rfl))
  exact ⟨_, _, hexit, rfl, by decide +kernel, by decide +kernel, by decide +kernel⟩

end Sisop.WebMonitor.ProcInfo
