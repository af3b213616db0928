import Sisop.WebMonitor.Basic

/-!
# The process list

`getprocslist.sh` prints the process id and the name from each `/proc/PID/stat`, where
the name stands between parentheses. It takes out the first opening and the first
closing parenthesis of the line and prints the first two fields. A name may itself hold
blanks and parentheses, which the script cannot tell from those around it.

## Main definitions

* `Process` — a process and the line that the kernel prints for it
* `getprocslist`, `getProcessList` — the script and the list the page shows
* `Shown` — the names that come through

## Main results

* `rows_eq_iff` — when a process has its own row
* `getProcessList_eq_iff` — the list has one right row per process exactly when all
  names come through
-/

namespace Sisop.WebMonitor

open Foundations

/-- The kernel's escape for a character of a name. -/
def escape (c : Char) : List Char :=
  if c = '\n' then ['\\', 'n'] else if c = '\\' then ['\\', '\\'] else [c]

/-- A process: its id and its name, and what the kernel prints after them. -/
structure Process where
  pid : ℕ
  name : List Char
  name_ne_nil : name ≠ []
  state : List Char
  newline_notMem_state : '\n' ∉ state

namespace Process

variable (p : Process)

/-- The process id as it is printed. -/
def pidText : List Char := Nat.toDigits 10 p.pid

/-- The name as it is printed. -/
def comm : List Char := p.name.flatMap escape

/-- `/proc/PID/stat`. -/
def stat : List Char :=
  p.pidText ++ ' ' :: '(' :: (p.comm ++ ')' :: ' ' :: p.state) ++ ['\n']

end Process

/-- The characters that separate fields. -/
def isBlank (c : Char) : Bool := c = ' ' || c = '\t'

/-- `{sub(/\(/,"");sub(/\)/,""); print $1,$2}` on one record. -/
def awkRecord (record : List Char) : List Char :=
  -- each `sub` takes out the first match only
  let fields := Text.fields isBlank ((record.erase '(').erase ')')
  fields.getD 0 [] ++ ' ' :: fields.getD 1 [] ++ ['\n']

/-- The output of `getprocslist.sh`. -/
def getprocslist (procs : List Process) : List Char :=
  procs.flatMap fun p => (Text.lines '\n' p.stat).flatMap awkRecord

/-- `get_process_list`. -/
def getProcessList (out : List Char) : List (List (List Char)) := table ' ' (execscript out)

/-- The names that come through: no blank and no carriage return, and nothing after the
first closing parenthesis but closing parentheses. -/
def Shown (comm : List Char) : Prop :=
  (∀ c ∈ comm, isBlank c = false ∧ c ≠ '\r') ∧ ∀ c ∈ comm.dropWhile (· ≠ ')'), c = ')'

/-! ### One process -/

section Process

variable (p : Process)

theorem Process.isDigit_of_mem_pidText {c : Char} (hc : c ∈ p.pidText) : c.isDigit = true :=
  Nat.isDigit_of_mem_toDigits (by decide) (by decide) hc

theorem Process.notMem_pidText {c : Char} (hc : c.isDigit = false) : c ∉ p.pidText := by
  intro h
  rw [p.isDigit_of_mem_pidText h] at hc
  exact absurd hc (by simp)

theorem Process.not_blank_of_mem_pidText {c : Char} (hc : c ∈ p.pidText) :
    isBlank c = false := by
  by_contra h
  rw [Bool.not_eq_false, isBlank, Bool.or_eq_true, decide_eq_true_eq, decide_eq_true_eq] at h
  rcases h with rfl | rfl <;> exact p.notMem_pidText (by decide) hc

theorem newline_notMem_escape (c : Char) : '\n' ∉ escape c := by
  rw [escape]
  split_ifs with hnl hbs
  · decide
  · decide
  · simpa using Ne.symm hnl

theorem Process.newline_notMem_comm : '\n' ∉ p.comm := by
  simp [comm, newline_notMem_escape]

theorem Process.comm_ne_nil : p.comm ≠ [] := by
  obtain ⟨c, name, hname⟩ := List.exists_cons_of_ne_nil p.name_ne_nil
  have hescape : escape c ≠ [] := by
    rw [escape]
    split_ifs <;> simp
  rw [comm, hname, List.flatMap_cons]
  simp [hescape]

/-- The rest of the line once both parentheses are out: the name as `awk` sees it, and
the process state. -/
def Process.tail : List Char := (p.comm ++ [')']).erase ')' ++ ' ' :: p.state

/-- The second field of the line. -/
def Process.shownName : List Char := (Text.fields isBlank p.tail).getD 0 []

/-- The parentheses taken out are the one before the name and the first one after that. -/
theorem Process.erase_erase_stat :
    ((p.pidText ++ ' ' :: '(' :: (p.comm ++ ')' :: ' ' :: p.state)).erase '(').erase ')' =
      p.pidText ++ ' ' :: p.tail := by
  have hopen : '(' ∉ p.pidText := p.notMem_pidText (by decide)
  have hclose : ')' ∉ p.pidText := p.notMem_pidText (by decide)
  have hsplit : p.comm ++ ')' :: ' ' :: p.state = (p.comm ++ [')']) ++ ' ' :: p.state := by simp
  rw [List.erase_append_right _ hopen, List.erase_cons_tail (by decide),
    List.erase_cons_head, List.erase_append_right _ hclose, List.erase_cons_tail (by decide),
    hsplit, List.erase_append_left _ (by simp), tail]

/-- The line printed for a process. -/
theorem Process.awk_stat : (Text.lines '\n' p.stat).flatMap awkRecord =
    p.pidText ++ ' ' :: p.shownName ++ ['\n'] := by
  have hline : '\n' ∉ p.pidText ++ ' ' :: '(' :: (p.comm ++ ')' :: ' ' :: p.state) := by
    simp [p.newline_notMem_comm, p.newline_notMem_state, p.notMem_pidText (c := '\n') (by decide)]
  rw [stat, Text.lines_append_cons_of_notMem hline]
  have hfields : Text.fields isBlank (p.pidText ++ ' ' :: p.tail) =
      p.pidText :: Text.fields isBlank p.tail :=
    Text.fields_append_cons (fun c hc => p.not_blank_of_mem_pidText hc) Nat.toDigits_ne_nil
      (by decide)
  simp only [Text.lines, List.splitOn_nil, List.dropLast_singleton, List.flatMap_cons,
    List.flatMap_nil, List.append_nil, awkRecord, p.erase_erase_stat, hfields]
  rfl

/-- A field is made of characters of the line that are not blank. -/
theorem Process.mem_of_mem_shownName {c : Char} (hc : c ∈ p.shownName) :
    c ∈ p.tail ∧ isBlank c = false := by
  rw [shownName] at hc
  cases hfields : Text.fields isBlank p.tail with
  | nil => simp [hfields] at hc
  | cons f fs =>
    apply Text.mem_of_mem_fields (f := f) (by simp [hfields]) c
    simpa [hfields] using hc

theorem Process.newline_notMem_shownName : '\n' ∉ p.shownName := by
  intro h
  rcases List.mem_append.mp (p.mem_of_mem_shownName h).1 with h | h
  · have hcomm := List.mem_of_mem_erase h
    simp [p.newline_notMem_comm] at hcomm
  · simp [p.newline_notMem_state] at h

/-- A name without blanks is shown without its first closing parenthesis, and with the
one after it. -/
theorem Process.shownName_eq (h : ∀ c ∈ p.comm, isBlank c = false) :
    p.shownName = (p.comm ++ [')']).erase ')' := by
  have hblank : ∀ c ∈ (p.comm ++ [')']).erase ')', isBlank c = false := by
    intro c hc
    rcases List.mem_append.mp (List.mem_of_mem_erase hc) with hc | hc
    · exact h c hc
    · rw [List.mem_singleton.mp hc]
      decide
  have hne : (p.comm ++ [')']).erase ')' ≠ [] := by
    rw [← List.length_pos_iff, List.length_erase_of_mem (by simp)]
    simpa using List.length_pos_of_ne_nil p.comm_ne_nil
  rw [shownName, tail, Text.fields_append_cons hblank hne (by decide)]
  rfl

/-- The cells of a row joined again. -/
private theorem intercalate_pair (a b : List Char) : [' '].intercalate [a, b] = a ++ ' ' :: b := by
  simp [List.intercalate]

theorem Process.not_blank_of_shownName_eq (h : p.shownName = p.comm ∨
    p.shownName = p.comm ++ ['\r']) : ∀ c ∈ p.comm, isBlank c = false := by
  intro c hc
  refine (p.mem_of_mem_shownName ?_).2
  rcases h with h | h <;> rw [h]
  · exact hc
  · exact List.mem_append_left _ hc

/-- A process has its own row, with its id and its name, exactly when its name comes
through. -/
theorem rows_eq_iff : table ' ' (execscript (p.pidText ++ ' ' :: p.shownName ++ ['\n'])) =
    [[p.pidText, p.comm]] ↔ Shown p.comm := by
  have hpid : ∀ {c : Char}, c.isDigit = false → c ∉ p.pidText := fun hc => p.notMem_pidText hc
  constructor
  · intro h
    have hnl : '\n' ∉ p.pidText ++ ' ' :: p.shownName := by
      simp [hpid, p.newline_notMem_shownName]
    obtain ⟨hline, hnocr⟩ := eq_or_eq_of_table_eq hnl h
    rw [intercalate_pair] at hline hnocr
    have hname : p.shownName = p.comm ∨ p.shownName = p.comm ++ ['\r'] := by
      simpa using hline
    have hblank := p.not_blank_of_shownName_eq hname
    have hshown := p.shownName_eq hblank
    -- one parenthesis came and one went, so there is no room for a carriage return
    have hlength : p.shownName.length = p.comm.length := by
      rw [hshown, List.length_erase_of_mem (by simp)]
      simp
    have hname : p.shownName = p.comm := by
      apply hname.resolve_right
      intro h
      rw [h, List.length_append, List.length_singleton] at hlength
      omega
    refine ⟨fun c hc => ⟨hblank c hc, ?_⟩, ?_⟩
    · rintro rfl
      exact hnocr (by simp [hc])
    · rw [← Text.erase_append_singleton_eq_iff, ← hshown, hname]
  · rintro ⟨hchars, hclose⟩
    have hname : p.shownName = p.comm := by
      rw [p.shownName_eq fun c hc => (hchars c hc).1, Text.erase_append_singleton_eq_iff.mpr hclose]
    have hspace : ' ' ∉ p.comm := fun h => absurd (hchars _ h).1 (by decide)
    have hnl : '\n' ∉ p.pidText ++ ' ' :: p.comm := by
      simp [hpid, p.newline_notMem_comm]
    have hcr : '\r' ∉ p.pidText ++ ' ' :: p.comm := by
      have hcomm : '\r' ∉ p.comm := fun h => (hchars _ h).2 rfl
      simp [hpid, hcomm]
    rw [hname, table_line hnl hcr, List.splitOn_append_cons_self_of_not_mem (hpid (by decide)),
      List.splitOn_eq_singleton hspace]

end Process

/-! ### The list -/

/-- The list has exactly one row for each process, with its id and its name, if and only
if every name comes through. -/
theorem getProcessList_eq_iff (procs : List Process) :
    getProcessList (getprocslist procs) = procs.map (fun p => [p.pidText, p.comm]) ↔
      ∀ p ∈ procs, Shown p.comm := by
  have hout : getprocslist procs =
      procs.flatMap fun p => p.pidText ++ ' ' :: p.shownName ++ ['\n'] := by
    rw [getprocslist]
    exact congrArg procs.flatMap (funext fun p => p.awk_stat)
  rw [getProcessList, hout, table_flatMap, Text.flatMap_eq_map_iff fun p _ => table_ne_nil _]
  exact forall₂_congr fun p _ => rows_eq_iff p

/-- A name with a blank is cut off at the blank. -/
theorem name_with_blank_truncated : ∃ p : Process,
    [p.pidText, p.comm] = ["7".toList, "tmux: server".toList] ∧
    getProcessList (getprocslist [p]) = [["7".toList, "tmux:".toList]] ∧
    getProcessList (getprocslist [p]) ≠ [p].map fun p => [p.pidText, p.comm] := by
  refine ⟨⟨7, "tmux: server".toList, by decide, "S 1 7 7 0".toList, by decide⟩, ?_, ?_, ?_⟩ <;>
    decide +kernel

end Sisop.WebMonitor
