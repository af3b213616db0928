import Mathlib.Data.List.Range
import Sisop.WebMonitor.ProcInfo

/-!
# Schedules of the processor table's script

Two invariants hold whatever the order of the steps. Of each file, what `paste` has
taken, what lies in it and what its job has still to write make up what the job prints,
until `paste` meets the end of the file and what was not written is lost. And `paste`
has taken from each file one line for each round, unless it has met the end, and has
printed in each round the lines it has taken.

## Main definitions

* `linesRead` — the lines that `paste` takes from a file in a run
* `Contents`, `Rounds` — the invariants of a file and of `paste`

## Main results

* `contents_of_run`, `rounds_of_run` — the invariants hold in every run
-/

namespace Sisop.WebMonitor.ProcInfo

open Foundations CString

/-- The lines that `paste` takes from a file, in order. -/
def linesRead (c : Channel) (w : List Event) : List (List Char) :=
  w.flatMap fun
    | .line c' l => if c' = c then [l] else []
    | .ending c' rest _ => if c' = c then Text.linesSeen [] rest else []
    | _ => []

variable {info : Cpuinfo} {c : Channel} {s t : State} {w : List Event} {e : Event}

theorem linesRead_append (c : Channel) (w : List Event) (e : Event) :
    linesRead c (w ++ [e]) = linesRead c w ++ linesRead c [e] := List.flatMap_append

theorem linesRead_line (c c' : Channel) (l : List Char) :
    linesRead c [.line c' l] = if c' = c then [l] else [] := by
  simp [linesRead]

theorem linesRead_ending (c c' : Channel) (rest u : List Char) :
    linesRead c [.ending c' rest u] = if c' = c then Text.linesSeen [] rest else [] := by
  simp [linesRead]

/-- The other steps take no line. -/
theorem linesRead_eq_nil (hline : ∀ l, e ≠ .line c l) (hending : ∀ rest u, e ≠ .ending c rest u) :
    linesRead c [e] = [] := by
  cases e with
  | line c' l =>
    rw [linesRead_line, if_neg]
    rintro rfl
    exact hline l rfl
  | ending c' rest u =>
    rw [linesRead_ending, if_neg]
    rintro rfl
    exact hending rest u rfl
  | _ => rfl

/-! ### The contents of a file -/

/-- No value holds the terminator of a string. -/
def Cpuinfo.Terminated (info : Cpuinfo) : Prop := ∀ c, ∀ v ∈ info.values c, nul ∉ v

/-- What is read of a file, what is in it and what its job has still to write make up
the job's text, until `paste` meets the end of the file. Then what was not written is
what `paste` does not see. -/
structure Contents (info : Cpuinfo) (c : Channel) (w : List Event) (s : State) : Prop where
  lines : ∀ l ∈ linesRead c w, '\n' ∉ l
  active : s.stream c = .active → (∀ rest u, .ending c rest u ∉ w) ∧ (s.paste ≠ .exited →
    Text.unlines '\n' (linesRead c w) ++ s.unread c ++ unwritten info s c = info.text c)
  ended : s.stream c ≠ .active → ∃ ls rest u, .ending c rest u ∈ w ∧
    (∀ rest' u', .ending c rest' u' ∈ w → rest' = rest ∧ u' = u) ∧
    (∀ l ∈ ls, '\n' ∉ l) ∧ '\n' ∉ rest ∧ (c.isFifo = true → u = []) ∧
    linesRead c w = Text.linesSeen ls rest ∧
    Text.unlines '\n' ls ++ rest ++ u = info.text c

theorem Contents.init (info : Cpuinfo) (c : Channel) : Contents info c [] started where
  lines := by simp [linesRead]
  active _ := ⟨by simp, fun _ => rfl⟩
  ended h := absurd rfl h

/-- A step that neither reads from the file nor meets its end. -/
theorem Contents.frame (h : Contents info c w s) (hline : ∀ l, e ≠ .line c l)
    (hending : ∀ rest u, e ≠ .ending c rest u)
    (hactive : t.stream c = .active ↔ s.stream c = .active)
    (htext : t.paste ≠ .exited → s.paste ≠ .exited ∧
      t.unread c ++ unwritten info t c = s.unread c ++ unwritten info s c) :
    Contents info c (w ++ [e]) t := by
  have hlines : linesRead c (w ++ [e]) = linesRead c w := by
    rw [linesRead_append, linesRead_eq_nil hline hending, List.append_nil]
  have hmem : ∀ rest u, .ending c rest u ∈ w ++ [e] → .ending c rest u ∈ w := by
    intro rest u h
    refine (List.mem_append.mp h).resolve_right fun he => ?_
    exact hending rest u (List.mem_singleton.mp he).symm
  constructor
  · rw [hlines]
    exact h.lines
  · intro ht
    obtain ⟨hnone, hcontents⟩ := h.active (hactive.mp ht)
    refine ⟨fun rest u he => hnone rest u (hmem rest u he), fun hpaste => ?_⟩
    rw [hlines, List.append_assoc, (htext hpaste).2, ← List.append_assoc]
    exact hcontents (htext hpaste).1
  · intro ht
    obtain ⟨ls, rest, u, he, hunique, hrest⟩ := h.ended fun hs => ht (hactive.mpr hs)
    refine ⟨ls, rest, u, List.mem_append_left _ he, fun rest' u' he' => ?_, ?_⟩
    · exact hunique rest' u' (hmem rest' u' he')
    · rw [hlines]
      exact hrest

/-- A line taken from the file. -/
theorem Contents.line {l rest out : List Char} {x : Char} {paste : Paste}
    (hinfo : info.Terminated) (h : Contents info c w s) (hpaste : s.paste ≠ .exited)
    (hactive : s.stream c = .active) (hunread : s.unread c = l ++ x :: rest) (hx : EndsLine x)
    (hline : ∀ y ∈ l, ¬ EndsLine y) :
    Contents info c (w ++ [.line c l])
      { s with unread := Function.update s.unread c rest, out := out, paste := paste } := by
  obtain ⟨hnone, hcontents⟩ := h.active hactive
  have htext := hcontents hpaste
  -- the job prints no terminator
  obtain rfl : x = '\n' := by
    refine hx.resolve_right fun hnul => ?_
    have hmem : x ∈ info.text c := by
      rw [← htext, hunread]
      simp
    obtain ⟨v, hv, hmem⟩ := List.mem_flatMap.mp hmem
    rw [List.mem_append, List.mem_singleton] at hmem
    rcases hmem with hmem | rfl
    · exact hinfo c v hv (hnul ▸ hmem)
    · exact absurd hnul (by decide)
  constructor
  · rw [linesRead_append, linesRead_line, if_pos rfl]
    intro l' hl'
    rcases List.mem_append.mp hl' with hl' | hl'
    · exact h.lines l' hl'
    · rw [List.mem_singleton.mp hl']
      exact fun hmem => hline _ hmem (Or.inl rfl)
  · intro _
    refine ⟨fun rest u hmem => hnone rest u (by simpa using hmem), fun _ => ?_⟩
    rw [← htext, linesRead_append, linesRead_line, if_pos rfl, Text.unlines_append]
    simp [hunread, unwritten]
  · exact fun hs => absurd hactive hs

/-- The end of the file met. -/
theorem Contents.ending (h : Contents info c w s) (hpaste : s.paste ≠ .exited)
    (hactive : s.stream c = .active) (hunread : ∀ y ∈ s.unread c, ¬ EndsLine y)
    (hend : c.isFifo = true → s.job c = .exited) (ht : t.stream c ≠ .active) :
    Contents info c (w ++ [.ending c (s.unread c) (unwritten info s c)]) t := by
  obtain ⟨hnone, hcontents⟩ := h.active hactive
  have hrest : '\n' ∉ s.unread c := fun hmem => hunread _ hmem (Or.inl rfl)
  have hlines : linesRead c (w ++ [.ending c (s.unread c) (unwritten info s c)]) =
      Text.linesSeen (linesRead c w) (s.unread c) := by
    rw [linesRead_append, linesRead_ending, if_pos rfl]
    rfl
  constructor
  · rw [hlines, Text.linesSeen]
    intro l hl
    rcases List.mem_append.mp hl with hl | hl
    · exact h.lines l hl
    · split_ifs at hl
      · simp at hl
      · rwa [List.mem_singleton.mp hl]
  · exact fun hs => absurd hs ht
  · intro _
    refine ⟨linesRead c w, s.unread c, unwritten info s c, by simp, fun rest' u' hmem => ?_,
      h.lines, hrest, fun hfifo => ?_, hlines, hcontents hpaste⟩
    · rcases List.mem_append.mp hmem with hmem | hmem
      · exact absurd hmem (hnone rest' u')
      · exact (Event.ending.inj (List.mem_singleton.mp hmem)).2
    · rw [unwritten, hend hfifo]

/-- A job's step on its own file leaves what is in each file and still to be written. -/
theorem unread_append_unwritten_eq (c' : Channel)
    (hself : t.unread c' ++ unwritten info t c' = s.unread c' ++ unwritten info s c')
    (hother : c ≠ c' → t.unread c = s.unread c ∧ t.job c = s.job c) :
    t.unread c ++ unwritten info t c = s.unread c ++ unwritten info s c := by
  by_cases hc : c = c'
  · rw [hc, hself]
  · obtain ⟨hunread, hjob⟩ := hother hc
    rw [unwritten, unwritten, hunread, hjob]

/-- Any step of the script. The directory is removed only when `paste` has exited. -/
theorem Contents.step (hinfo : info.Terminated) (h : Contents info c w s)
    (hremoved : s.removed = true → s.paste = .exited) (hstep : Step info s e t) :
    Contents info c (w ++ [e]) t := by
  cases hstep with
  | @openFifo c' todo hpaste _ hjob =>
    refine h.frame (by simp) (by simp) Iff.rfl fun _ => ⟨by simp [hpaste], ?_⟩
    exact unread_append_unwritten_eq c' (by simp [unwritten, hjob]) fun hc => by simp [hc]
  | openMissing | finish =>
    -- nothing is said of what is in a file once `paste` has exited
    exact h.frame (by simp) (by simp) Iff.rfl fun hpaste => absurd rfl hpaste
  | @create c' _ hjob | @write c' _ _ hjob | @exit c' hjob =>
    -- what is no longer to be written is in the file
    refine h.frame (by simp) (by simp) Iff.rfl fun hpaste => ⟨hpaste, ?_⟩
    exact unread_append_unwritten_eq c' (by simp [unwritten, hjob]) fun hc => by simp [hc]
  | createFails hjob hdir =>
    -- the directory is there as long as `paste` runs
    exact h.frame (by simp) (by simp) Iff.rfl fun hpaste => absurd (hremoved hdir) hpaste
  | broken hfifo hpaste | remove hpaste =>
    exact h.frame (by simp) (by simp) Iff.rfl fun ht => absurd hpaste ht
  | openFile hpaste | begin hpaste | skip hpaste | again hpaste =>
    exact h.frame (by simp) (by simp) Iff.rfl fun _ => ⟨by simp [hpaste], rfl⟩
  | @line c' todo l rest x hpaste hactive hunread hx hline =>
    by_cases hc : c' = c
    · subst hc
      exact h.line hinfo (by simp [hpaste]) hactive hunread hx hline
    · refine h.frame (by simp [hc]) (by simp) Iff.rfl fun _ => ⟨by simp [hpaste], ?_⟩
      simp [unwritten, Ne.symm hc]
  | @lastLine c' todo hpaste hactive hunread hline hend =>
    by_cases hc : c' = c
    · subst hc
      exact h.ending (by simp [hpaste]) hactive hline hend (by simp)
    · refine h.frame (by simp) (by simp [hc]) (by simp [Ne.symm hc]) fun _ => ⟨by simp [hpaste], ?_⟩
      simp [unwritten, Ne.symm hc]
  | @noLine c' todo hpaste hactive hunread hend =>
    by_cases hc : c' = c
    · subst hc
      rw [← hunread]
      exact h.ending (by simp [hpaste]) hactive (by simp [hunread]) hend (by simp)
    · refine h.frame (by simp) (by simp [hc]) (by simp [Ne.symm hc]) fun _ => ⟨by simp [hpaste], ?_⟩
      simp [unwritten]
  | @close c' todo hpaste hend =>
    refine h.frame (by simp) (by simp) ?_ fun _ => ⟨by simp [hpaste], rfl⟩
    by_cases hc : c = c'
    · subst hc
      simp [hend]
    · simp [hc]

theorem paste_of_removed (hremoved : s.removed = true → s.paste = .exited)
    (hstep : Step info s e t) : t.removed = true → t.paste = .exited := by
  intro ht
  cases hstep <;> simp_all

/-- Every file keeps its contents in every run of the script. -/
theorem contents_of_run (hinfo : info.Terminated) (hrun : (machine info).Run started w s)
    (c : Channel) : Contents info c w s := by
  have hboth := hrun.history_invariant (I := fun w s =>
    (s.removed = true → s.paste = .exited) ∧ Contents info c w s) ?_
    ⟨(fun h => by cases h), .init info c⟩
  · exact hboth.2
  · rintro w s e t hstep ⟨hremoved, h⟩
    exact ⟨paste_of_removed hremoved hstep, h.step hinfo hremoved hstep⟩

/-! ### The rounds of `paste` -/

section Rounds

variable {L L' : Channel → List (List Char)} {missing : Prop} {n k : ℕ} {l : List Char}
  {todo : List Channel}

/-- What `paste` prints for a file in round `k`, given the lines it takes from each file. -/
def cellText (L : Channel → List (List Char)) (k : ℕ) (c : Channel) : List Char :=
  (((L c)[k]?).map (· ++ [c.delim])).getD []

/-- What `paste` prints in round `k`. -/
def roundText (L : Channel → List (List Char)) (k : ℕ) : List Char := files.flatMap (cellText L k)

/-- What `paste` prints in the first `n` rounds. -/
def roundsText (L : Channel → List (List Char)) (n : ℕ) : List Char :=
  (List.range n).flatMap (roundText L)

theorem cellText_of_length_le (h : (L c).length ≤ k) : cellText L k c = [] := by
  rw [cellText, List.getElem?_eq_none h]
  rfl

theorem cellText_congr (h : (L' c)[k]? = (L c)[k]?) : cellText L' k c = cellText L k c := by
  rw [cellText, cellText, h]

theorem roundsText_succ : roundsText L (n + 1) = roundsText L n ++ roundText L n := by
  rw [roundsText, roundsText, List.range_succ, List.flatMap_append, List.flatMap_singleton]

/-- In a round `paste` has taken, from the files it has come to, one line more than in
the rounds before, unless it has met their end. It prints nothing when a file is
missing. -/
def Rounds (L : Channel → List (List Char)) (missing : Prop) (s : State) : Prop :=
  match s.paste with
  | .opening _ => ¬ missing ∧ s.out = [] ∧ ∀ c, L c = [] ∧ s.stream c = .active
  | .reading todo => ¬ missing ∧ ∃ n done, files = done ++ todo ∧
      s.out = roundsText L n ++ done.flatMap (cellText L n) ∧
      (∀ c ∈ done, (L c).length ≤ n + 1 ∧ (s.stream c = .active → (L c).length = n + 1)) ∧
      ∀ c ∈ todo, (L c).length ≤ n ∧ (s.stream c = .active → (L c).length = n)
  | .exited => missing ∧ s.out = [] ∧ (∀ c, s.stream c = .active) ∨
      ¬ missing ∧ ∃ n, s.out = roundsText L n ∧ ∀ c, s.stream c = .closed ∧ (L c).length ≤ n

theorem mem_files (c : Channel) : c ∈ files := by cases c <;> decide

theorem nodup_files : files.Nodup := by decide

/-- The file that `paste` comes to is none of those before and after it. -/
theorem ne_of_files_eq {done : List Channel} (h : files = done ++ c :: todo)
    {c' : Channel} (hc' : c' ∈ done ∨ c' ∈ todo) : c' ≠ c := by
  have hnodup := h ▸ nodup_files
  rw [List.nodup_append, List.nodup_cons] at hnodup
  rcases hc' with hc' | hc'
  · exact hnodup.2.2 c' hc' c List.mem_cons_self
  · rintro rfl
    exact hnodup.2.1.1 hc'

theorem Rounds.init : Rounds (fun _ => []) False started := by simp [Rounds, started]

theorem Rounds.frame (h : Rounds L missing s) (hpaste : t.paste = s.paste)
    (hout : t.out = s.out) (hstream : t.stream = s.stream) : Rounds L missing t := by
  rw [Rounds] at h ⊢
  rw [hpaste, hout, hstream]
  exact h

/-- `paste` takes a line from the next file and prints it. -/
theorem Rounds.take (h : Rounds L missing s) (hpaste : s.paste = .reading (c :: todo))
    (hactive : s.stream c = .active) (hL : L' = Function.update L c (L c ++ [l]))
    (hpaste' : t.paste = .reading todo) (hout : t.out = s.out ++ (l ++ [c.delim]))
    (hstream : ∀ c' ≠ c, t.stream c' = s.stream c') : Rounds L' missing t := by
  subst hL
  simp only [Rounds, hpaste] at h
  obtain ⟨hfound, n, done, hfiles, hprinted, hdone, htodo⟩ := h
  have hne : ∀ c', c' ∈ done ∨ c' ∈ todo → c' ≠ c := fun c' => ne_of_files_eq hfiles
  have hlength : (L c).length = n := (htodo c List.mem_cons_self).2 hactive
  -- what has been printed is what the old lines make
  have hsame : ∀ k c', k < n ∨ c' ≠ c →
      cellText (Function.update L c (L c ++ [l])) k c' = cellText L k c' := by
    intro k c' h
    apply cellText_congr
    by_cases hc : c' = c
    · subst hc
      rw [Function.update_self, List.getElem?_append_left (hlength ▸ h.resolve_right (by simp))]
    · rw [Function.update_of_ne hc]
  have hrounds : roundsText (Function.update L c (L c ++ [l])) n = roundsText L n :=
    List.flatMap_congr fun k hk =>
      List.flatMap_congr fun c' _ => hsame k c' (Or.inl (List.mem_range.mp hk))
  have hcell : cellText (Function.update L c (L c ++ [l])) n c = l ++ [c.delim] := by
    rw [cellText, Function.update_self, List.getElem?_append_right hlength.le, hlength,
      Nat.sub_self]
    rfl
  simp only [Rounds, hpaste']
  refine ⟨hfound, n, done ++ [c], by simpa using hfiles, ?_, ?_, ?_⟩
  · rw [hout, hprinted, hrounds, List.flatMap_append, List.flatMap_singleton, hcell,
      List.append_assoc]
    congr 2
    exact List.flatMap_congr fun c' hc' => (hsame n c' (Or.inr (hne c' (Or.inl hc')))).symm
  · intro c' hc'
    rcases List.mem_append.mp hc' with hc' | hc'
    · rw [Function.update_of_ne (hne c' (Or.inl hc')), hstream c' (hne c' (Or.inl hc'))]
      exact hdone c' hc'
    · rw [List.mem_singleton.mp hc', Function.update_self, List.length_append, hlength]
      simp
  · intro c' hc'
    rw [Function.update_of_ne (hne c' (Or.inr hc')), hstream c' (hne c' (Or.inr hc'))]
    exact htodo c' (List.mem_cons_of_mem c hc')

/-- `paste` finds no line in the next file, or has closed it. -/
theorem Rounds.pass (h : Rounds L missing s) (hpaste : s.paste = .reading (c :: todo))
    (hclosed : t.stream c = .closed) (hpaste' : t.paste = .reading todo) (hout : t.out = s.out)
    (hstream : ∀ c' ≠ c, t.stream c' = s.stream c') : Rounds L missing t := by
  simp only [Rounds, hpaste] at h
  obtain ⟨hfound, n, done, hfiles, hprinted, hdone, htodo⟩ := h
  have hne : ∀ c', c' ∈ done ∨ c' ∈ todo → c' ≠ c := fun c' => ne_of_files_eq hfiles
  have hlength : (L c).length ≤ n := (htodo c List.mem_cons_self).1
  simp only [Rounds, hpaste']
  refine ⟨hfound, n, done ++ [c], by simpa using hfiles, ?_, ?_, ?_⟩
  · rw [hout, hprinted, List.flatMap_append, List.flatMap_singleton,
      cellText_of_length_le hlength, List.append_nil]
  · intro c' hc'
    rcases List.mem_append.mp hc' with hc' | hc'
    · rw [hstream c' (hne c' (Or.inl hc'))]
      exact hdone c' hc'
    · rw [List.mem_singleton.mp hc', hclosed]
      exact ⟨hlength.trans (Nat.le_succ n), by simp⟩
  · intro c' hc'
    rw [hstream c' (hne c' (Or.inr hc'))]
    exact htodo c' (List.mem_cons_of_mem c hc')

/-- At the end of a round the next one begins. -/
theorem Rounds.again (h : Rounds L missing s) (hpaste : s.paste = .reading []) :
    Rounds L missing { s with paste := .reading files } := by
  simp only [Rounds, hpaste] at h
  obtain ⟨hfound, n, done, hfiles, hprinted, hdone, -⟩ := h
  rw [List.append_nil] at hfiles
  subst hfiles
  refine ⟨hfound, n + 1, [], rfl, ?_, by simp, hdone⟩
  rw [hprinted, roundsText_succ, List.flatMap_nil, List.append_nil]
  rfl

/-- At the end of a round all files are closed. -/
theorem Rounds.finish (h : Rounds L missing s) (hpaste : s.paste = .reading [])
    (hclosed : ∀ c, s.stream c = .closed) : Rounds L missing { s with paste := .exited } := by
  simp only [Rounds, hpaste] at h
  obtain ⟨hfound, n, done, hfiles, hprinted, hdone, -⟩ := h
  rw [List.append_nil] at hfiles
  subst hfiles
  refine Or.inr ⟨hfound, n + 1, ?_, fun c => ⟨hclosed c, (hdone c (mem_files c)).1⟩⟩
  rw [roundsText_succ]
  exact hprinted

/-- `paste` has not found a file. -/
def Missing (w : List Event) : Prop := ∃ c, .opened c false ∈ w

theorem missing_append (h : ∀ c, e ≠ .opened c false) : Missing (w ++ [e]) = Missing w := by
  have he : ∀ c, Event.opened c false ≠ e := fun c => (h c).symm
  simp [Missing, he]

/-- A step that takes nothing from a file and misses none. -/
theorem Rounds.frame_event (h : Rounds (linesRead · w) (Missing w) t)
    (hlines : ∀ c, linesRead c [e] = []) (hopened : ∀ c, e ≠ .opened c false) :
    Rounds (linesRead · (w ++ [e])) (Missing (w ++ [e])) t := by
  have hL : (linesRead · (w ++ [e])) = (linesRead · w) := by
    funext c
    rw [linesRead_append, hlines, List.append_nil]
  rw [missing_append hopened, hL]
  exact h

/-- A step that takes a line. -/
theorem linesRead_append_eq_update (hlines : ∀ c', linesRead c' [e] = if c = c' then [l] else []) :
    (linesRead · (w ++ [e])) =
      Function.update (linesRead · w) c (linesRead c w ++ [l]) := by
  funext c'
  rw [linesRead_append, hlines]
  by_cases hc : c' = c
  · subst hc
    rw [if_pos rfl, Function.update_self]
  · rw [if_neg (Ne.symm hc), List.append_nil, Function.update_of_ne hc]

/-- Any step of the script. -/
theorem Rounds.step (h : Rounds (linesRead · w) (Missing w) s) (hstep : Step info s e t) :
    Rounds (linesRead · (w ++ [e])) (Missing (w ++ [e])) t := by
  cases hstep with
  | openFifo hpaste | openFile hpaste =>
    refine Rounds.frame_event ?_ (fun _ => rfl) (by simp)
    simp only [Rounds, hpaste] at h
    exact h
  | @openMissing c todo hpaste =>
    simp only [Rounds, hpaste] at h
    exact Or.inl ⟨⟨c, by simp⟩, h.2.1, fun c => (h.2.2 c).2⟩
  | create | createFails | write | exit | broken | remove =>
    refine Rounds.frame_event ?_ (fun _ => rfl) (by simp)
    exact h.frame rfl rfl rfl
  | begin hpaste =>
    refine Rounds.frame_event ?_ (fun _ => rfl) (by simp)
    simp only [Rounds, hpaste] at h
    obtain ⟨hfound, hout, hfiles⟩ := h
    refine ⟨hfound, 0, [], rfl, hout, by simp, fun c _ => ?_⟩
    have hlines : linesRead c w = [] := (hfiles c).1
    simp [hlines]
  | @line c todo l rest x hpaste hactive =>
    rw [missing_append (by simp)]
    exact h.take hpaste hactive
      (linesRead_append_eq_update fun c' => linesRead_line c' c l) rfl rfl fun _ _ => rfl
  | @lastLine c todo hpaste hactive hunread =>
    rw [missing_append (by simp)]
    have hlines : ∀ c', linesRead c' [.ending c (s.unread c) (unwritten info s c)] =
        if c = c' then [s.unread c] else [] := fun c' => by
      rw [linesRead_ending, Text.linesSeen, if_neg hunread, List.nil_append]
    exact h.take hpaste hactive (linesRead_append_eq_update hlines) rfl rfl
      fun c' hc => by simp [hc]
  | @noLine c todo hpaste =>
    have hlines : ∀ c', linesRead c' [.ending c [] (unwritten info s c)] = [] := fun c' => by
      simp [linesRead_ending, Text.linesSeen]
    refine Rounds.frame_event (h.pass hpaste ?_ rfl rfl fun c' hc => ?_) hlines (by simp)
    · simp
    · simp [hc]
  | @close c todo hpaste =>
    refine Rounds.frame_event (h.pass hpaste ?_ rfl rfl fun c' hc => ?_) (fun _ => rfl) (by simp)
    · simp
    · simp [hc]
  | skip hpaste hclosed =>
    refine Rounds.frame_event ?_ (fun _ => rfl) (by simp)
    exact h.pass hpaste hclosed rfl rfl fun _ _ => rfl
  | again hpaste => exact (h.again hpaste).frame_event (fun _ => rfl) (by simp)
  | finish hpaste hclosed =>
    exact (h.finish hpaste hclosed).frame_event (fun _ => rfl) (by simp)

/-- `paste` keeps its rounds in every run of the script. -/
theorem rounds_of_run (hrun : (machine info).Run started w s) :
    Rounds (linesRead · w) (Missing w) s := by
  refine hrun.history_invariant (I := fun w s => Rounds (linesRead · w) (Missing w) s)
    (fun hstep h => h.step hstep) ?_
  have hmissing : Missing [] = False := by simp [Missing]
  rw [hmissing]
  exact Rounds.init

end Rounds

end Sisop.WebMonitor.ProcInfo
