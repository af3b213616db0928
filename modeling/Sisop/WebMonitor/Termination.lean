import Sisop.WebMonitor.Schedule

/-!
# Every schedule of the processor table's script ends

Each step before the exit of `paste` writes, reads or closes something, brings `paste`
on in its round, or ends a round. A round begins only while a file is not closed, and
`paste` then takes something from it in that round. So there are only so many steps. None
of the processes can block the others for good either: `paste` opens a named pipe together
with its job, which then writes all it has to and closes the pipe.

## Main definitions

* `work` — a bound on the steps before the exit of `paste`
* `Opened` — the named pipes are open exactly once `paste` has come to them

## Main results

* `work_lt_of_step` — every step before the exit of `paste` leaves less work
* `exists_step` — before the exit of `paste` some process can take a step
* `schedule_ends` — every schedule is bounded and can be carried on to the exit
-/

namespace Sisop.WebMonitor.ProcInfo

open Foundations

variable {info : Cpuinfo} {c : Channel} {s t : State} {w : List Event} {e : Event}
  {todo : List Channel}

/-! ### The work left -/

/-- What the job of a file has still to do. -/
def jobWork (info : Cpuinfo) (s : State) (c : Channel) : ℕ :=
  -- each character is written by the job and read by `paste`
  match s.job c with
  | .start => 2 * (info.text c).length + 2
  | .writing rest => 2 * rest.length + 1
  | .exited => 0

/-- The changes that a file in `paste` can still go through. -/
def Stream.work : Stream → ℕ
  | .active => 2
  | .atEnd => 1
  | .closed => 0

/-- What the job of a file and `paste` have still to do with it. -/
def fileWork (info : Cpuinfo) (s : State) (c : Channel) : ℕ :=
  jobWork info s c + (s.unread c).length + (s.stream c).work

/-- What `paste` has still to do in its round, and in the next if it has passed all files
that are not closed. -/
def pasteWork (s : State) : ℕ :=
  match s.paste with
  -- more than the first round leaves when it begins
  | .opening todo => todo.length + 10
  | .reading todo => todo.length + 1 + if ∃ c ∈ todo, s.stream c ≠ .closed then 0 else 5
  | .exited => 0

/-- What the script has still to do before `paste` exits. -/
def work (info : Cpuinfo) (s : State) : ℕ :=
  -- taking something from a file may put off the last round by a whole round
  8 * (fileWork info s .f1 + fileWork info s .f2 + fileWork info s .f3) + pasteWork s

/-- Work done on one file makes up for what `paste` has more to do. -/
theorem work_lt_of_file (c : Channel) (hself : fileWork info t c < fileWork info s c)
    (hother : ∀ c', c' ≠ c → t.job c' = s.job c' ∧ t.unread c' = s.unread c' ∧
      t.stream c' = s.stream c')
    (hpaste : pasteWork t ≤ pasteWork s + 5) : work info t < work info s := by
  have hsame : ∀ c', c' ≠ c → fileWork info t c' = fileWork info s c' := by
    intro c' hc
    obtain ⟨hjob, hunread, hstream⟩ := hother c' hc
    rw [fileWork, fileWork, jobWork, jobWork, hjob, hunread, hstream]
  have h1 := hsame .f1
  have h2 := hsame .f2
  have h3 := hsame .f3
  rw [work, work]
  cases c with
  | f1 => rw [h2 (by decide), h3 (by decide)]; omega
  | f2 => rw [h1 (by decide), h3 (by decide)]; omega
  | f3 => rw [h1 (by decide), h2 (by decide)]; omega

/-- `paste` brought on without a file is work done. -/
theorem work_lt_of_paste (hjob : t.job = s.job) (hunread : t.unread = s.unread)
    (hstream : t.stream = s.stream) (hless : pasteWork t < pasteWork s) :
    work info t < work info s := by
  have hsame : ∀ c, fileWork info t c = fileWork info s c := by
    intro c
    rw [fileWork, fileWork, jobWork, jobWork, hjob, hunread, hstream]
  rw [work, work, hsame, hsame, hsame]
  exact Nat.add_lt_add_left hless _

/-- A step of a job leaves `paste` where it is. -/
theorem pasteWork_eq (hpaste : t.paste = s.paste) (hstream : t.stream = s.stream) :
    pasteWork t = pasteWork s := by
  rw [pasteWork, pasteWork, hpaste, hstream]

theorem le_pasteWork_of_reading (hpaste : s.paste = .reading todo) :
    todo.length + 1 ≤ pasteWork s ∧ pasteWork s ≤ todo.length + 6 := by
  rw [pasteWork, hpaste]
  simp only
  split_ifs <;> omega

/-- Taking something from a file makes no more than the next round to do. -/
theorem pasteWork_reading_le (hpaste : s.paste = .reading (c :: todo))
    (hpaste' : t.paste = .reading todo) : pasteWork t ≤ pasteWork s + 5 := by
  have hs := (le_pasteWork_of_reading hpaste).1
  have ht := (le_pasteWork_of_reading hpaste').2
  rw [List.length_cons] at hs
  omega

/-- Every step before the exit of `paste` leaves less work. -/
theorem work_lt_of_step (hstep : Step info s e t) (hlive : s.paste ≠ .exited) :
    work info t < work info s := by
  cases hstep with
  | @openFifo c todo hpaste _ hjob =>
    refine work_lt_of_file c (by simp [fileWork, jobWork, hjob]) (fun c' hc => by simp [hc]) ?_
    simp only [pasteWork, hpaste, List.length_cons]
    omega
  | openFile hpaste | openMissing hpaste =>
    refine work_lt_of_paste rfl rfl rfl ?_
    simp [hpaste, pasteWork]
  | @create c _ hjob | @createFails c hjob | @exit c hjob =>
    exact work_lt_of_file c (by simp [fileWork, jobWork, hjob]) (fun c' hc => by simp [hc])
      ((pasteWork_eq rfl rfl).le.trans (Nat.le_add_right _ _))
  | @write c x rest hjob =>
    -- the character is still to be read
    refine work_lt_of_file c ?_ (fun c' hc => by simp [hc])
      ((pasteWork_eq rfl rfl).le.trans (Nat.le_add_right _ _))
    simp only [fileWork, jobWork, hjob, Function.update_self, List.length_cons,
      List.length_append, List.length_nil]
    omega
  | broken _ hpaste | remove hpaste => exact absurd hpaste hlive
  | begin hpaste =>
    refine work_lt_of_paste rfl rfl rfl ((le_pasteWork_of_reading rfl).2.trans_lt ?_)
    simp [pasteWork, hpaste, files]
  | @line c todo l rest x hpaste _ hunread =>
    refine work_lt_of_file c ?_ (fun c' hc => by simp [hc]) (pasteWork_reading_le hpaste rfl)
    simp only [fileWork, jobWork, hunread, Function.update_self, List.length_append,
      List.length_cons]
    omega
  | @lastLine c todo hpaste hactive =>
    refine work_lt_of_file c ?_ (fun c' hc => by simp [hc]) (pasteWork_reading_le hpaste rfl)
    simp only [fileWork, jobWork, hactive, Function.update_self, List.length_nil, Stream.work]
    omega
  | @noLine c todo hpaste hstream | @close c todo hpaste hstream =>
    refine work_lt_of_file c ?_ (fun c' hc => by simp [hc]) (pasteWork_reading_le hpaste rfl)
    simp only [fileWork, jobWork, hstream, Function.update_self, Stream.work]
    omega
  | @skip c todo hpaste hclosed =>
    refine work_lt_of_paste rfl rfl rfl ?_
    simp only [pasteWork, hpaste, List.length_cons, List.exists_mem_cons_iff, hclosed, ne_eq,
      not_true_eq_false, false_or]
    omega
  | again hpaste hopen =>
    refine work_lt_of_paste rfl rfl rfl ?_
    obtain ⟨c, hc⟩ := hopen
    simp only [pasteWork, hpaste]
    rw [if_pos ⟨c, mem_files c, hc⟩, if_neg (by simp)]
    decide
  | finish hpaste =>
    refine work_lt_of_paste rfl rfl rfl ?_
    simp only [pasteWork, hpaste]
    omega

/-! ### The named pipes -/

/-- The files that `paste` has still to open. -/
def Paste.unopened : Paste → List Channel
  | .opening todo => todo
  | .reading _ | .exited => []

/-- While `paste` runs, the job of a named pipe waits for it to open the pipe, and only
until it does. -/
structure Opened (s : State) : Prop where
  suffix : s.paste.unopened <:+ files
  start_iff : s.paste ≠ .exited → ∀ c, c.isFifo = true →
    (s.job c = .start ↔ c ∈ s.paste.unopened)

theorem Opened.init : Opened started where
  suffix := List.suffix_rfl
  start_iff _ c _ := iff_of_true rfl (mem_files c)

/-- A step that opens no named pipe. -/
theorem Opened.keep (h : Opened s) (hsuffix : t.paste.unopened <:+ s.paste.unopened)
    (hlive : t.paste ≠ .exited → s.paste ≠ .exited ∧
      ∀ c, c.isFifo = true → (t.job c = .start ↔ s.job c = .start) ∧
        (c ∈ t.paste.unopened ↔ c ∈ s.paste.unopened)) : Opened t where
  suffix := hsuffix.trans h.suffix
  start_iff := by
    intro ht c hfifo
    obtain ⟨hs, hsame⟩ := hlive ht
    rw [(hsame c hfifo).1, (hsame c hfifo).2]
    exact h.start_iff hs c hfifo

/-- The next file opened is not among those after it. -/
theorem Opened.notMem (h : Opened s) (hpaste : s.paste = .opening (c :: todo)) : c ∉ todo := by
  have hsuffix := h.suffix
  rw [hpaste] at hsuffix
  exact (List.nodup_cons.mp (nodup_files.sublist hsuffix.sublist)).1

theorem Opened.step (h : Opened s) (hremoved : s.removed = true → s.paste = .exited)
    (hstep : Step info s e t) : Opened t := by
  cases hstep with
  | @openFifo c todo hpaste hfifo hjob =>
    have hstart := h.start_iff (by simp [hpaste])
    have hsuffix := h.suffix
    rw [hpaste] at hstart hsuffix
    refine ⟨(List.suffix_cons c todo).trans hsuffix, fun _ c' hfifo' => ?_⟩
    by_cases hc : c' = c
    · subst hc
      simpa [Paste.unopened] using h.notMem hpaste
    · simpa [Paste.unopened, hc] using hstart c' hfifo'
  | @openFile c todo hpaste hfile =>
    refine h.keep (by simp [hpaste, Paste.unopened]) fun _ => ⟨by simp [hpaste], fun c' hfifo => ?_⟩
    have hc : c' ≠ c := by
      rintro rfl
      simp [hfile] at hfifo
    simp [hpaste, Paste.unopened, hc]
  | openMissing => exact h.keep List.nil_suffix fun ht => absurd rfl ht
  | @create c hfile hjob =>
    refine h.keep List.suffix_rfl fun ht => ⟨ht, fun c' hfifo => ⟨?_, Iff.rfl⟩⟩
    have hc : c' ≠ c := by
      rintro rfl
      simp [hfile] at hfifo
    simp [hc]
  | createFails _ hdir =>
    exact h.keep List.suffix_rfl fun ht => absurd (hremoved hdir) ht
  | @write c x rest hjob | @exit c hjob =>
    refine h.keep List.suffix_rfl fun ht => ⟨ht, fun c' _ => ⟨?_, Iff.rfl⟩⟩
    by_cases hc : c' = c
    · subst hc
      simp [hjob]
    · simp [hc]
  | broken _ hpaste | remove hpaste =>
    exact h.keep List.suffix_rfl fun ht => absurd hpaste ht
  | begin hpaste | line hpaste | lastLine hpaste | noLine hpaste | close hpaste | skip hpaste
  | again hpaste =>
    refine h.keep (by simp [hpaste, Paste.unopened]) fun _ => ⟨by simp [hpaste], fun c _ => ?_⟩
    simp [hpaste, Paste.unopened]
  | finish => exact h.keep List.nil_suffix fun ht => absurd rfl ht

theorem Opened.of_reachable (hs : (machine info).Reachable s) : Opened s := by
  have hboth := hs.invariant (I := fun s => (s.removed = true → s.paste = .exited) ∧ Opened s)
    ?_ ?_
  · exact hboth.2
  · rintro s rfl
    exact ⟨fun h => (by cases h), .init⟩
  · rintro s e t hstep ⟨hremoved, h⟩
    exact ⟨paste_of_removed hremoved hstep, h.step hremoved hstep⟩

/-! ### Schedules -/

/-- A line ends at the first place where one can end. -/
theorem exists_eq_append_of_endsLine {l : List Char} (h : ∃ x ∈ l, EndsLine x) :
    ∃ a x b, l = a ++ x :: b ∧ EndsLine x ∧ ∀ y ∈ a, ¬ EndsLine y := by
  have hfound : (l.find? fun x => decide (EndsLine x)).isSome := by simpa using h
  obtain ⟨x, hx⟩ := Option.isSome_iff_exists.mp hfound
  obtain ⟨hends, a, b, rfl, ha⟩ := List.find?_eq_some_iff_append.mp hx
  exact ⟨a, x, b, rfl, by simpa using hends, fun y hy => by simpa using ha y hy⟩

/-- Before the exit of `paste` some process can take a step. -/
theorem Opened.exists_step (h : Opened s) (hlive : s.paste ≠ .exited) :
    ∃ e t, Step info s e t := by
  have hstart := h.start_iff hlive
  cases hpaste : s.paste with
  | exited => exact absurd hpaste hlive
  | opening todo =>
    cases todo with
    | nil => exact ⟨_, _, .begin hpaste⟩
    | cons c todo =>
      by_cases hfifo : c.isFifo = true
      · have hjob : s.job c = .start := (hstart c hfifo).mpr (by simp [hpaste, Paste.unopened])
        exact ⟨_, _, .openFifo hpaste hfifo hjob⟩
      · rw [Bool.not_eq_true] at hfifo
        by_cases hjob : s.job c = .start
        · exact ⟨_, _, .openMissing hpaste hfifo hjob⟩
        · exact ⟨_, _, .openFile hpaste hfifo hjob⟩
  | reading todo =>
    cases todo with
    | nil =>
      by_cases hopen : ∃ c, s.stream c ≠ .closed
      · exact ⟨_, _, .again hpaste hopen⟩
      · push Not at hopen
        exact ⟨_, _, .finish hpaste hopen⟩
    | cons c todo =>
      cases hstream : s.stream c with
      | closed => exact ⟨_, _, .skip hpaste hstream⟩
      | atEnd => exact ⟨_, _, .close hpaste hstream⟩
      | active =>
        by_cases hline : ∃ x ∈ s.unread c, EndsLine x
        · obtain ⟨l, x, rest, hunread, hx, hl⟩ := exists_eq_append_of_endsLine hline
          exact ⟨_, _, .line hpaste hstream hunread hx hl⟩
        push Not at hline
        by_cases hwaits : c.isFifo = true ∧ s.job c ≠ .exited
        · -- `paste` waits for the job of an open pipe, which can go on
          obtain ⟨hfifo, hjob⟩ := hwaits
          cases hc : s.job c with
          | start =>
            have hmem := (hstart c hfifo).mp hc
            simp [hpaste, Paste.unopened] at hmem
          | writing rest =>
            cases rest with
            | nil => exact ⟨_, _, .exit hc⟩
            | cons x rest => exact ⟨_, _, .write hc⟩
          | exited => exact absurd hc hjob
        · have hend : c.isFifo = true → s.job c = .exited := fun hfifo => by
            by_contra hjob
            exact hwaits ⟨hfifo, hjob⟩
          by_cases hunread : s.unread c = []
          · exact ⟨_, _, .noLine hpaste hstream hunread hend⟩
          · exact ⟨_, _, .lastLine hpaste hstream hunread hline hend⟩

theorem paste_ne_exited_of_step (hstep : Step info s e t) (ht : t.paste ≠ .exited) :
    s.paste ≠ .exited := by
  cases hstep <;> simp_all

/-- Every schedule ends: no run takes more steps before the exit of `paste` than there is
work at the start, and every reachable state leads to the exit. -/
theorem schedule_ends (hrun : (machine info).Run started w s) :
    (s.paste ≠ .exited → w.length ≤ work info started) ∧
      ∃ v t, (machine info).Run s v t ∧ t.paste = .exited := by
  have hreach : (machine info).Reachable s := ⟨started, w, rfl, hrun⟩
  constructor
  · intro hlive
    have hbound : w.length + work info s ≤ work info started :=
      hrun.length_add_le paste_ne_exited_of_step work_lt_of_step hlive
    exact (Nat.le_add_right _ _).trans hbound
  · have hplan : ∃ v t, (machine info).Run s v t ∧ (∀ e ∈ v, True) ∧ t.paste = .exited := by
      refine Machine.exists_run_to_goal (I := (machine info).Reachable) (work info) ?_ hreach
      intro s hs hlive
      obtain ⟨e, t, hstep⟩ := (Opened.of_reachable hs).exists_step hlive
      exact ⟨[e], t, .single hstep, fun _ _ => trivial,
        Or.inr ⟨hs.step hstep, work_lt_of_step hstep hlive⟩⟩
    obtain ⟨v, t, hrest, -, hexit⟩ := hplan
    exact ⟨v, t, hrest, hexit⟩

end Sisop.WebMonitor.ProcInfo
