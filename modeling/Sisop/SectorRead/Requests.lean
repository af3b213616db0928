import Sisop.SectorRead.Barrier

/-!
# The requests of the I/O generator

The threads of the generator draw the positions of their writes from one generator of
random numbers, which each of them seeds with the same number, that of the process. A
thread that seeds it late would start the sequence again. The barrier rules this out, as
a thread posts `s1` after it has seeded and draws after it has taken a post of `s0`. So
every run draws the same sequence, whatever the order of the threads, and only which of
them draws a number depends on it.

Every thread has its own file and therefore its own offset: what it seeks is what it
writes to, even if others seek in between.

The steps are finer than those of the barrier, and each of them is one of those or none.

## Main definitions

* `WriterPc`, `Writers`, `WriterStep` — the threads with their offsets
* `Writers.erase` — the state of the barrier
* `Workload` — what the draws and the writes of a run are

## Main results

* `Balanced.posted_eq_one` — a thread past the barrier finds that all have come to it
* `erase_simulates` — the finer steps simulate the barrier
* `workload_of_run` — the requests of a run
-/

namespace Sisop.SectorRead

open Foundations Total

/-- `DISK_SZ`. -/
def diskSz : ℕ := 1073741824

/-- Where a thread is in `write_task`. -/
inductive WriterPc
  /-- Not created yet. -/
  | absent
  /-- About to call `srand`. -/
  | seed
  /-- About to open the device. -/
  | openDevice
  /-- About to post `s1`. -/
  | postReady
  /-- About to wait on `s0`. -/
  | waitBegin
  /-- In turn `i` of the loop, about to call `rand`. -/
  | draw (i : ℕ)
  /-- About to seek to a position. -/
  | seek (i pos : ℕ)
  /-- About to write. -/
  | write (i : ℕ)
  /-- About to close the device. -/
  | close
  | exited
  deriving DecidableEq

/-- The semaphores, `main`, the threads, the generator of random numbers, and the offset
of each thread's file. -/
structure Writers (procs : ℕ) (G : Type*) where
  s0 : ℕ
  s1 : ℕ
  main : MainPc
  th : Fin procs → WriterPc
  gen : G
  offset : Fin procs → ℕ

/-- What a step does: `main` or a thread moves, a thread draws a position, or it writes at
an offset. -/
inductive Event (procs : ℕ)
  | main
  | thread (t : Fin procs)
  | drew (t : Fin procs) (pos : ℕ)
  | wrote (t : Fin procs) (offset : ℕ)
  deriving DecidableEq

variable {procs : ℕ} {G : Type*}

/-- Put one thread at a place in `write_task`. -/
def Writers.goto (s : Writers procs G) (t : Fin procs) (pc : WriterPc) : Writers procs G :=
  { s with th := Function.update s.th t pc }

/-- The test of the loop of a thread. -/
def forDraw (i : ℕ) : WriterPc := if i < 100 then .draw i else .close

/-- One step, where the threads of `fails` cannot open the device, `seeded` is what
`srand(getpid())` leaves, and `rand` gives a number and the next state. -/
inductive WriterStep (fails : Finset (Fin procs)) (seeded : G) (rand : G → ℕ × G) :
    Writers procs G → Event procs → Writers procs G → Prop
  | create {s : Writers procs G} {t : Fin procs} (at_main : s.main = .create t) :
      WriterStep fails seeded rand s .main
        ({ s with main := forCreate procs (t + 1) }.goto t .seed)
  | waitReady {s : Writers procs G} {i : ℕ} (at_main : s.main = .waitReady i)
      (positive : 0 < s.s1) :
      WriterStep fails seeded rand s .main
        { s with s1 := s.s1 - 1, main := forReady procs (i + 1) }
  | letBegin {s : Writers procs G} {i : ℕ} (at_main : s.main = .letBegin i) :
      WriterStep fails seeded rand s .main
        { s with s0 := s.s0 + 1, main := forBegin procs (i + 1) }
  | seed {s : Writers procs G} {t : Fin procs} (at_th : s.th t = .seed) :
      WriterStep fails seeded rand s (.thread t) ({ s with gen := seeded }.goto t .openDevice)
  | openFails {s : Writers procs G} {t : Fin procs} (at_th : s.th t = .openDevice)
      (fails_t : t ∈ fails) :
      WriterStep fails seeded rand s (.thread t) (s.goto t .exited)
  | openDevice {s : Writers procs G} {t : Fin procs} (at_th : s.th t = .openDevice)
      (opens : t ∉ fails) :
      WriterStep fails seeded rand s (.thread t)
        ({ s with offset := Function.update s.offset t 0 }.goto t .postReady)
  | postReady {s : Writers procs G} {t : Fin procs} (at_th : s.th t = .postReady) :
      WriterStep fails seeded rand s (.thread t) ({ s with s1 := s.s1 + 1 }.goto t .waitBegin)
  | waitBegin {s : Writers procs G} {t : Fin procs} (at_th : s.th t = .waitBegin)
      (positive : 0 < s.s0) :
      WriterStep fails seeded rand s (.thread t) ({ s with s0 := s.s0 - 1 }.goto t (forDraw 0))
  -- `pos = (rand() % (DISK_SZ >> 9))`
  | draw {s : Writers procs G} {t : Fin procs} {i : ℕ} (at_th : s.th t = .draw i) :
      WriterStep fails seeded rand s (.drew t ((rand s.gen).1 % (diskSz >>> 9)))
        ({ s with gen := (rand s.gen).2 }.goto t (.seek i ((rand s.gen).1 % (diskSz >>> 9))))
  -- `lseek(fd, pos * 512, SEEK_SET)`, with the product of two `unsigned int`
  | seek {s : Writers procs G} {t : Fin procs} {i pos : ℕ} (at_th : s.th t = .seek i pos) :
      WriterStep fails seeded rand s (.thread t)
        ({ s with offset := Function.update s.offset t (pos * 512 % 2 ^ 32) }.goto t (.write i))
  -- `write(fd, buf, 100)`, which moves the offset by what it has written
  | write {s : Writers procs G} {t : Fin procs} {i : ℕ} (n : ℕ) (at_th : s.th t = .write i) :
      WriterStep fails seeded rand s (.wrote t (s.offset t))
        ({ s with offset := Function.update s.offset t (s.offset t + n) }.goto t
          (forDraw (i + 1)))
  | close {s : Writers procs G} {t : Fin procs} (at_th : s.th t = .close) :
      WriterStep fails seeded rand s (.thread t) (s.goto t .exited)

/-- Every interleaving of `main` and the threads, from any state of the generator of random
numbers and any offsets on. -/
def writers (fails : Finset (Fin procs)) (seeded : G) (rand : G → ℕ × G) :
    Machine (Writers procs G) (Event procs) where
  initial s := s.s0 = 0 ∧ s.s1 = 0 ∧ s.main = forCreate procs 0 ∧ ∀ t, s.th t = .absent
  step := WriterStep fails seeded rand

/-! ### The barrier -/

/-- The place of the barrier that a place stands for. -/
def WriterPc.erase : WriterPc → ThPc
  | .absent => .absent
  | .seed | .openDevice => .openDevice
  | .postReady => .postReady
  | .waitBegin => .waitBegin
  | .draw i | .seek i _ | .write i => .write i
  | .close | .exited => .exited

/-- The state of the barrier. -/
def Writers.erase (s : Writers procs G) : State procs where
  s0 := s.s0
  s1 := s.s1
  main := s.main
  th t := (s.th t).erase

variable {fails : Finset (Fin procs)} {seeded : G} {rand : G → ℕ × G} {s s' : Writers procs G}
  {t u : Fin procs} {e : Event procs}

theorem erase_goto (s : Writers procs G) (t : Fin procs) (pc : WriterPc) :
    (s.goto t pc).erase = s.erase.goto t pc.erase := by
  have hth : (fun u => (Function.update s.th t pc u).erase) =
      Function.update (fun u => (s.th u).erase) t pc.erase := by
    funext u
    exact Function.apply_update (fun _ => WriterPc.erase) s.th t pc u
  simp only [Writers.erase, Writers.goto, State.goto, hth]

theorem erase_forDraw (i : ℕ) : (forDraw i).erase = forWrite i := by
  rw [forDraw, forWrite]
  split_ifs <;> rfl

/-- A move to a place that stands for the same one changes nothing at the barrier. -/
theorem erase_goto_of_eq {pc : WriterPc} (h : pc.erase = (s.th t).erase) :
    (s.goto t pc).erase = s.erase := by
  have hth : s.erase.th t = pc.erase := h.symm
  rw [erase_goto, State.goto, ← hth, Function.update_eq_self]

/-- Every step is a step of the barrier, or none. -/
theorem erase_step (h : WriterStep fails seeded rand s e s') :
    s'.erase = s.erase ∨ ∃ a, Step fails s.erase a s'.erase := by
  have hth : ∀ {t pc}, s.th t = pc → s.erase.th t = pc.erase := fun h => congrArg WriterPc.erase h
  cases h with
  | create at_main =>
    rw [erase_goto]
    exact Or.inr ⟨_, .create at_main⟩
  | waitReady at_main positive => exact Or.inr ⟨_, .waitReady (s := s.erase) at_main positive⟩
  | letBegin at_main => exact Or.inr ⟨_, .letBegin (s := s.erase) at_main⟩
  | seed at_th => exact Or.inl (erase_goto_of_eq (by rw [at_th]; rfl))
  | openFails at_th fails_t =>
    rw [erase_goto]
    exact Or.inr ⟨_, .openFails (hth at_th) fails_t⟩
  | openDevice at_th opens =>
    rw [erase_goto]
    exact Or.inr ⟨_, .openDevice (hth at_th) opens⟩
  | postReady at_th =>
    rw [erase_goto]
    exact Or.inr ⟨_, .postReady (hth at_th)⟩
  | waitBegin at_th positive =>
    rw [erase_goto, erase_forDraw]
    exact Or.inr ⟨_, .waitBegin (s := s.erase) (hth at_th) positive⟩
  | draw at_th => exact Or.inl (erase_goto_of_eq (by rw [at_th]; rfl))
  | seek at_th => exact Or.inl (erase_goto_of_eq (by rw [at_th]; rfl))
  | write n at_th =>
    rw [erase_goto, erase_forDraw]
    exact Or.inr ⟨_, .write (s := s.erase) (hth at_th)⟩
  | close at_th => exact Or.inl (erase_goto_of_eq (by rw [at_th]; rfl))

/-- The finer steps simulate the barrier. -/
theorem erase_simulates : (writers fails seeded rand).Simulates (generator fails)
    (fun s x => x = s.erase) where
  initial := by
    rintro s ⟨hs0, hs1, hmain, hth⟩
    refine ⟨initState procs, rfl, ?_⟩
    simp only [initState, Writers.erase, hs0, hs1, hmain, hth, WriterPc.erase]
  step := by
    rintro s e s' x hstep rfl
    rcases erase_step hstep with heq | ⟨a, ha⟩
    · exact ⟨[], s.erase, .refl _, heq.symm⟩
    · exact ⟨[a], s'.erase, .single ha, rfl⟩

theorem balanced_erase (hs : (writers fails seeded rand).Reachable s) :
    Balanced fails s.erase := by
  obtain ⟨x, hx, rfl⟩ := erase_simulates.reachable hs
  exact balanced_of_reachable hx

/-- Once a thread has taken a post of `s0`, every thread has posted `s1`. -/
theorem Balanced.posted_eq_one {s : State procs} (h : Balanced fails s)
    (ht : 0 < begun fails t (s.th t)) (u : Fin procs) : posted fails u (s.th u) = 1 := by
  by_contra hne
  have hle : ∀ v, posted fails v (s.th v) ≤ 1 := fun v => posted_le v (s.th v)
  have hzero : posted fails u (s.th u) = 0 := by
    have := hle u
    omega
  have hposted := total_lt_card hle hzero
  have hbegun : 0 < total (begun fails) s.th := ht.trans_le (le_total (begun fails) s.th t)
  have hs0 := h.s0
  have hs1 := h.s1
  have hmain := h.main
  rw [Fintype.card_fin] at hposted
  cases hpc : s.main with
  | create i | waitReady i =>
    rw [hpc, MainPc.progress] at hs0
    simp only at hs0
    omega
  | letBegin i | exited =>
    rw [hpc, MainPc.progress] at hs1
    simp only at hs1
    omega

/-- The thread that is created next does not exist yet. -/
theorem absent_of_create (h : Balanced fails s.erase) (hmain : s.main = .create t) :
    s.th t = .absent := by
  have hcreated : s.erase.th t = .absent := (h.absent t).mpr (by
    have hmain' : s.erase.main = .create t := hmain
    rw [hmain', MainPc.progress])
  cases hpc : s.th t <;> simp [Writers.erase, hpc, WriterPc.erase] at hcreated
  rfl

/-! ### What a run records -/

/-- The positions drawn in a run, in order, with the threads that drew them. -/
def draws (w : List (Event procs)) : List (Fin procs × ℕ) :=
  w.filterMap fun
    | .drew t pos => some (t, pos)
    | .main | .thread _ | .wrote _ _ => none

/-- The offsets of the writes of a run, in order, with the threads that wrote. -/
def writes (w : List (Event procs)) : List (Fin procs × ℕ) :=
  w.filterMap fun
    | .wrote t offset => some (t, offset)
    | .main | .thread _ | .drew _ _ => none

/-- What is one thread's. -/
def byThread (t : Fin procs) (l : List (Fin procs × ℕ)) : List ℕ :=
  (l.filter (·.1 = t)).map Prod.snd

/-- The offset of a position. -/
def toOffset (pos : ℕ) : ℕ := pos * 512

/-- The `k`-th position of the sequence that the generator of random numbers gives after it
has been seeded. -/
def position (seeded : G) (rand : G → ℕ × G) (k : ℕ) : ℕ :=
  (rand ((fun g => (rand g).2)^[k] seeded)).1 % (diskSz >>> 9)

@[simp] theorem draws_append (w v : List (Event procs)) : draws (w ++ v) = draws w ++ draws v :=
  List.filterMap_append ..

@[simp] theorem writes_append (w v : List (Event procs)) :
    writes (w ++ v) = writes w ++ writes v := List.filterMap_append ..

@[simp] theorem byThread_append (l l' : List (Fin procs × ℕ)) :
    byThread t (l ++ l') = byThread t l ++ byThread t l' := by
  simp [byThread]

@[simp] theorem byThread_nil : byThread t [] = [] := rfl

@[simp] theorem byThread_self (n : ℕ) : byThread t [(t, n)] = [n] := by simp [byThread]

theorem byThread_of_ne (h : u ≠ t) (n : ℕ) : byThread t [(u, n)] = [] := by simp [byThread, h]

theorem byThread_map (f : ℕ → ℕ) (l : List (Fin procs × ℕ)) :
    byThread t (l.map fun x => (x.1, f x.2)) = (byThread t l).map f := by
  simp [byThread, List.filter_map, Function.comp_def]

/-- A log is as long as the logs of the threads are together. -/
theorem length_eq_sum (l : List (Fin procs × ℕ)) : l.length = ∑ t, (byThread t l).length := by
  induction l with
  | nil => simp
  | cons e l ih =>
    have hone : ∑ t, (byThread t [e]).length = 1 := by
      simp [byThread, List.filter_cons, apply_ite List.length]
    have happ : ∀ t, (byThread t (e :: l)).length =
        (byThread t [e]).length + (byThread t l).length := by
      intro t
      rw [← List.singleton_append, byThread_append, List.length_append]
    simp only [happ, Finset.sum_add_distrib, hone, ← ih, List.length_cons]
    omega

/-- Logs in which every thread does the same are the same but for the order of the threads. -/
theorem perm_of_byThread_eq {l l' : List (Fin procs × ℕ)}
    (h : ∀ t, byThread t l = byThread t l') : l.Perm l' := by
  rw [List.perm_iff_count]
  rintro ⟨t, n⟩
  have hcount : ∀ l : List (Fin procs × ℕ), l.count (t, n) = (byThread t l).count n := by
    intro l
    induction l with
    | nil => rfl
    | cons e l ih =>
      obtain ⟨u, k⟩ := e
      by_cases hu : u = t
      · subst hu
        simp [byThread, List.count_cons, ih]
      · simp [byThread, ih, hu]
  rw [hcount, hcount, h]

/-! ### The sequence -/

/-- A thread has not seeded yet. -/
def WriterPc.Unseeded : WriterPc → Prop
  | .absent | .seed => True
  | .openDevice | .postReady | .waitBegin | .draw _ | .seek _ _ | .write _ | .close | .exited =>
    False

theorem not_unseeded_forDraw (i : ℕ) : ¬ (forDraw i).Unseeded := by
  rw [forDraw]
  split_ifs <;> exact id

/-- While a thread has still to seed nothing is drawn. Then the numbers drawn are the first
ones of the sequence. -/
structure Sequential (seeded : G) (rand : G → ℕ × G) (w : List (Event procs))
    (s : Writers procs G) : Prop where
  unseeded : ∀ t, (s.th t).Unseeded → draws w = []
  gen : 0 < procs → (∀ t, ¬ (s.th t).Unseeded) →
    s.gen = (fun g => (rand g).2)^[(draws w).length] seeded
  drawn : (draws w).map Prod.snd = (List.range (draws w).length).map (position seeded rand)

namespace Sequential

variable {w : List (Event procs)} {main : MainPc} {s0 s1 : ℕ} {offset : Fin procs → ℕ}
  {pc : WriterPc}

/-- A step that neither seeds nor draws. -/
theorem quiet (h : Sequential seeded rand w s) (hdraws : draws [e] = [])
    (hunseeded : ∀ t, (s'.th t).Unseeded ↔ (s.th t).Unseeded) (hgen : s'.gen = s.gen) :
    Sequential seeded rand (w ++ [e]) s' := by
  have hsame : draws (w ++ [e]) = draws w := by rw [draws_append, hdraws, List.append_nil]
  refine ⟨fun t ht => ?_, fun hprocs hall => ?_, ?_⟩
  · rw [hsame]
    exact h.unseeded t ((hunseeded t).mp ht)
  · rw [hsame, hgen]
    exact h.gen hprocs fun t ht => hall t ((hunseeded t).mpr ht)
  · rw [hsame]
    exact h.drawn

theorem unseeded_goto_iff (hbefore : ¬ (s.th t).Unseeded) (hafter : ¬ pc.Unseeded)
    (u : Fin procs) : ((s.goto t pc).th u).Unseeded ↔ (s.th u).Unseeded := by
  by_cases hu : u = t
  · subst hu
    simp [Writers.goto, hafter, hbefore]
  · simp [Writers.goto, hu]

/-- One more step. A thread that draws finds that all have seeded. -/
theorem step (h : Sequential seeded rand w s) (hbal : Balanced fails s.erase)
    (hstep : WriterStep fails seeded rand s e s') : Sequential seeded rand (w ++ [e]) s' := by
  cases hstep with
  | @create t at_main =>
    have hnil : draws (w ++ [.main]) = [] := by
      rw [draws_append, h.unseeded t (by rw [absent_of_create hbal at_main]; trivial)]
      rfl
    refine ⟨fun _ _ => hnil, fun _ hall => ?_, by rw [hnil]; rfl⟩
    exact absurd trivial (by simpa [Writers.goto, WriterPc.Unseeded] using hall t)
  | waitReady at_main positive => exact h.quiet rfl (fun _ => Iff.rfl) rfl
  | letBegin at_main => exact h.quiet rfl (fun _ => Iff.rfl) rfl
  | @seed t at_th =>
    have hnil : draws (w ++ [.thread t]) = [] := by
      rw [draws_append, h.unseeded t (by rw [at_th]; trivial)]
      rfl
    exact ⟨fun _ _ => hnil, fun _ _ => by rw [hnil]; rfl, by rw [hnil]; rfl⟩
  | openFails at_th _ | openDevice at_th _ | postReady at_th | seek at_th | close at_th =>
    exact h.quiet rfl (unseeded_goto_iff (by simp [at_th, WriterPc.Unseeded]) id) rfl
  | waitBegin at_th _ =>
    exact h.quiet rfl
      (unseeded_goto_iff (by simp [at_th, WriterPc.Unseeded]) (not_unseeded_forDraw 0)) rfl
  | write n at_th =>
    exact h.quiet rfl
      (unseeded_goto_iff (by simp [at_th, WriterPc.Unseeded]) (not_unseeded_forDraw _)) rfl
  | @draw t i at_th =>
    have hnone : ∀ u, ¬ (s.th u).Unseeded := by
      intro u hu
      have hposted := hbal.posted_eq_one (t := t)
        (by simp [Writers.erase, at_th, WriterPc.erase, begun]) u
      cases hpc : s.th u <;> simp [Writers.erase, hpc, WriterPc.erase, posted] at hposted
      all_goals simp [hpc, WriterPc.Unseeded] at hu
    have hgen := h.gen t.pos hnone
    have hlog : draws (w ++ [.drew t ((rand s.gen).1 % (diskSz >>> 9))]) =
        draws w ++ [(t, (rand s.gen).1 % (diskSz >>> 9))] := draws_append ..
    refine ⟨fun u hu => ?_, fun _ _ => ?_, ?_⟩
    · rw [unseeded_goto_iff (by simp [at_th, WriterPc.Unseeded]) id] at hu
      exact absurd hu (hnone u)
    · rw [hlog, List.length_append, List.length_singleton, Function.iterate_succ_apply', ← hgen]
      rfl
    · rw [hlog, List.length_append, List.length_singleton, List.range_succ, List.map_append,
        List.map_append, h.drawn, List.map_singleton, List.map_singleton, position, ← hgen]

end Sequential

/-! ### Each thread -/

/-- The number of positions that a thread has drawn when it is at a place. -/
def drawnAt (fails : Finset (Fin procs)) (t : Fin procs) : WriterPc → ℕ
  | .absent | .seed | .openDevice | .postReady | .waitBegin => 0
  | .draw i => i
  | .seek i _ | .write i => i + 1
  | .close | .exited => if t ∈ fails then 0 else 100

/-- The offset that a thread is going to write at. -/
def Writers.pending (s : Writers procs G) (t : Fin procs) : List ℕ :=
  match s.th t with
  | .seek _ pos => [toOffset pos]
  | .write _ => [s.offset t]
  | .absent | .seed | .openDevice | .postReady | .waitBegin | .draw _ | .close | .exited => []

/-- A thread writes at the offsets of the positions that it has drawn, in order. -/
structure WritesDrawn (fails : Finset (Fin procs)) (w : List (Event procs)) (s : Writers procs G)
    (t : Fin procs) : Prop where
  written : byThread t (writes w) ++ s.pending t = (byThread t (draws w)).map toOffset
  drawn : (byThread t (draws w)).length = drawnAt fails t (s.th t)
  range : ∀ pos ∈ byThread t (draws w), pos < diskSz >>> 9

theorem pending_forDraw (s : Writers procs G) (t : Fin procs) (i : ℕ) :
    (s.goto t (forDraw i)).pending t = [] := by
  rw [forDraw]
  split_ifs <;> simp [Writers.pending, Writers.goto]

/-- The offset of a position of the device is that of its product. -/
theorem toOffset_eq_mod {pos : ℕ} (h : pos < diskSz >>> 9) : pos * 512 % 2 ^ 32 = toOffset pos := by
  have hsize : diskSz >>> 9 = 2097152 := by decide
  rw [toOffset]
  omega

namespace WritesDrawn

variable {w : List (Event procs)}

/-- The steps of other threads. -/
theorem frame (h : WritesDrawn fails w s u) (hth : s'.th u = s.th u)
    (hoffset : s'.offset u = s.offset u) (hdraws : byThread u (draws [e]) = [])
    (hwrites : byThread u (writes [e]) = []) : WritesDrawn fails (w ++ [e]) s' u := by
  have hpending : s'.pending u = s.pending u := by
    rw [Writers.pending, Writers.pending, hth, hoffset]
  refine ⟨?_, ?_, ?_⟩
  · simpa [hdraws, hwrites, hpending] using h.written
  · simpa [hdraws, hth] using h.drawn
  · simpa [hdraws] using h.range

/-- A step of the thread itself that neither draws nor writes. -/
theorem quiet (h : WritesDrawn fails w s t) (hdraws : draws [e] = []) (hwrites : writes [e] = [])
    (hpending : s'.pending t = s.pending t)
    (hdrawn : drawnAt fails t (s'.th t) = drawnAt fails t (s.th t)) :
    WritesDrawn fails (w ++ [e]) s' t := by
  refine ⟨?_, ?_, ?_⟩
  · simpa [hdraws, hwrites, hpending] using h.written
  · simpa [hdraws, hdrawn] using h.drawn
  · simpa [hdraws] using h.range

/-- One more step. -/
theorem step (h : ∀ u, WritesDrawn fails w s u) (hbal : Balanced fails s.erase)
    (hstep : WriterStep fails seeded rand s e s') (u : Fin procs) :
    WritesDrawn fails (w ++ [e]) s' u := by
  -- what the others do at most is to move
  have hother : ∀ {t pc s0 s1 main gen} {offset : Fin procs → ℕ}, u ≠ t → offset u = s.offset u →
      byThread u (draws [e]) = [] → byThread u (writes [e]) = [] →
      WritesDrawn fails (w ++ [e]) (({ s0, s1, main, th := s.th, gen, offset } :
        Writers procs G).goto t pc) u := by
    intro t pc s0 s1 main gen offset hu hoffset hdraws hwrites
    exact (h u).frame (Function.update_of_ne hu _ _) hoffset hdraws hwrites
  cases hstep with
  | waitReady at_main positive => exact (h u).frame rfl rfl rfl rfl
  | letBegin at_main => exact (h u).frame rfl rfl rfl rfl
  | @create t at_main =>
    rcases eq_or_ne u t with rfl | hu
    · have habsent := absent_of_create hbal at_main
      exact (h u).quiet rfl rfl (by simp [Writers.pending, Writers.goto, habsent])
        (by simp [Writers.goto, habsent, drawnAt])
    · exact hother hu rfl rfl rfl
  | @seed t at_th | @openFails t at_th _ | @postReady t at_th | @close t at_th =>
    rcases eq_or_ne u t with rfl | hu
    · exact (h u).quiet rfl rfl (by simp [Writers.pending, Writers.goto, at_th])
        (by simp_all [Writers.goto, drawnAt])
    · exact hother hu rfl rfl rfl
  | @openDevice t at_th opens =>
    rcases eq_or_ne u t with rfl | hu
    · exact (h u).quiet rfl rfl (by simp [Writers.pending, Writers.goto, at_th])
        (by simp [Writers.goto, at_th, drawnAt])
    · exact hother hu (Function.update_of_ne hu _ _) rfl rfl
  | @waitBegin t at_th positive =>
    rcases eq_or_ne u t with rfl | hu
    · exact (h u).quiet rfl rfl (by rw [pending_forDraw, Writers.pending, at_th])
        (by simp [Writers.goto, at_th, drawnAt, forDraw])
    · exact hother hu rfl rfl rfl
  | @draw t i at_th =>
    rcases eq_or_ne u t with rfl | hu
    · obtain ⟨hwritten, hdrawn, hrange⟩ := h u
      have hdraws : draws [Event.drew u ((rand s.gen).1 % (diskSz >>> 9))] =
        [(u, (rand s.gen).1 % (diskSz >>> 9))] := rfl
      have hwrites : writes [Event.drew u ((rand s.gen).1 % (diskSz >>> 9))] = [] := rfl
      rw [Writers.pending, at_th, List.append_nil] at hwritten
      rw [at_th] at hdrawn
      refine ⟨?_, ?_, ?_⟩
      · simp [hdraws, hwrites, hwritten, Writers.pending, Writers.goto]
      · simp [hdraws, hdrawn, Writers.goto, drawnAt]
      · intro pos hpos
        rw [draws_append, hdraws, byThread_append, byThread_self, List.mem_append,
          List.mem_singleton] at hpos
        rcases hpos with hpos | rfl
        · exact hrange pos hpos
        · exact Nat.mod_lt _ (by decide)
    · exact hother hu rfl (byThread_of_ne hu.symm _) rfl
  | @seek t i pos at_th =>
    rcases eq_or_ne u t with rfl | hu
    · have hwritten := (h u).written
      rw [Writers.pending, at_th] at hwritten
      -- the position is one that the thread has drawn
      have hmem : toOffset pos ∈ (byThread u (draws w)).map toOffset := by
        rw [← hwritten]
        simp
      obtain ⟨pos', hpos', heq⟩ := List.mem_map.mp hmem
      have hrange : pos < diskSz >>> 9 := by
        obtain rfl : pos' = pos := Nat.eq_of_mul_eq_mul_right (by decide) heq
        exact (h u).range pos' hpos'
      refine (h u).quiet rfl rfl ?_ (by simp [Writers.goto, at_th, drawnAt])
      simp only [Writers.pending, Writers.goto, at_th, Function.update_self]
      rw [toOffset_eq_mod hrange]
    · exact hother hu (Function.update_of_ne hu _ _) rfl rfl
  | @write t i n at_th =>
    rcases eq_or_ne u t with rfl | hu
    · obtain ⟨hwritten, hdrawn, hrange⟩ := h u
      have hdraws : draws [Event.wrote u (s.offset u)] = [] := rfl
      have hwrites : writes [Event.wrote u (s.offset u)] = [(u, s.offset u)] := rfl
      rw [Writers.pending, at_th] at hwritten
      rw [at_th] at hdrawn
      have hlt : i < 100 := hbal.writes u i (by simp [Writers.erase, at_th, WriterPc.erase])
      have hnot : u ∉ fails := hbal.notMem_fails
        (by simp [Writers.erase, at_th, WriterPc.erase, ThPc.OpenFails])
      refine ⟨?_, ?_, ?_⟩
      · rw [pending_forDraw, List.append_nil, writes_append, hwrites, byThread_append,
          byThread_self, hwritten, draws_append, hdraws, List.append_nil]
      · rw [draws_append, hdraws, List.append_nil, hdrawn]
        simp only [Writers.goto, Function.update_self, forDraw]
        split_ifs with hnext
        · rfl
        · simp only [drawnAt, if_neg hnot]
          omega
      · simpa [hdraws] using hrange
    · exact hother hu (Function.update_of_ne hu _ _) rfl (byThread_of_ne hu.symm _)

end WritesDrawn

/-! ### A whole run -/

/-- `main` and all threads have come to their end. -/
structure Writers.Finished (s : Writers procs G) : Prop where
  main : s.main = .exited
  threads : ∀ t, s.th t = .exited

/-- A thread has opened the device. -/
def WriterPc.Opened (fails : Finset (Fin procs)) (t : Fin procs) : WriterPc → Prop
  | .absent | .seed | .openDevice => False
  | .postReady | .waitBegin | .draw _ | .seek _ _ | .write _ | .close => True
  | .exited => t ∉ fails

/-- What the draws and the writes of a run are. -/
structure Workload (fails : Finset (Fin procs)) (seeded : G) (rand : G → ℕ × G)
    (w : List (Event procs)) (s : Writers procs G) : Prop where
  /-- The positions are drawn in the order of one sequence. -/
  sequence : (draws w).map Prod.snd = (List.range (draws w).length).map (position seeded rand)
  /-- Nothing is drawn, and so nothing written, before all threads have opened the device. -/
  barrier : draws w ≠ [] → fails = ∅ ∧ ∀ t, (s.th t).Opened fails t
  /-- Each thread writes where it has drawn, in order. -/
  written : ∀ t, byThread t (writes w) <+: (byThread t (draws w)).map toOffset
  /-- The writes are on the device, each at the start of a sector. -/
  range : ∀ x ∈ writes w, 512 ∣ x.2 ∧ x.2 + 100 ≤ diskSz
  /-- In the end every thread has written a hundred times, and together they have written
  where the sequence said. -/
  finished : s.Finished → fails = ∅ → (∀ t, (byThread t (writes w)).length = 100) ∧
    ((writes w).map Prod.snd).Perm
      ((List.range (100 * procs)).map fun k => toOffset (position seeded rand k))

theorem mem_byThread {l : List (Fin procs × ℕ)} {n : ℕ} : n ∈ byThread t l ↔ (t, n) ∈ l := by
  simp [byThread]

/-- A thread that has drawn a position has taken a post of `s0`. -/
theorem WritesDrawn.begun_pos {w : List (Event procs)} (h : WritesDrawn fails w s t)
    (hne : byThread t (draws w) ≠ []) : 0 < begun fails t (s.erase.th t) := by
  have hpos : 0 < drawnAt fails t (s.th t) := h.drawn ▸ List.length_pos_iff.mpr hne
  cases hpc : s.th t with
  | absent | seed | openDevice | postReady | waitBegin => simp [hpc, drawnAt] at hpos
  | draw i | seek i pos | write i => simp [Writers.erase, hpc, WriterPc.erase, begun]
  | close | exited =>
    rw [hpc, drawnAt] at hpos
    simp only [Writers.erase, hpc, WriterPc.erase, begun]
    split_ifs at hpos ⊢ <;> omega

/-- The requests of the generator, in every interleaving. The threads share one sequence of
random numbers and none of them seeds it late; a thread's writes are not disturbed by the
seeks of others; and a complete run has written at the first `100 * procs` positions of the
sequence, whatever the interleaving. -/
theorem workload_of_run (fails : Finset (Fin procs)) (seeded : G) (rand : G → ℕ × G)
    {s₀ : Writers procs G} {w : List (Event procs)}
    (hinit : (writers fails seeded rand).initial s₀)
    (hrun : (writers fails seeded rand).Run s₀ w s) : Workload fails seeded rand w s := by
  obtain ⟨hbal, hseq, hdrawn⟩ := hrun.history_invariant
    (I := fun w s => (writers fails seeded rand).Reachable s ∧ Sequential seeded rand w s ∧
      ∀ t, WritesDrawn fails w s t)
    (fun hstep ⟨hs, hseq, hdrawn⟩ => ⟨hs.step hstep, hseq.step (balanced_erase hs) hstep,
      WritesDrawn.step hdrawn (balanced_erase hs) hstep⟩)
    ⟨.of_initial hinit, ⟨fun _ _ => rfl, fun hprocs hall => by
      exact absurd (show (s₀.th ⟨0, hprocs⟩).Unseeded by rw [hinit.2.2.2]; trivial) (hall _), rfl⟩,
      fun t => ⟨by simp [draws, writes, Writers.pending, hinit.2.2.2], by
        simp [draws, hinit.2.2.2, drawnAt], by simp [draws]⟩⟩
  have hbal := balanced_erase hbal
  have hwritten : ∀ t, byThread t (writes w) <+: (byThread t (draws w)).map toOffset := fun t =>
    ⟨s.pending t, (hdrawn t).written⟩
  refine ⟨hseq.drawn, fun hne => ?_, hwritten, fun x hx => ?_, fun hend hfails => ?_⟩
  · obtain ⟨⟨t, pos⟩, hmem⟩ := List.exists_mem_of_ne_nil _ hne
    have hopened : ∀ u, u ∉ fails ∧ (s.th u).Opened fails u := by
      intro u
      have hposted := hbal.posted_eq_one ((hdrawn t).begun_pos
        (List.ne_nil_of_mem (mem_byThread.mpr hmem))) u
      have hfailed := hbal.failed u
      cases hpc : s.th u <;>
        simp_all [Writers.erase, WriterPc.erase, posted, WriterPc.Opened, ThPc.OpenFails]
    exact ⟨Finset.eq_empty_iff_forall_notMem.mpr fun u => (hopened u).1, fun u => (hopened u).2⟩
  · obtain ⟨t, offset⟩ := x
    have hmem := (hwritten t).subset (mem_byThread.mpr hx)
    obtain ⟨pos, hpos, rfl⟩ := List.mem_map.mp hmem
    have hrange := (hdrawn t).range pos hpos
    have hsize : diskSz >>> 9 = 2097152 := by decide
    refine ⟨Dvd.intro_left pos rfl, ?_⟩
    rw [toOffset, diskSz]
    omega
  · have heq : ∀ t, byThread t (writes w) = (byThread t (draws w)).map toOffset := by
      intro t
      have hpending : s.pending t = [] := by rw [Writers.pending, hend.threads]
      simpa [hpending] using (hdrawn t).written
    have hhundred : ∀ t, (byThread t (draws w)).length = 100 := by
      intro t
      have hnot : t ∉ fails := by simp [hfails]
      have hcount := (hdrawn t).drawn
      rw [hend.threads t] at hcount
      exact hcount.trans (if_neg hnot)
    have hlength : (draws w).length = 100 * procs := by
      rw [length_eq_sum, Finset.sum_congr rfl fun t _ => hhundred t]
      simp [mul_comm]
    have hperm : (writes w).Perm ((draws w).map fun x => (x.1, toOffset x.2)) :=
      perm_of_byThread_eq fun t => by rw [heq, byThread_map]
    refine ⟨fun t => by rw [heq, List.length_map, hhundred], ?_⟩
    have hsorted : ((draws w).map fun x => (x.1, toOffset x.2)).map Prod.snd =
        ((draws w).map Prod.snd).map toOffset := by simp
    have hmap := hperm.map Prod.snd
    rw [hsorted, hseq.drawn, hlength, List.map_map] at hmap
    exact hmap

/-- Two threads, of which thread 1 draws first and thread 0 writes first. -/
theorem workload_of_run_two_threads :
    ∃ w s, (writers (∅ : Finset (Fin 2)) 7 fun g => (g * g, g + 1)).Run
        ⟨0, 0, forCreate 2 0, fun _ => .absent, 3, fun _ => 0⟩ w s ∧
      draws w = [(1, 49), (0, 64)] ∧ writes w = [(0, 32768)] ∧
      Workload ∅ 7 (fun g => (g * g, g + 1)) w s := by
  have hinit : (writers (∅ : Finset (Fin 2)) 7 fun g => (g * g, g + 1)).initial
      ⟨0, 0, forCreate 2 0, fun _ => .absent, 3, fun _ => 0⟩ := ⟨rfl, rfl, rfl, fun _ => rfl⟩
  -- both threads come to the barrier
  have hready := ((((((((Machine.Run.refl (M := writers (∅ : Finset (Fin 2)) 7
    fun g => (g * g, g + 1)) ⟨0, 0, forCreate 2 0, fun _ => .absent, 3, fun _ => 0⟩).snoc
    (.create (t := 0) rfl)).snoc (.create (t := 1) rfl)).snoc (.seed (t := 0) rfl)).snoc
    (.seed (t := 1) rfl)).snoc (.openDevice (t := 0) rfl (by decide))).snoc
    (.openDevice (t := 1) rfl (by decide))).snoc (.postReady (t := 0) rfl)).snoc
    (.postReady (t := 1) rfl)
  have hopen := (((hready.snoc (.waitReady rfl (by decide))).snoc
    (.waitReady rfl (by decide))).snoc (.letBegin rfl)).snoc (.letBegin rfl)
  have hrun := (((((hopen.snoc (.waitBegin (t := 1) rfl (by decide))).snoc
    (.draw (t := 1) rfl)).snoc (.waitBegin (t := 0) rfl (by decide))).snoc
    (.draw (t := 0) rfl)).snoc (.seek (t := 0) rfl)).snoc (.write (t := 0) 100 rfl)
  exact ⟨_, _, hrun, by decide, by decide, workload_of_run ∅ 7 _ hinit hrun⟩

end Sisop.SectorRead
