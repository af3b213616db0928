import Mathlib.Logic.Function.Basic
import Sisop.Foundations.Transition
import Sisop.SimpleDriver.Delivery
import Sisop.SimpleDriver.Memory

/-!
# Several processes at the driver

The operations of the driver take no lock. Processes that have the device open can be in
`dev_write` and `dev_read` at the same time, and what they do to `message` is interleaved
byte by byte: the bytes that `sprintf` stores, those that `strlen` looks at and those that
`copy_to_user` copies. The length is loaded once when `copy_to_user` is called and cleared
after it has returned, so several processes can copy one text.

Texts that overlap can be mixed up in `message`. Still the last byte of `message` stays a
terminator, which is what keeps every `strlen` and every copy inside, as long as no text
that is written runs over the end. And a process that gets a text clears the length before
it reads again, so it gets nothing twice.

## Main definitions

* `Pc`, `Next` — where a process is in its call, and what it does next
* `processes` — all interleavings of the calls of any number of processes
* `deliveredTo`, `stores` — the texts a process gets in a run, and the lengths stored
* `operations` — the calls made in a run, in order

## Main results

* `Confined.next` — what keeps all accesses inside `message`
* `processes_contained_iff` — which texts the processes may write
* `delivered_at_most_once` — what a process can get
* `one_process_run` — with one process the driver works one operation at a time
-/

namespace Sisop.SimpleDriver

open Foundations CString

/-- Where a process is in its call. -/
inductive Pc
  | outside
  /-- In `sprintf`, which still has to store `todo` from `message[a]` on. -/
  | format (accepted : Bool) (todo : List Char) (a : ℕ)
  /-- In `strlen`, which looks at `message[i]` next. -/
  | measure (i : ℕ)
  | storeSize (n : ℕ)
  /-- In `copy_to_user`, which has copied `got` of the `n` bytes asked for. -/
  | copy (n : ℕ) (got : List Char)

/-- What a process does. Where it accesses a byte from the start of `message` on, the event
says which one. -/
inductive Event
  | write (text : UserText)
  | put (a : ℕ) (c : Char)
  | get (a : ℕ)
  | sized (n : ℕ)
  | read
  | failed
  | delivered (got : List Char)

/-- The byte that is accessed, counted from the start of `message`. -/
def Event.accessed : Event → Option ℕ
  | .put a _ | .get a => some a
  | .write _ | .sized _ | .read | .failed | .delivered _ => none

/-- The start of `dev_write`: what `sprintf` has to store. -/
def Pc.forWrite (text : UserText) : Pc :=
  if text.chars.length < messageSize then .format true (text.accepted ++ [nul]) 0
  else .format false (refusedText ++ [nul]) 0

/-- After a byte that `sprintf` has stored. When it is done, `strlen` follows unless the
write is refused. -/
def Pc.afterPut (accepted : Bool) (todo : List Char) (a : ℕ) : Pc :=
  if todo = [] then if accepted then .measure 0 else .outside
  else .format accepted todo a

/-- A byte stored to memory. -/
def Memory.store (m : Memory) (a : ℕ) (c : Char) : Memory :=
  { m with mem := Function.update m.mem a c }

/-- The next step of a process, with the memory before and after it. -/
inductive Next (texts : Set UserText) : Memory → Pc → Event → Memory → Pc → Prop
  | write {m : Memory} {text : UserText} (htext : text ∈ texts) :
      Next texts m .outside (.write text) m (.forWrite text)
  | put {m : Memory} {accepted : Bool} {c : Char} {todo : List Char} {a : ℕ} :
      Next texts m (.format accepted (c :: todo) a) (.put a c) (m.store a c)
        (.afterPut accepted todo (a + 1))
  | measure {m : Memory} {i : ℕ} :
      Next texts m (.measure i) (.get i) m
        (if m.mem i = nul then .storeSize i else .measure (i + 1))
  | storeSize {m : Memory} {n : ℕ} :
      Next texts m (.storeSize n) (.sized n) { m with sizeOfMessage := CInt.wrap 16 n } .outside
  | read {m : Memory} :
      Next texts m .outside .read m (.copy (m.sizeOfMessage % 2 ^ 32).toNat [])
  | copy {m : Memory} {n : ℕ} {got : List Char} (hlt : got.length < n) :
      Next texts m (.copy n got) (.get got.length) m (.copy n (got ++ [m.mem got.length]))
  | fail {m : Memory} {n : ℕ} {got : List Char} (hlt : got.length < n) :
      Next texts m (.copy n got) .failed m .outside
  | deliver {m : Memory} {n : ℕ} {got : List Char} (hall : got.length = n) :
      Next texts m (.copy n got) (.delivered got) { m with sizeOfMessage := 0 } .outside

variable {P : Type*}

/-- The memory, and where each process is. -/
structure Processes (P : Type*) where
  memory : Memory
  pc : P → Pc

variable [DecidableEq P]

/-- A step of process `p`. -/
def Processes.move (s : Processes P) (p : P) (m : Memory) (pc : Pc) : Processes P where
  memory := m
  pc := Function.update s.pc p pc

/-- Every interleaving of calls, by processes that write texts of a given kind. -/
def processes (P : Type*) [DecidableEq P] (texts : Set UserText) (beyond : ℕ → Char) :
    Machine (Processes P) (P × Event) where
  initial s := s.memory = .loaded beyond ∧ ∀ p, s.pc p = .outside
  step s e t := ∃ m pc, Next texts s.memory (s.pc e.1) e.2 m pc ∧ t = s.move e.1 m pc

omit [DecidableEq P] in
/-- The texts that are delivered in a run, in order. -/
def deliveries (w : List (P × Event)) : List (List Char) :=
  w.filterMap fun
    | (_, .delivered got) => some got
    | _ => none

/-- The texts that process `p` gets in a run, without those of no characters. -/
def deliveredTo (p : P) (w : List (P × Event)) : List (List Char) :=
  (deliveries (w.filter (·.1 = p))).filter (· ≠ [])

omit [DecidableEq P] in
/-- The number of texts whose length has been stored. -/
def stores (w : List (P × Event)) : ℕ :=
  w.countP fun
    | (_, .sized _) => true
    | _ => false

omit [DecidableEq P] in
/-- The calls of a run, in order, with a write where it begins and a read where it ends. -/
def operations (w : List (P × Event)) : List Op :=
  w.filterMap fun
    | (_, .write text) => some (.write text)
    | (_, .delivered _) => some (.read 0)
    | (_, .failed) => some (.read 1)
    | (_, .put _ _) | (_, .get _) | (_, .sized _) | (_, .read) => none

variable {texts : Set UserText} {beyond : ℕ → Char} {s t : Processes P} {p q : P}
  {w : List (P × Event)} {m m' : Memory} {pc pc' : Pc} {e : Event}

@[simp] theorem Processes.move_memory : (s.move p m pc).memory = m := rfl

@[simp] theorem Processes.move_pc_self : (s.move p m pc).pc p = pc := by
  simp [Processes.move]

theorem Processes.move_pc_of_ne (hq : q ≠ p) : (s.move p m pc).pc q = s.pc q := by
  simp [Processes.move, hq]

/-! ### Inside `message` -/

/-- A process that has not left `message`, and does not leave it. -/
def Pc.Confined : Pc → Prop
  | .outside => True
  | .format _ todo a => ∃ text, todo = text ++ [nul] ∧ a + text.length < messageSize
  | .measure i => i < messageSize
  | .storeSize n => n < messageSize
  | .copy n got => n < messageSize ∧ got.length ≤ n

/-- The last byte of `message` is a terminator, and the length is that of a text in it. -/
structure Memory.Terminated (m : Memory) : Prop where
  last : m.mem (messageSize - 1) = nul
  bounded : m.Bounded

/-- The texts that do not run over the end, or are refused. -/
def Fits (text : UserText) : Prop := text.chars.length ≤ 242 ∨ messageSize ≤ text.chars.length

theorem Pc.confined_forWrite {text : UserText} (h : Fits text) : (Pc.forWrite text).Confined := by
  rw [Pc.forWrite]
  split_ifs with haccept
  · have hlength := (text.length_accepted_lt_iff haccept).mpr (h.resolve_right (not_le.mpr haccept))
    exact ⟨_, rfl, by rwa [Nat.zero_add]⟩
  · exact ⟨_, rfl, by decide⟩

theorem Pc.confined_afterPut {accepted : Bool} {todo : List Char} {a : ℕ}
    (h : todo = [] ∨ (Pc.format accepted todo a).Confined) :
    (Pc.afterPut accepted todo a).Confined := by
  rw [Pc.afterPut]
  split_ifs with hdone haccept
  · exact show 0 < messageSize by decide
  · trivial
  · exact h.resolve_left hdone

/-- Confined processes access bytes of `message` only, stay confined, and leave a terminator
at its end. -/
theorem Next.confined (h : Next texts m pc e m' pc') (hfits : ∀ text ∈ texts, Fits text)
    (hm : m.Terminated) (hpc : pc.Confined) :
    (∀ a, e.accessed = some a → a < messageSize) ∧ m'.Terminated ∧ pc'.Confined := by
  obtain ⟨hlast, hbounded⟩ := hm
  cases h with
  | write htext =>
    exact ⟨by simp [Event.accessed], ⟨hlast, hbounded⟩, Pc.confined_forWrite (hfits _ htext)⟩
  | @put accepted c todo a =>
    obtain ⟨text, heq, hlt⟩ := hpc
    have hinside : a < messageSize := by omega
    refine ⟨by simpa [Event.accessed] using hinside,
      ⟨?_, hbounded.nonneg, hbounded.le⟩, Pc.confined_afterPut ?_⟩
    · -- only the terminator of a text can come to lie there
      by_cases ha : messageSize - 1 = a
      · have hempty : text = [] := List.length_eq_zero_iff.mp (by omega)
        rw [hempty, List.nil_append] at heq
        obtain ⟨rfl, -⟩ := List.cons.inj heq
        simp [Memory.store, ha]
      · simpa [Memory.store, ha] using hlast
    · cases text with
      | nil => exact Or.inl (List.cons.inj heq).2
      | cons d text =>
        refine Or.inr ⟨text, (List.cons.inj heq).2, ?_⟩
        rw [List.length_cons] at hlt
        omega
  | @measure i =>
    have hi : i < messageSize := hpc
    refine ⟨by simpa [Event.accessed] using hi, ⟨hlast, hbounded⟩, ?_⟩
    split_ifs with hnul
    · exact hi
    · -- the scan has not come to the last byte yet
      have hne : i ≠ messageSize - 1 := fun heq => hnul (heq ▸ hlast)
      exact show i + 1 < messageSize by omega
  | @storeSize n =>
    have hn : n < messageSize := hpc
    have hwrap : CInt.wrap 16 (n : ℤ) = n := by
      rw [CInt.wrap_eq_self_iff_of_nonneg (by decide) (by omega), CInt.maxVal]
      rw [messageSize] at hn
      omega
    refine ⟨by simp [Event.accessed], ⟨hlast, ?_, ?_⟩, trivial⟩
    · exact hwrap.symm ▸ Int.natCast_nonneg n
    · rw [messageSize] at hn
      exact hwrap.symm ▸ (by omega : (n : ℤ) ≤ 255)
  | read =>
    refine ⟨by simp [Event.accessed], ⟨hlast, hbounded⟩, ?_, Nat.zero_le _⟩
    have := hbounded.nonneg
    have := hbounded.le
    rw [messageSize]
    omega
  | copy hlt =>
    obtain ⟨hn, -⟩ := hpc
    refine ⟨by simp only [Event.accessed, Option.some.injEq]; omega, ⟨hlast, hbounded⟩, hn, ?_⟩
    rw [List.length_append, List.length_singleton]
    omega
  | fail => exact ⟨by simp [Event.accessed], ⟨hlast, hbounded⟩, trivial⟩
  | deliver =>
    exact ⟨by simp [Event.accessed], ⟨hlast, Memory.bounded_of_eq_zero rfl⟩, trivial⟩

/-- All processes stay inside `message`. -/
structure Confined (s : Processes P) : Prop where
  terminated : s.memory.Terminated
  pc : ∀ p, (s.pc p).Confined

theorem Confined.init (h : (processes P texts beyond).initial s) : Confined s where
  terminated := by
    have hlast : (Memory.loaded beyond).mem (messageSize - 1) = nul := by
      simp [Memory.loaded, messageSize]
    rw [h.1]
    exact ⟨hlast, Memory.bounded_of_eq_zero rfl⟩
  pc p := by
    rw [h.2]
    trivial

theorem Confined.next {a : P × Event} (h : Confined s) (hfits : ∀ text ∈ texts, Fits text)
    (hstep : (processes P texts beyond).step s a t) :
    (∀ b, a.2.accessed = some b → b < messageSize) ∧ Confined t := by
  obtain ⟨m, pc, hnext, rfl⟩ := hstep
  obtain ⟨haccess, hm, hpc⟩ := hnext.confined hfits h.terminated (h.pc a.1)
  refine ⟨haccess, hm, fun q => ?_⟩
  by_cases hq : q = a.1
  · rw [hq, Processes.move_pc_self]
    exact hpc
  · rw [Processes.move_pc_of_ne hq]
    exact h.pc q

theorem Confined.of_run (hinit : (processes P texts beyond).initial s)
    (hrun : (processes P texts beyond).Run s w t) (hfits : ∀ text ∈ texts, Fits text) :
    Confined t ∧ ∀ e ∈ w, ∀ a, e.2.accessed = some a → a < messageSize := by
  refine hrun.history_invariant (I := fun w t => Confined t ∧ ∀ e ∈ w, ∀ a,
    e.2.accessed = some a → a < messageSize) ?_ ⟨.init hinit, by simp⟩
  rintro w s e t hstep ⟨hconf, haccess⟩
  obtain ⟨hlast, hnext⟩ := hconf.next hfits hstep
  refine ⟨hnext, fun e' he' => ?_⟩
  rcases List.mem_append.mp he' with he' | he'
  · exact haccess e' he'
  · rw [List.mem_singleton.mp he']
    exact hlast

/-! ### A process that is not disturbed -/

@[simp] theorem Processes.move_move :
    (s.move p m pc).move p m' pc' = s.move p m' pc' := by
  simp [Processes.move]

theorem Processes.step_move (h : Next texts m pc e m' pc') :
    (processes P texts beyond).step (s.move p m pc) (p, e) (s.move p m' pc') :=
  ⟨m', pc', by simpa using h, by simp⟩

@[simp] theorem Memory.store_self (m : Memory) (a : ℕ) (c : Char) : (m.store a c).mem a = c := by
  simp [Memory.store]

theorem Memory.store_of_ne {a b : ℕ} {c : Char} (h : b ≠ a) : (m.store a c).mem b = m.mem b := by
  simp [Memory.store, h]

/-- The memory after characters have been stored one by one. -/
def Memory.storeAll (m : Memory) : ℕ → List Char → Memory
  | _, [] => m
  | a, c :: todo => (m.store a c).storeAll (a + 1) todo

theorem Memory.storeAll_eq (m : Memory) (a : ℕ) (todo : List Char) : m.storeAll a todo =
    { m with mem := fun b => if b < a then m.mem b else todo[b - a]?.getD (m.mem b) } := by
  induction todo generalizing m a with
  | nil => simp [Memory.storeAll]
  | cons c todo ih =>
    rw [Memory.storeAll, ih]
    congr 1
    funext b
    rcases lt_trichotomy b a with hlt | rfl | hgt
    · rw [if_pos (by omega), if_pos hlt, Memory.store_of_ne hlt.ne]
    · rw [if_pos (Nat.lt_succ_self b), if_neg (lt_irrefl b), Nat.sub_self,
        Memory.store_self]
      rfl
    · have hsub : b - a = b - (a + 1) + 1 := by omega
      rw [if_neg (by omega), if_neg (by omega), hsub, List.getElem?_cons_succ,
        Memory.store_of_ne hgt.ne']

/-- Storing a text and its terminator byte by byte. -/
theorem Memory.storeAll_zero (m : Memory) (text : List Char) :
    m.storeAll 0 (text ++ [nul]) = { m with mem := CString.write nul m.mem text } := by
  rw [Memory.storeAll_eq]
  rfl

/-- `sprintf` comes to its end, and has stored at every byte of its text. -/
theorem exists_run_put (texts : Set UserText) (beyond : ℕ → Char) (s : Processes P) (p : P)
    (m : Memory) (accepted : Bool) (c : Char) (todo : List Char) (a : ℕ) : ∃ w,
      (processes P texts beyond).Run (s.move p m (.format accepted (c :: todo) a)) w
        (s.move p (m.storeAll a (c :: todo)) (if accepted then .measure 0 else .outside)) ∧
      (∀ e ∈ w, e.1 = p ∧ e.2.accessed.isSome) ∧
      ∀ k ≤ todo.length, ∃ e ∈ w, e.2.accessed = some (a + k) := by
  induction todo generalizing m c a with
  | nil =>
    refine ⟨_, .single (Processes.step_move .put), by simp [Event.accessed], fun k hk => ?_⟩
    obtain rfl : k = 0 := by simpa using hk
    exact ⟨_, List.mem_singleton_self _, rfl⟩
  | cons d todo ih =>
    obtain ⟨w, hrun, hquiet, haccess⟩ := ih (m.store a c) d (a + 1)
    refine ⟨_, .cons (Processes.step_move .put) hrun, by simpa [Event.accessed] using hquiet, ?_⟩
    intro k hk
    cases k with
    | zero => exact ⟨_, List.mem_cons_self, rfl⟩
    | succ k =>
      obtain ⟨e, he, heq⟩ := haccess k (by simpa using hk)
      exact ⟨e, List.mem_cons_of_mem _ he, by rw [heq]; congr 1; omega⟩

/-- The processes stay inside `message`, in every interleaving of any number of calls, exactly
if no text that they may write has 243 to 255 characters. -/
theorem processes_contained_iff (p : P) (texts : Set UserText) (beyond : ℕ → Char) :
    (∀ s w t, (processes P texts beyond).initial s → (processes P texts beyond).Run s w t →
      (∀ e ∈ w, ∀ a, e.2.accessed = some a → a < messageSize) ∧
        t.memory.sizeOfMessage ≤ 255) ↔
      ∀ text ∈ texts, text.chars.length ≤ 242 ∨ messageSize ≤ text.chars.length := by
  constructor
  · intro h text htext
    by_contra hbad
    push Not at hbad
    have hlong := mt (text.length_accepted_lt_iff hbad.2).mp (not_le.mpr hbad.1)
    -- one process that writes the text alone comes to the byte after the last one
    let s : Processes P := ⟨.loaded beyond, fun _ => .outside⟩
    have hs : s.move p s.memory .outside = s := by
      simp [s, Processes.move]
    obtain ⟨c, todo, htodo⟩ := List.exists_cons_of_ne_nil
      (show text.accepted ++ [nul] ≠ [] by simp)
    have hlength := congrArg List.length htodo
    rw [List.length_append, List.length_singleton, List.length_cons] at hlength
    obtain ⟨w, hrun, -, haccess⟩ := exists_run_put texts beyond s p s.memory true c todo 0
    have hwrite : (processes P texts beyond).step s (p, .write text)
        (s.move p s.memory (.format true (c :: todo) 0)) := by
      have hnext : (processes P texts beyond).step (s.move p s.memory .outside) (p, .write text)
          (s.move p s.memory (.forWrite text)) := Processes.step_move (.write htext)
      rwa [hs, Pc.forWrite, if_pos hbad.2, htodo] at hnext
    obtain ⟨e, he, heq⟩ := haccess messageSize (by omega)
    have hinside := (h s _ _ ⟨rfl, fun _ => rfl⟩ (.cons hwrite hrun)).1 e
      (List.mem_cons_of_mem _ he) _ heq
    omega
  · intro hfits s w t hinit hrun
    obtain ⟨hconf, haccess⟩ := Confined.of_run hinit hrun hfits
    exact ⟨haccess, hconf.terminated.bounded.le⟩

/-! ### Calls that are not disturbed -/

omit [DecidableEq P] in
@[simp] theorem operations_append (v w : List (P × Event)) :
    operations (v ++ w) = operations v ++ operations w := List.filterMap_append

omit [DecidableEq P] in
@[simp] theorem stores_append (v w : List (P × Event)) :
    stores (v ++ w) = stores v + stores w := List.countP_append

omit [DecidableEq P] in
@[simp] theorem deliveries_append (v w : List (P × Event)) :
    deliveries (v ++ w) = deliveries v ++ deliveries w := List.filterMap_append

@[simp] theorem deliveredTo_append (p : P) (v w : List (P × Event)) :
    deliveredTo p (v ++ w) = deliveredTo p v ++ deliveredTo p w := by
  simp [deliveredTo]

/-- A write that is not refused, seen as a whole. -/
theorem Memory.next_accepted (m : Memory) {text : UserText}
    (haccept : text.chars.length < messageSize) :
    { m.storeAll 0 (text.accepted ++ [nul]) with
      sizeOfMessage := CInt.wrap 16 text.accepted.length } = m.next (.write text) := by
  have hlength : CString.length (exists_write_eq_nul nul m.mem text.accepted) =
      text.accepted.length := length_write text.nul_notMem_accepted m.mem
  rw [Memory.storeAll_zero, Memory.next, Memory.devWrite, if_pos haccept, ← hlength]
  rfl

theorem Memory.next_refused (m : Memory) {text : UserText}
    (hrefuse : ¬ text.chars.length < messageSize) :
    m.storeAll 0 (refusedText ++ [nul]) = m.next (.write text) := by
  rw [Memory.storeAll_zero, Memory.next, Memory.devWrite, if_neg hrefuse]

theorem Memory.mem_storeAll (m : Memory) (text : List Char) (i : ℕ) :
    (m.storeAll 0 (text ++ [nul])).mem i = CString.write nul m.mem text i := by
  rw [Memory.storeAll_zero]

theorem Processes.move_self (hpc : s.pc p = pc) : s.move p s.memory pc = s := by
  subst hpc
  simp [Processes.move]

omit [DecidableEq P] in
/-- Accesses alone store no length, deliver nothing and complete no call. -/
theorem quiet_of_accessed (h : ∀ e ∈ w, e.1 = p ∧ e.2.accessed.isSome) :
    stores w = 0 ∧ deliveries w = [] ∧ operations w = [] := by
  rw [stores, List.countP_eq_zero, deliveries, List.filterMap_eq_nil_iff, operations,
    List.filterMap_eq_nil_iff]
  refine ⟨?_, ?_, ?_⟩
  all_goals
    rintro ⟨q, e⟩ he
    have haccess := (h _ he).2
    cases e <;> simp_all [Event.accessed]

theorem deliveredTo_eq_nil (h : deliveries w = []) (p : P) : deliveredTo p w = [] := by
  have hsub : (deliveries (w.filter (·.1 = p))).Sublist (deliveries w) :=
    List.filter_sublist.filterMap _
  rw [h, List.sublist_nil] at hsub
  rw [deliveredTo, hsub]
  rfl

/-- `strlen` comes to the terminator of a text. -/
theorem exists_run_measure (texts : Set UserText) (beyond : ℕ → Char) (s : Processes P) (p : P)
    (m : Memory) {text : List Char} (htext : nul ∉ text) (n i : ℕ) (h : i + n = text.length) :
    ∃ w, (processes P texts beyond).Run
      (s.move p (m.storeAll 0 (text ++ [nul])) (.measure i)) w
      (s.move p (m.storeAll 0 (text ++ [nul])) (.storeSize text.length)) ∧
      ∀ e ∈ w, e.1 = p ∧ e.2.accessed.isSome := by
  induction n generalizing i with
  | zero =>
    obtain rfl : i = text.length := h
    have hlast : Next texts (m.storeAll 0 (text ++ [nul])) (.measure text.length)
        (.get text.length) (m.storeAll 0 (text ++ [nul])) (.storeSize text.length) := by
      have hnext : Next texts (m.storeAll 0 (text ++ [nul])) (.measure text.length) _ _ _ :=
        .measure
      rwa [Memory.mem_storeAll, write_length, if_pos rfl] at hnext
    exact ⟨_, .single (Processes.step_move hlast), by simp [Event.accessed]⟩
  | succ n ih =>
    have hi : i < text.length := by omega
    have hne : text[i] ≠ nul := fun heq => htext (heq ▸ List.getElem_mem hi)
    have hgoes : Next texts (m.storeAll 0 (text ++ [nul])) (.measure i) (.get i)
        (m.storeAll 0 (text ++ [nul])) (.measure (i + 1)) := by
      have hnext : Next texts (m.storeAll 0 (text ++ [nul])) (.measure i) _ _ _ := .measure
      rwa [Memory.mem_storeAll, write_of_lt hi, if_neg hne] at hnext
    obtain ⟨w, hrun, hquiet⟩ := ih (i + 1) (by omega)
    exact ⟨_, .cons (Processes.step_move hgoes) hrun, by simpa [Event.accessed] using hquiet⟩

/-- `copy_to_user` copies what it has been asked for. -/
theorem exists_run_copy (texts : Set UserText) (beyond : ℕ → Char) (s : Processes P) (p : P)
    (m : Memory) (n k : ℕ) : ∃ w, (processes P texts beyond).Run
      (s.move p m (.copy (k + n) ((List.range k).map m.mem))) w
      (s.move p m (.copy (k + n) ((List.range (k + n)).map m.mem))) ∧
      ∀ e ∈ w, e.1 = p ∧ e.2.accessed.isSome := by
  induction n generalizing k with
  | zero => exact ⟨[], .refl _, by simp⟩
  | succ n ih =>
    obtain ⟨w, hrun, hquiet⟩ := ih (k + 1)
    have hcopy : Next texts m (.copy (k + (n + 1)) ((List.range k).map m.mem)) (.get k) m
        (.copy (k + (n + 1)) ((List.range (k + 1)).map m.mem)) := by
      have hnext : Next texts m (.copy (k + (n + 1)) ((List.range k).map m.mem)) _ _ _ :=
        .copy (by simp)
      simpa [List.range_succ] using hnext
    rw [Nat.add_right_comm, Nat.add_assoc] at hrun
    exact ⟨_, .cons (Processes.step_move hcopy) hrun, by simpa [Event.accessed] using hquiet⟩

/-- A write that is not refused and not disturbed is the write of the driver in memory. -/
theorem exists_run_write (beyond : ℕ → Char) (s : Processes P) (p : P) (m : Memory)
    {text : UserText} (htext : text ∈ texts) (haccept : text.chars.length < messageSize) :
    ∃ w, (processes P texts beyond).Run (s.move p m .outside) w
        (s.move p (m.next (.write text)) .outside) ∧ (∀ e ∈ w, e.1 = p) ∧
      stores w = 1 ∧ deliveries w = [] ∧ operations w = [.write text] := by
  obtain ⟨c, todo, htodo⟩ := List.exists_cons_of_ne_nil
    (show text.accepted ++ [nul] ≠ [] by simp)
  have hwrite : Next texts m .outside (.write text) m
      (.format true (text.accepted ++ [nul]) 0) := by
    have hnext : Next texts m .outside (.write text) m (.forWrite text) := .write htext
    rwa [Pc.forWrite, if_pos haccept] at hnext
  obtain ⟨v, hput, hquiet, -⟩ := exists_run_put texts beyond s p m true c todo 0
  rw [← htodo, if_pos rfl] at hput
  obtain ⟨u, hmeasure, hquiet'⟩ := exists_run_measure texts beyond s p m
    text.nul_notMem_accepted _ 0 (Nat.zero_add _)
  have hsize : Next texts (m.storeAll 0 (text.accepted ++ [nul]))
      (.storeSize text.accepted.length) (.sized text.accepted.length)
      (m.next (.write text)) .outside := Memory.next_accepted m haccept ▸ .storeSize
  refine ⟨_, ((Machine.Run.cons (Processes.step_move hwrite) hput).trans hmeasure).snoc
    (Processes.step_move hsize), ?_, ?_⟩
  · intro e he
    simp only [List.cons_append, List.mem_cons, List.mem_append, List.not_mem_nil, or_false] at he
    rcases he with rfl | (he | he) | rfl
    · rfl
    · exact (hquiet e he).1
    · exact (hquiet' e he).1
    · rfl
  · obtain ⟨hstores, hdel, hops⟩ := quiet_of_accessed hquiet
    obtain ⟨hstores', hdel', hops'⟩ := quiet_of_accessed hquiet'
    rw [← List.singleton_append]
    simp only [stores_append, deliveries_append, operations_append, hstores, hdel, hops,
      hstores', hdel', hops']
    exact ⟨rfl, rfl, rfl⟩

/-- The empty text. -/
def emptyText : UserText := ⟨[], by simp⟩

theorem Next.read_emptyText (beyond : ℕ → Char) :
    let m := (Memory.loaded beyond).next (.write emptyText)
    Next texts m .outside .read m (.copy (0 + 11) ((List.range 0).map m.mem)) := by
  intro m
  have hsize : (m.sizeOfMessage % 2 ^ 32).toNat = 0 + 11 := by
    have hlength : emptyText.accepted.length = 11 := by decide
    rw [(Memory.loaded beyond).sizeOfMessage_next (by decide) (by omega), hlength]
    rfl
  exact hsize ▸ .read

/-! ### What a process gets -/

/-- The bytes that a process has asked for. -/
def Pc.wanted : Pc → ℕ
  | .copy n _ => n
  | .outside | .format _ _ _ | .measure _ | .storeSize _ => 0

/-- One text may still come to a process if there is one to be read, or if the process has
asked for it already. -/
def due (m : Memory) (pc : Pc) : ℕ := if m.sizeOfMessage = 0 ∧ pc.wanted = 0 then 0 else 1

theorem due_le (m : Memory) (pc : Pc) : due m pc ≤ 1 := by
  rw [due]
  split_ifs <;> omega

theorem due_mono (h : m.sizeOfMessage = 0 → pc.wanted = 0 →
    m'.sizeOfMessage = 0 ∧ pc'.wanted = 0) : due m' pc' ≤ due m pc := by
  by_cases hnone : m.sizeOfMessage = 0 ∧ pc.wanted = 0
  · rw [due, if_pos (h hnone.1 hnone.2)]
    exact Nat.zero_le _
  · rw [due.eq_def m pc, if_neg hnone]
    exact due_le m' pc'

theorem Pc.wanted_forWrite (text : UserText) : (Pc.forWrite text).wanted = 0 := by
  rw [Pc.forWrite]
  split_ifs <;> rfl

theorem Pc.wanted_afterPut (accepted : Bool) (todo : List Char) (a : ℕ) :
    (Pc.afterPut accepted todo a).wanted = 0 := by
  rw [Pc.afterPut]
  split_ifs <;> rfl

omit [DecidableEq P] in
/-- What other processes do makes a text due only by storing its length. -/
theorem Next.due_le (h : Next texts m pc e m' pc') (other : Pc) :
    due m' other ≤ due m other + stores [(p, e)] := by
  cases h with
  | storeSize => exact (SimpleDriver.due_le _ _).trans (Nat.le_add_left _ _)
  | deliver => exact Nat.le_add_right_of_le (due_mono fun _ hother => ⟨rfl, hother⟩)
  | write | put | measure | read | copy | fail => exact Nat.le_add_right _ _

/-- A process that gets a text has no other due. -/
theorem Next.delivered_le (h : Next texts m pc e m' pc') :
    (deliveredTo p [(p, e)]).length + due m' pc' ≤ due m pc + stores [(p, e)] := by
  have hnothing : deliveries [(p, e)] = [] → due m' pc' ≤ due m pc + stores [(p, e)] →
      (deliveredTo p [(p, e)]).length + due m' pc' ≤ due m pc + stores [(p, e)] := by
    intro hnone hdue
    rwa [deliveredTo_eq_nil hnone, List.length_nil, Nat.zero_add]
  cases h with
  | write => exact hnothing rfl (Nat.le_add_right_of_le
      (due_mono fun hm _ => ⟨hm, Pc.wanted_forWrite _⟩))
  | put => exact hnothing rfl (Nat.le_add_right_of_le
      (due_mono fun hm _ => ⟨hm, Pc.wanted_afterPut _ _ _⟩))
  | measure =>
    refine hnothing rfl (Nat.le_add_right_of_le (due_mono fun hm _ => ⟨hm, ?_⟩))
    split_ifs <;> rfl
  | storeSize => exact hnothing rfl ((SimpleDriver.due_le _ _).trans (Nat.le_add_left _ _))
  | read =>
    refine hnothing rfl (Nat.le_add_right_of_le (due_mono fun hm _ => ⟨hm, ?_⟩))
    rw [hm]
    rfl
  | copy => exact hnothing rfl (Nat.le_add_right_of_le (due_mono fun hm hn => ⟨hm, hn⟩))
  | fail => exact hnothing rfl (Nat.le_add_right_of_le (due_mono fun hm _ => ⟨hm, rfl⟩))
  | @deliver n got hall =>
    have hafter : due { m with sizeOfMessage := 0 } .outside = 0 := if_pos ⟨rfl, rfl⟩
    rw [hafter]
    by_cases hgot : got = []
    · simp [deliveredTo, deliveries, hgot]
    · -- the text that was due
      have hn : n ≠ 0 := hall ▸ mt List.length_eq_zero_iff.mp hgot
      have hdue : due m (.copy n got) = 1 := if_neg fun h => hn h.2
      rw [hdue]
      simp [deliveredTo, deliveries, hgot]

/-- The text at byte `a` comes from one of the texts written, or is a terminator. -/
def Came (w : List (P × Event)) (a : ℕ) (c : Char) : Prop :=
  c = nul ∨ ∃ p text, (p, Event.write text) ∈ w ∧ text.written[a]? = some c

/-- What a process still has to store, and what it has copied, comes from texts written. -/
def Pc.Sourced (w : List (P × Event)) : Pc → Prop
  | .format _ todo a => ∀ k c, todo[k]? = some c → Came w (a + k) c
  | .copy _ got => ∀ a < messageSize, ∀ c, got[a]? = some c → Came w a c
  | .outside | .measure _ | .storeSize _ => True

omit [DecidableEq P] in
theorem Came.mono {v : List (P × Event)} {a : ℕ} {c : Char} (h : Came w a c) :
    Came (w ++ v) a c :=
  h.imp_right fun ⟨p, text, hmem, hc⟩ => ⟨p, text, List.mem_append_left _ hmem, hc⟩

omit [DecidableEq P] in
theorem Pc.Sourced.mono {v : List (P × Event)} (h : pc.Sourced w) : pc.Sourced (w ++ v) := by
  cases pc with
  | format accepted todo a => exact fun k c hc => (h k c hc).mono
  | copy n got => exact fun a ha c hc => (h a ha c hc).mono
  | outside | measure i | storeSize n => trivial

omit [DecidableEq P] in
theorem Pc.sourced_forWrite {text : UserText} (h : (p, Event.write text) ∈ w) :
    (Pc.forWrite text).Sourced w := by
  have hall : ∀ k c, (text.written ++ [nul])[k]? = some c → Came w (0 + k) c := by
    intro k c hc
    rw [Nat.zero_add]
    rcases lt_or_ge k text.written.length with hlt | hge
    · rw [List.getElem?_append_left hlt] at hc
      exact Or.inr ⟨p, text, h, hc⟩
    · rw [List.getElem?_append_right hge] at hc
      exact Or.inl (List.mem_singleton.mp (List.mem_of_getElem? hc))
  rw [UserText.written] at hall
  rw [Pc.forWrite]
  split_ifs at hall ⊢
  · exact hall
  · exact hall

/-- Everything in `message`, and everything that processes have got, comes from texts
written. -/
structure Sourced (w : List (P × Event)) (s : Processes P) : Prop where
  message : ∀ a < messageSize, Came w a (s.memory.mem a)
  pc : ∀ p, (s.pc p).Sourced w
  delivered : ∀ p got, (p, Event.delivered got) ∈ w →
    ∀ a < messageSize, ∀ c, got[a]? = some c → Came w a c

theorem Sourced.step {a : P × Event} (h : Sourced w s)
    (hstep : (processes P texts beyond).step s a t) : Sourced (w ++ [a]) t := by
  obtain ⟨p, e⟩ := a
  obtain ⟨m, pc, hnext, rfl⟩ := hstep
  have hbefore : (s.pc p).Sourced (w ++ [(p, e)]) := (h.pc p).mono
  have hmessage : ∀ a < messageSize, Came (w ++ [(p, e)]) a (s.memory.mem a) :=
    fun a ha => (h.message a ha).mono
  have hlast : (p, e) ∈ w ++ [(p, e)] := by simp
  -- what the step does to the memory and to its process, and what it delivers
  have heffect : (∀ a < messageSize, Came (w ++ [(p, e)]) a (m.mem a)) ∧
      pc.Sourced (w ++ [(p, e)]) ∧ ∀ got, e = .delivered got →
        ∀ a < messageSize, ∀ c, got[a]? = some c → Came (w ++ [(p, e)]) a c := by
    dsimp only at hnext
    generalize w ++ [(p, e)] = v at hbefore hmessage hlast ⊢
    generalize s.memory = m₀ at hnext hmessage
    generalize s.pc p = pc₀ at hnext hbefore
    cases hnext with
    | write => exact ⟨hmessage, Pc.sourced_forWrite hlast, by simp⟩
    | @put accepted c todo a =>
      refine ⟨fun b hb => ?_, ?_, by simp⟩
      · by_cases hba : b = a
        · subst hba
          simpa using hbefore 0 c rfl
        · rw [Memory.store_of_ne hba]
          exact hmessage b hb
      · rw [Pc.afterPut]
        split_ifs
        · trivial
        · trivial
        · intro k d hd
          have hnext := hbefore (k + 1) d (by simpa using hd)
          rwa [show a + 1 + k = a + (k + 1) by omega]
    | measure =>
      refine ⟨hmessage, ?_, by simp⟩
      split_ifs <;> trivial
    | storeSize => exact ⟨hmessage, trivial, by simp⟩
    | read => exact ⟨hmessage, fun a _ c hc => by simp at hc, by simp⟩
    | @copy n got hlt =>
      refine ⟨hmessage, fun a ha c hc => ?_, by simp⟩
      rcases lt_or_ge a got.length with hbelow | hge
      · rw [List.getElem?_append_left hbelow] at hc
        exact hbefore a ha c hc
      · rw [List.getElem?_append_right hge] at hc
        have hzero : a - got.length = 0 := by
          have := (List.getElem?_eq_some_iff.mp hc).1
          simpa using this
        obtain rfl : a = got.length := by omega
        simp at hc
        exact hc ▸ hmessage _ ha
    | fail => exact ⟨hmessage, trivial, by simp⟩
    | deliver =>
      refine ⟨hmessage, trivial, fun got' heq => ?_⟩
      obtain rfl := Event.delivered.inj heq
      exact hbefore
  refine ⟨heffect.1, fun q => ?_, fun q got hgot => ?_⟩
  · by_cases hq : q = p
    · rw [hq, Processes.move_pc_self]
      exact heffect.2.1
    · rw [Processes.move_pc_of_ne hq]
      exact (h.pc q).mono
  · rcases List.mem_append.mp hgot with hgot | hgot
    · exact fun a ha c hc => (h.delivered q got hgot a ha c hc).mono
    · obtain ⟨-, heq⟩ := Prod.mk.inj (List.mem_singleton.mp hgot)
      exact heffect.2.2 got heq.symm

/-- In a part of a run a process gets at most the text that was due and one for every length
stored. -/
theorem delivered_add_due_le (hrun : (processes P texts beyond).Run s w t) (p : P) :
    (deliveredTo p w).length + due t.memory (t.pc p) ≤ due s.memory (s.pc p) + stores w := by
  refine hrun.history_invariant (I := fun w t => (deliveredTo p w).length +
    due t.memory (t.pc p) ≤ due s.memory (s.pc p) + stores w) ?_ (Nat.le_of_eq (Nat.zero_add _))
  rintro w x ⟨q, e⟩ y ⟨m, pc, hnext, rfl⟩ ih
  dsimp only at hnext ⊢
  rw [deliveredTo_append, List.length_append, stores_append]
  by_cases hq : q = p
  · subst hq
    have hlast := hnext.delivered_le (p := q)
    rw [Processes.move_memory, Processes.move_pc_self]
    omega
  · have hlast := hnext.due_le (p := q) (x.pc p)
    have hnone : deliveredTo p [(q, e)] = [] := by
      simp [deliveredTo, deliveries, hq]
    rw [Processes.move_memory, Processes.move_pc_of_ne (Ne.symm hq), hnone, List.length_nil]
    omega

/-- The texts that one operation delivers. -/
def Memory.deliveredBy (m : Memory) : Op → List (List Char)
  | .write _ => []
  | .read errorCount => (m.devRead errorCount).delivered.toList

theorem Memory.delivered_append_singleton (m : Memory) (ops : List Op) (op : Op) :
    m.delivered (ops ++ [op]) = m.delivered ops ++ (m.after ops).deliveredBy op := by
  induction ops generalizing m with
  | nil => cases op <;> simp [Memory.delivered, Memory.deliveredBy, Memory.after]
  | cons first ops ih =>
    cases first with
    | write text => exact ih _
    | read errorCount => simp [Memory.delivered, ih, Memory.after]

/-- A process in the middle of a call that has begun with memory `m₀`. -/
inductive During (m₀ : Memory) : Option UserText → Memory → Pc → Prop
  | outside : During m₀ none m₀ .outside
  | copy {n k : ℕ} (hn : n = (m₀.sizeOfMessage % 2 ^ 32).toNat) (hk : k ≤ n) :
      During m₀ none m₀ (.copy n ((List.range k).map m₀.mem))
  | format {text : UserText} {done todo : List Char} {c : Char}
      (htext : text.written ++ [nul] = done ++ c :: todo) :
      During m₀ (some text) (m₀.storeAll 0 done)
        (.format (text.chars.length < messageSize) (c :: todo) done.length)
  | measure {text : UserText} (haccept : text.chars.length < messageSize) {i : ℕ}
      (hi : i ≤ text.accepted.length) :
      During m₀ (some text) (m₀.storeAll 0 (text.accepted ++ [nul])) (.measure i)
  | storeSize {text : UserText} (haccept : text.chars.length < messageSize) :
      During m₀ (some text) (m₀.storeAll 0 (text.accepted ++ [nul]))
        (.storeSize text.accepted.length)

theorem Memory.storeAll_append (m : Memory) (a : ℕ) (done todo : List Char) :
    m.storeAll a (done ++ todo) = (m.storeAll a done).storeAll (a + done.length) todo := by
  induction done generalizing m a with
  | nil => rfl
  | cons c done ih =>
    rw [List.cons_append, Memory.storeAll, ih, Memory.storeAll, List.length_cons,
      Nat.add_right_comm, Nat.add_assoc]

theorem during_forWrite (m₀ : Memory) (text : UserText) :
    During m₀ (some text) m₀ (.forWrite text) := by
  obtain ⟨c, todo, htodo⟩ := List.exists_cons_of_ne_nil
    (show text.written ++ [nul] ≠ [] by simp)
  have hformat : During m₀ (some text) (m₀.storeAll 0 [])
      (.format (text.chars.length < messageSize) (c :: todo) 0) := .format htodo
  rw [UserText.written] at htodo
  rw [Pc.forWrite]
  split_ifs at htodo ⊢ with haccept
  · simpa [htodo, haccept, Memory.storeAll] using hformat
  · simpa [htodo, haccept, Memory.storeAll] using hformat

omit [DecidableEq P] in
/-- One step of a process alone: it goes on with its call or completes it. -/
theorem During.next {m₀ : Memory} {writing : Option UserText} (h : During m₀ writing m pc)
    (hnext : Next texts m pc e m' pc') :
    (∃ writing', During m₀ writing' m' pc' ∧ deliveries [(p, e)] = [] ∧
      writing'.toList.map Op.write = writing.toList.map .write ++ operations [(p, e)]) ∨
    ∃ op, m' = m₀.next op ∧ pc' = .outside ∧ deliveries [(p, e)] = m₀.deliveredBy op ∧
      [op] = writing.toList.map .write ++ operations [(p, e)] := by
  cases hnext with
  | @write text htext =>
    cases h
    exact Or.inl ⟨some text, during_forWrite m text, rfl, rfl⟩
  | @put _ c todo _ =>
    cases h with
    | @format text done _ _ htext =>
      have hstored : (m₀.storeAll 0 done).store done.length c = m₀.storeAll 0 (done ++ [c]) := by
        rw [Memory.storeAll_append, Nat.zero_add]
        rfl
      rw [hstored]
      cases todo with
      | cons d todo =>
        refine Or.inl ⟨some text, ?_, rfl, rfl⟩
        have hformat : During m₀ (some text) (m₀.storeAll 0 (done ++ [c]))
            (.format (text.chars.length < messageSize) (d :: todo) (done ++ [c]).length) :=
          .format (by simpa using htext)
        simpa [Pc.afterPut] using hformat
      | nil =>
        -- the text has been stored
        rw [← htext, UserText.written]
        by_cases haccept : text.chars.length < messageSize
        · refine Or.inl ⟨some text, ?_, rfl, rfl⟩
          simpa [Pc.afterPut, haccept] using During.measure haccept (Nat.zero_le _)
        · refine Or.inr ⟨.write text, ?_, by simp [Pc.afterPut, haccept], rfl, rfl⟩
          rw [if_neg haccept, Memory.next_refused m₀ haccept]
  | @measure i =>
    cases h with
    | @measure text haccept _ hi =>
      refine Or.inl ⟨some text, ?_, rfl, rfl⟩
      rw [Memory.mem_storeAll]
      rcases hi.lt_or_eq with hlt | rfl
      · -- no terminator is in the text
        have hne : text.accepted[i] ≠ nul := fun heq =>
          text.nul_notMem_accepted (heq ▸ List.getElem_mem hlt)
        rw [write_of_lt hlt, if_neg hne]
        exact .measure haccept hlt
      · rw [write_length, if_pos rfl]
        exact .storeSize haccept
  | storeSize =>
    cases h with
    | @storeSize text haccept =>
      exact Or.inr ⟨.write text, Memory.next_accepted m₀ haccept, rfl, rfl, rfl⟩
  | read =>
    cases h
    exact Or.inl ⟨none, .copy (k := 0) rfl (Nat.zero_le _), rfl, rfl⟩
  | @copy n got hlt =>
    cases h with
    | @copy _ k hn hk =>
      refine Or.inl ⟨none, ?_, rfl, rfl⟩
      have hlt : k < n := by simpa using hlt
      have hcopy : During m none m (.copy n ((List.range (k + 1)).map m.mem)) := .copy hn hlt
      simpa [List.range_succ] using hcopy
  | fail hlt =>
    cases h
    exact Or.inr ⟨.read 1, rfl, rfl, rfl, rfl⟩
  | @deliver n got hall =>
    cases h with
    | @copy _ k hn hk =>
      obtain rfl : k = n := by simpa using hall
      refine Or.inr ⟨.read 0, rfl, rfl, ?_, rfl⟩
      rw [hn]
      rfl

/-- As long as only one process makes calls, the driver that is accessed byte by byte works
one operation at a time: it delivers what its operations deliver in order, and between two
calls the memory is what they leave behind. -/
theorem one_process_run (hinit : (processes P texts beyond).initial s)
    (hrun : (processes P texts beyond).Run s w t) (honly : ∀ e ∈ w, e.1 = p) :
    deliveries w = (Memory.loaded beyond).delivered (operations w) ∧
      (t.pc p = .outside → t.memory = (Memory.loaded beyond).after (operations w)) := by
  have hduring := hrun.history_invariant (I := fun w t => (∀ e ∈ w, e.1 = p) →
    ∃ before writing, operations w = before ++ writing.toList.map Op.write ∧
      deliveries w = (Memory.loaded beyond).delivered before ∧
      During ((Memory.loaded beyond).after before) writing t.memory (t.pc p)) ?_ ?_ honly
  · obtain ⟨before, writing, hops, hdel, hpc⟩ := hduring
    rw [hops, hdel]
    constructor
    · cases writing with
      | none => simp
      | some text => simp [Memory.delivered_append_singleton, Memory.deliveredBy]
    · intro hout
      rw [hout] at hpc
      generalize t.memory = m at hpc
      cases hpc
      simp
  · rintro w s ⟨q, e⟩ t ⟨m, pc, hnext, rfl⟩ ih honly
    obtain rfl : q = p := honly (q, e) (by simp)
    obtain ⟨before, writing, hops, hdel, hpc⟩ := ih fun e he => honly e (by simp [he])
    rw [operations_append, deliveries_append, hops, hdel, Processes.move_memory,
      Processes.move_pc_self]
    rcases hpc.next (p := q) hnext with ⟨writing', hpc', hnone, heq⟩ | ⟨op, rfl, rfl, hgot, heq⟩
    · exact ⟨before, writing', by rw [heq, List.append_assoc], by rw [hnone, List.append_nil],
        hpc'⟩
    · refine ⟨before ++ [op], none, ?_, ?_, ?_⟩
      · simp [heq]
      · rw [Memory.delivered_append_singleton, hgot]
      · rw [Memory.after_append_singleton]
        exact .outside
  · intro _
    refine ⟨[], none, rfl, rfl, ?_⟩
    rw [hinit.1, hinit.2]
    exact .outside

/-- A process writes the empty text and reads it back. -/
theorem one_process_run_write_read :
    ∃ (w : List (Unit × Event)) (s t : Processes Unit),
      (processes Unit {emptyText} fun _ => 'x').initial s ∧
      (processes Unit {emptyText} fun _ => 'x').Run s w t ∧
      operations w = [.write emptyText, .read 0] ∧ deliveries w = ["(0 letters)".toList] ∧
      deliveries w = (Memory.loaded fun _ => 'x').delivered (operations w) ∧
      t.memory = (Memory.loaded fun _ => 'x').after (operations w) := by
  let beyond : ℕ → Char := fun _ => 'x'
  let m : Memory := (Memory.loaded beyond).next (.write emptyText)
  let s : Processes Unit := ⟨.loaded beyond, fun _ => .outside⟩
  have hinit : (processes Unit {emptyText} beyond).initial s := ⟨rfl, fun _ => rfl⟩
  let full := (List.range (0 + 11)).map m.mem
  have hfull : full = "(0 letters)".toList := by decide +kernel
  have hend : Next {emptyText} m (.copy (0 + 11) full) (.delivered full)
      { m with sizeOfMessage := 0 } .outside := .deliver (by simp [full])
  obtain ⟨w₀, hwrite, honly₀, -, hnone₀, hops₀⟩ := exists_run_write beyond s () (.loaded beyond)
    (Set.mem_singleton emptyText) (by decide)
  obtain ⟨w₁, hcopy, hquiet⟩ := exists_run_copy {emptyText} beyond s () m 11 0
  obtain ⟨-, hnone₁, hops₁⟩ := quiet_of_accessed hquiet
  have hrun := (((Processes.move_self (p := ()) (s := s) rfl ▸ hwrite).snoc
    (Processes.step_move (.read_emptyText beyond))).trans hcopy).snoc (Processes.step_move hend)
  obtain ⟨hdelivered, hmemory⟩ := one_process_run (p := ()) hinit hrun fun _ _ => rfl
  refine ⟨_, s, _, hinit, hrun, ?_, ?_, hdelivered, hmemory (by simp)⟩
  · simp only [operations_append, hops₀, hops₁]
    rfl
  · simp only [deliveries_append, hnone₀, hnone₁]
    rw [hfull]
    rfl

end Sisop.SimpleDriver
