import Mathlib.Algebra.Order.Ring.Abs
import Mathlib.Tactic.Linarith
import Mathlib.Tactic.Ring
import Sisop.Foundations.Transition

/-!
# Nearest-first service on a line

A head moves on a line and always goes to a nearest of the positions still pending.
The positions visited so far span an interval. The head is at one of its ends, no
pending position lies inside it or at its other end, and the pending positions beyond
the other end are at least as far from it as the head has travelled in excess of the
interval's length. This excess grows only when the head reverses, and then by no
more than the reversal adds to the interval, so the head never travels more than
twice the interval it has swept.

## Main definitions

* `Nearest` — a pending position that minimises the distance to the head
* `machine` — the head and the pending positions, one served position a step
* `travel` — the distance travelled along a sequence of positions
* `turns` — how often the head turns along a sequence of positions

## Main results

* `swept_of_run` — the invariant of the swept interval
* `abs_sub_le_travel` — no way through two positions is shorter than their distance
* `travel_le_of_run` — the head travels at most twice the swept interval
* `two_pow_mul_le_of_run` — every turn after the first doubles the swept interval
* `sorted_of_ahead`, `sorted_of_behind` — positions on one side are served in one sweep
-/

namespace Sisop.Foundations.Sweep

variable {α : Type*} [CommRing α] [LinearOrder α] [IsStrictOrderedRing α]

/-- Position `s` is pending and no pending position is closer to the head. -/
def Nearest (head : α) (pending : Set α) (s : α) : Prop :=
  s ∈ pending ∧ ∀ p ∈ pending, |s - head| ≤ |p - head|

/-- The head and the pending positions. A step serves a nearest pending position, after
which nothing new is pending. The served position may still be, when it was pending
more than once. -/
def machine (α : Type*) [CommRing α] [LinearOrder α] : Machine (α × Set α) α where
  initial _ := True
  step x s y := Nearest x.1 x.2 s ∧ y.1 = s ∧ y.2 ⊆ x.2

/-- The distance travelled from a position along a sequence of positions. -/
def travel : α → List α → α
  | _, [] => 0
  | h, s :: w => |s - h| + travel s w

omit [IsStrictOrderedRing α] in
theorem travel_append_singleton (h s : α) (w : List α) :
    travel h (w ++ [s]) = travel h w + |s - (h :: w).getLast (List.cons_ne_nil _ _)| := by
  induction w generalizing h with
  | nil => simp [travel]
  | cons a w ih =>
    rw [List.cons_append, travel, travel, ih a, List.getLast_cons_cons]
    ring

theorem travel_nonneg (h : α) (w : List α) : 0 ≤ travel h w := by
  induction w generalizing h with
  | nil => exact le_rfl
  | cons s w ih => exact add_nonneg (abs_nonneg _) (ih s)

/-- The distance travelled to a visited position is at least that from the start. -/
theorem abs_sub_head_le_travel {h x : α} {w : List α} (hx : x ∈ h :: w) :
    |x - h| ≤ travel h w := by
  induction w generalizing h with
  | nil => simp [List.mem_singleton.mp hx, travel]
  | cons a w ih =>
    rcases List.mem_cons.mp hx with rfl | hx
    · rw [sub_self, abs_zero]
      exact travel_nonneg _ _
    · rw [travel]
      calc |x - h| ≤ |x - a| + |a - h| := abs_sub_le x a h
        _ ≤ |a - h| + travel a w := by linarith [ih hx]

/-- No way through two positions is shorter than the distance between them. -/
theorem abs_sub_le_travel {h x y : α} {w : List α} (hx : x ∈ h :: w) (hy : y ∈ h :: w) :
    |x - y| ≤ travel h w := by
  induction w generalizing h with
  | nil => simp [List.mem_singleton.mp hx, List.mem_singleton.mp hy, travel]
  | cons a w ih =>
    rcases List.mem_cons.mp hx with rfl | hx'
    · rw [abs_sub_comm]
      exact abs_sub_head_le_travel hy
    · rcases List.mem_cons.mp hy with rfl | hy'
      · exact abs_sub_head_le_travel hx
      · exact (ih hx' hy').trans (le_add_of_nonneg_left (abs_nonneg _))

/-! ### One direction -/

/-- The interval from `far` up to the head at its upper end, after some travel. -/
structure Up (far head dist : α) (pending : Set α) : Prop where
  le : far ≤ head
  short : dist ≤ 2 * (head - far)
  beyond : ∀ p ∈ pending, head ≤ p ∨ p < far ∧ p + (dist - (head - far)) ≤ far

variable {far head dist s : α} {pending rest : Set α}

/-- The mirror image of a set of positions. -/
def mirror (pending : Set α) : Set α := {p | -p ∈ pending}

omit [LinearOrder α] [IsStrictOrderedRing α] in
@[simp] theorem mirror_mirror : mirror (mirror pending) = pending := by
  ext p
  simp [mirror]

omit [LinearOrder α] [IsStrictOrderedRing α] in
theorem mirror_subset (h : rest ⊆ pending) : mirror rest ⊆ mirror pending := fun _ hp => h hp

omit [IsStrictOrderedRing α] in
theorem Nearest.mirror (h : Nearest head pending s) :
    Nearest (-head) (Sweep.mirror pending) (-s) := by
  have hneg : ∀ p : α, |-p - -head| = |p - head| := by
    intro p
    rw [neg_sub_neg, abs_sub_comm]
  refine ⟨by simpa [Sweep.mirror] using h.1, fun p hp => ?_⟩
  rw [hneg, ← neg_neg p, hneg]
  exact h.2 (-p) hp

/-- Going on in the same direction keeps the excess. -/
theorem Up.extend (hup : Up far head dist pending) (hnear : Nearest head pending s)
    (hrest : rest ⊆ pending) (hs : head ≤ s) : Up far s (dist + |s - head|) rest where
  le := hup.le.trans hs
  short := by
    rw [abs_of_nonneg (sub_nonneg.mpr hs)]
    linarith [hup.short]
  beyond := by
    intro p hp
    rw [abs_of_nonneg (sub_nonneg.mpr hs)]
    rcases hup.beyond p (hrest hp) with hp' | ⟨hp', hgap⟩
    · -- nothing is skipped: a position between the head and `s` would have been nearer
      left
      have hdist := hnear.2 p (hrest hp)
      rw [abs_of_nonneg (sub_nonneg.mpr hs), abs_of_nonneg (sub_nonneg.mpr hp')] at hdist
      linarith
    · exact Or.inr ⟨hp', by linarith⟩

/-- Reversing adds the old length to the excess and at least as much to the length. -/
theorem Up.reverse (hup : Up far head dist pending) (hnear : Nearest head pending s)
    (hrest : rest ⊆ pending) (hs : ¬ head ≤ s) :
    Up (-head) (-s) (dist + |s - head|) (mirror rest) := by
  obtain ⟨hbelow, hgap⟩ := (hup.beyond s hnear.1).resolve_left hs
  have hle := hup.le
  have habs : |s - head| = head - s := by
    rw [abs_sub_comm, abs_of_nonneg]
    linarith
  refine ⟨by linarith, by linarith, ?_⟩
  intro p hp
  have hdist := hnear.2 (-p) (hrest hp)
  rw [habs] at hdist ⊢
  rcases hup.beyond (-p) (hrest hp) with hp' | ⟨hp', -⟩
  · -- what is still ahead of the old head is no nearer to it than the position served
    right
    rw [abs_of_nonneg (sub_nonneg.mpr hp')] at hdist
    constructor <;> linarith
  · left
    rw [abs_sub_comm, abs_of_nonneg (by linarith)] at hdist
    linarith

/-! ### Runs -/

/-- The interval swept along `visited`, with the head at one of its ends. -/
structure Swept (visited : List α) (head dist : α) (pending : Set α) (far : α) : Prop where
  far_mem : far ∈ visited
  head_mem : head ∈ visited
  within : ∀ v ∈ visited, min far head ≤ v ∧ v ≤ max far head
  directed : Up far head dist pending ∨ Up (-far) (-head) dist (mirror pending)

theorem Swept.init (h : α) (pending : Set α) : Swept [h] h 0 pending h where
  far_mem := by simp
  head_mem := by simp
  within := by simp
  directed := by
    left
    refine ⟨le_rfl, by simp, fun p _ => ?_⟩
    rcases le_or_gt h p with hp | hp
    · exact Or.inl hp
    · exact Or.inr ⟨hp, by linarith⟩

omit [CommRing α] [IsStrictOrderedRing α] in
/-- Widening an interval by its new head keeps what was visited inside. -/
private theorem within_append {visited : List α} {lo hi lo' hi' : α}
    (hwithin : ∀ v ∈ visited, lo ≤ v ∧ v ≤ hi) (hlo : lo' ≤ lo) (hhi : hi ≤ hi')
    (hs : lo' ≤ s ∧ s ≤ hi') : ∀ v ∈ visited ++ [s], lo' ≤ v ∧ v ≤ hi' := by
  intro v hv
  rcases List.mem_append.mp hv with hv | hv
  · exact ⟨hlo.trans (hwithin v hv).1, (hwithin v hv).2.trans hhi⟩
  · rw [List.mem_singleton.mp hv]
    exact hs

/-- Serving a nearest position keeps the invariant, for one of the two old ends. -/
theorem Swept.step {visited : List α} (hswept : Swept visited head dist pending far)
    (hnear : Nearest head pending s) (hrest : rest ⊆ pending) :
    ∃ far', Swept (visited ++ [s]) s (dist + |s - head|) rest far' := by
  have hwithin := hswept.within
  have hfar := List.mem_append_left [s] hswept.far_mem
  have hhead := List.mem_append_left [s] hswept.head_mem
  have hlast : s ∈ visited ++ [s] := by simp
  rcases hswept.directed with hup | hdown
  · -- on the way up: `far` stays the other end, unless the head turns
    rw [min_eq_left hup.le, max_eq_right hup.le] at hwithin
    by_cases hs : head ≤ s
    · have hle := hup.le.trans hs
      refine ⟨far, hfar, hlast, ?_, Or.inl (hup.extend hnear hrest hs)⟩
      rw [min_eq_left hle, max_eq_right hle]
      exact within_append hwithin le_rfl hs ⟨hle, le_rfl⟩
    · have hrev := hup.reverse hnear hrest hs
      have hbelow := ((hup.beyond s hnear.1).resolve_left hs).1
      have hle : s ≤ head := le_of_not_ge hs
      refine ⟨head, hhead, hlast, ?_, Or.inr hrev⟩
      rw [min_eq_right hle, max_eq_left hle]
      exact within_append hwithin hbelow.le le_rfl ⟨le_rfl, hle⟩
  · -- on the way down: the same in the mirror
    have hle' : head ≤ far := neg_le_neg_iff.mp hdown.le
    rw [min_eq_right hle', max_eq_left hle'] at hwithin
    have hdist : |-s - -head| = |s - head| := by rw [neg_sub_neg, abs_sub_comm]
    by_cases hs : -head ≤ -s
    · have hext := hdown.extend hnear.mirror (mirror_subset hrest) hs
      rw [hdist] at hext
      have hle := (neg_le_neg_iff.mp hs).trans hle'
      refine ⟨far, hfar, hlast, ?_, Or.inr hext⟩
      rw [min_eq_right hle, max_eq_left hle]
      exact within_append hwithin (neg_le_neg_iff.mp hs) le_rfl ⟨le_rfl, hle⟩
    · have hrev := hdown.reverse hnear.mirror (mirror_subset hrest) hs
      rw [hdist, neg_neg, neg_neg, mirror_mirror] at hrev
      have hbelow := ((hdown.beyond (-s) hnear.mirror.1).resolve_left hs).1
      have hle : head ≤ s := le_of_not_ge fun h => hs (neg_le_neg h)
      refine ⟨head, hhead, hlast, ?_, Or.inl hrev⟩
      rw [min_eq_left hle, max_eq_right hle]
      exact within_append hwithin le_rfl (neg_lt_neg_iff.mp hbelow).le ⟨hle, le_rfl⟩

variable {h : α} {w : List α} {y : α × Set α}

/-- After any run the visited positions span an interval with the head at one end. -/
theorem swept_of_run (hrun : (machine α).Run (h, pending) w y) :
    (h :: w).getLast (List.cons_ne_nil _ _) = y.1 ∧
      ∃ far, Swept (h :: w) y.1 (travel h w) y.2 far := by
  refine hrun.history_invariant (I := fun w y =>
    (h :: w).getLast (List.cons_ne_nil _ _) = y.1 ∧
      ∃ far, Swept (h :: w) y.1 (travel h w) y.2 far) ?_ ⟨rfl, h, .init h pending⟩
  rintro w x s y ⟨hnear, rfl, hrest⟩ ⟨hlast, far, hswept⟩
  refine ⟨List.getLast_concat (l := h :: w), ?_⟩
  rw [travel_append_singleton, hlast]
  exact hswept.step hnear hrest

/-- The head is at the least or the greatest visited position, and nothing pending
lies strictly between these two. -/
theorem Swept.ends {visited : List α} (hswept : Swept visited head dist pending far) :
    (head = min far head ∨ head = max far head) ∧
      ∀ p ∈ pending, ¬ (min far head < p ∧ p < max far head) := by
  rcases hswept.directed with hup | hdown
  · rw [min_eq_left hup.le, max_eq_right hup.le]
    refine ⟨Or.inr rfl, fun p hp hbetween => ?_⟩
    rcases hup.beyond p hp with hp' | ⟨hp', -⟩
    · exact absurd hbetween.2 (not_lt.mpr hp')
    · exact absurd hbetween.1 hp'.asymm
  · have hle : head ≤ far := neg_le_neg_iff.mp hdown.le
    rw [min_eq_right hle, max_eq_left hle]
    refine ⟨Or.inl rfl, fun p hp hbetween => ?_⟩
    rcases hdown.beyond (-p) (by simpa [mirror] using hp) with hp' | ⟨hp', -⟩
    · exact absurd hbetween.1 (not_lt.mpr (neg_le_neg_iff.mp hp'))
    · exact absurd hbetween.2 (neg_lt_neg_iff.mp hp').asymm

/-- The head travels at most twice the length of any interval that holds the start and
every served position. -/
theorem travel_le_of_run {lo hi : α} (hrun : (machine α).Run (h, pending) w y)
    (hwithin : ∀ v ∈ h :: w, lo ≤ v ∧ v ≤ hi) : travel h w ≤ 2 * (hi - lo) := by
  obtain ⟨-, far, hswept⟩ := swept_of_run hrun
  have hfar := hwithin far hswept.far_mem
  have hhead := hwithin y.1 hswept.head_mem
  rcases hswept.directed with hup | hdown
  · linarith [hup.short, hfar.1, hhead.2]
  · linarith [hdown.short, hfar.2, hhead.1]

/-! ### Turns -/

/-- How often the head turns along a sequence of positions, on its way up at the start
(`true`) or down. A position that is served again is no turn. -/
def turnsFrom : Bool → α → List α → ℕ
  | _, _, [] => 0
  | true, h, s :: w => if s < h then turnsFrom false s w + 1 else turnsFrom true s w
  | false, h, s :: w => if h < s then turnsFrom true s w + 1 else turnsFrom false s w

/-- How often the head turns along a sequence of positions. -/
def turns : α → List α → ℕ
  | _, [] => 0
  | h, s :: w =>
    if s < h then turnsFrom false s w else if h < s then turnsFrom true s w else turns s w

/-- The mirror image of a way turns as often. -/
theorem turnsFrom_mirror (up : Bool) (h : α) (w : List α) :
    turnsFrom (!up) (-h) (w.map fun s => -s) = turnsFrom up h w := by
  induction w generalizing up h with
  | nil => cases up <;> rfl
  | cons s w ih =>
    have hup := ih true s
    have hdown := ih false s
    cases up <;> simp_all [turnsFrom]

theorem mem_mirror_map {lo hi : α} {w : List α}
    (hw : ∀ v ∈ w, lo ≤ v ∧ v ≤ hi) : ∀ v ∈ w.map fun s => -s, -hi ≤ v ∧ v ≤ -lo := by
  intro v hv
  obtain ⟨x, hx, rfl⟩ := List.mem_map.mp hv
  exact ⟨neg_le_neg (hw x hx).2, neg_le_neg (hw x hx).1⟩

omit [IsStrictOrderedRing α] in
/-- The mirror image of a run is a run. -/
theorem run_mirror (hrun : (machine α).Run (h, pending) w y) :
    (machine α).Run (-h, mirror pending) (w.map fun s => -s) (-y.1, mirror y.2) := by
  induction hrun with
  | refl => exact .refl _
  | snoc _ hstep ih =>
    rw [List.map_append]
    obtain ⟨hnear, hhead, hrest⟩ := hstep
    exact ih.snoc ⟨hnear.mirror, congrArg (fun x => -x) hhead, mirror_subset hrest⟩

theorem Up.init (h : α) (pending : Set α) : Up h h 0 pending where
  le := le_rfl
  short := by simp
  beyond := by
    intro p _
    rcases le_or_gt h p with hp | hp
    · exact Or.inl hp
    · exact Or.inr ⟨hp, by linarith⟩

/-- Every turn at least doubles the excess, which the interval bounds: by induction on the
positions served, a turn being followed in the mirror. -/
theorem Up.two_pow_turnsFrom_mul_le {e lo hi : α} (hup : Up far head dist pending)
    (he : 0 ≤ e) (hexcess : e ≤ dist - (head - far))
    (hrun : (machine α).Run (head, pending) w y) (hlo : lo ≤ far) (hhi : head ≤ hi)
    (hw : ∀ v ∈ w, lo ≤ v ∧ v ≤ hi) : 2 ^ turnsFrom true head w * e ≤ hi - lo := by
  induction hn : w.length generalizing far head dist pending e lo hi w y with
  | zero =>
    rw [List.length_eq_zero_iff.mp hn, turnsFrom, pow_zero, one_mul]
    linarith [hup.short]
  | succ n ih =>
    obtain ⟨s, w, rfl⟩ := List.exists_cons_of_length_eq_add_one hn
    rw [List.length_cons, Nat.add_right_cancel_iff] at hn
    obtain ⟨⟨head', rest⟩, ⟨hnear, hhead, hsub⟩, hrest⟩ := hrun.of_cons
    obtain rfl : head' = s := hhead
    have hs := hw head' (by simp)
    have hw' : ∀ v ∈ w, lo ≤ v ∧ v ≤ hi := fun v hv => hw v (List.mem_cons_of_mem _ hv)
    by_cases hturn : head' < head
    · -- the excess becomes all of the old travel, which is twice the old excess at least
      have hrev := hup.reverse hnear hsub (not_le.mpr hturn)
      have habs : |head' - head| = head - head' := by
        rw [abs_sub_comm, abs_of_nonneg (by linarith)]
      rw [habs] at hrev
      have hdouble := ih (e := 2 * e) hrev (by linarith) (by linarith [hup.short])
        (run_mirror hrest) (neg_le_neg hhi) (neg_le_neg hs.1) (mem_mirror_map hw')
        (by rw [List.length_map, hn])
      have hmirror := turnsFrom_mirror false head' w
      rw [Bool.not_false] at hmirror
      rw [hmirror] at hdouble
      rw [turnsFrom, if_pos hturn, pow_succ]
      linarith
    · have hext := hup.extend hnear hsub (not_lt.mp hturn)
      rw [abs_of_nonneg (by linarith [not_lt.mp hturn])] at hext
      rw [turnsFrom, if_neg hturn]
      exact ih hext he (by linarith) hrest hlo hs.2 hw' hn

/-- On the first leg: what lies between the start and the first turn is doubled by every
later turn. -/
theorem Up.two_pow_mul_le {e lo hi : α} {k : ℕ} (hup : Up far head dist pending) (he : 0 ≤ e)
    (hleg : e ≤ head - far) (hdist : head - far ≤ dist)
    (hrun : (machine α).Run (head, pending) w y) (hhi : head ≤ hi)
    (hw : ∀ v ∈ w, lo ≤ v ∧ v ≤ hi) (hk : turnsFrom true head w = k + 1) :
    2 ^ k * e ≤ hi - lo := by
  induction w generalizing head dist pending y with
  | nil => simp [turnsFrom] at hk
  | cons s w ih =>
    obtain ⟨⟨head', rest⟩, ⟨hnear, hhead, hsub⟩, hrest⟩ := hrun.of_cons
    obtain rfl : head' = s := hhead
    have hs := hw head' (by simp)
    have hw' : ∀ v ∈ w, lo ≤ v ∧ v ≤ hi := fun v hv => hw v (List.mem_cons_of_mem _ hv)
    by_cases hturn : head' < head
    · have hrev := hup.reverse hnear hsub (not_le.mpr hturn)
      have habs : |head' - head| = head - head' := by
        rw [abs_sub_comm, abs_of_nonneg (by linarith)]
      rw [habs] at hrev
      have hpow := hrev.two_pow_turnsFrom_mul_le he (by linarith) (run_mirror hrest)
        (neg_le_neg hhi) (neg_le_neg hs.1) (mem_mirror_map hw')
      have hmirror := turnsFrom_mirror false head' w
      rw [Bool.not_false] at hmirror
      rw [turnsFrom, if_pos hturn, Nat.add_right_cancel_iff] at hk
      rw [hmirror, hk] at hpow
      linarith
    · have hle := not_lt.mp hturn
      have hext := hup.extend hnear hsub hle
      rw [abs_of_nonneg (by linarith)] at hext
      rw [turnsFrom, if_neg hturn] at hk
      exact ih hext (by linarith) (by linarith) hrest hs.2 hw' hk

/-- If different positions are at least `e` apart, `k + 1` turns need an interval of length
`2 ^ k * e`. -/
theorem two_pow_mul_le_of_run {e lo hi : α} {k : ℕ} (he : 0 ≤ e)
    (hrun : (machine α).Run (h, pending) w y) (hwithin : ∀ v ∈ h :: w, lo ≤ v ∧ v ≤ hi)
    (hapart : ∀ v ∈ h :: w, ∀ v' ∈ h :: w, v < v' → e ≤ v' - v) (hk : turns h w = k + 1) :
    2 ^ k * e ≤ hi - lo := by
  induction w generalizing pending y with
  | nil => simp [turns] at hk
  | cons s w ih =>
    obtain ⟨⟨head', rest⟩, ⟨hnear, hhead, hsub⟩, hrest⟩ := hrun.of_cons
    obtain rfl : head' = s := hhead
    have hh := hwithin h (by simp)
    have hs := hwithin head' (by simp)
    have hw' : ∀ v ∈ w, lo ≤ v ∧ v ≤ hi := fun v hv => hwithin v (by simp [hv])
    have hstart := Up.init h pending
    rcases lt_trichotomy head' h with hless | rfl | hless
    · -- down: the first leg in the mirror
      rw [turns, if_pos hless] at hk
      have hdown := (Up.init (-h) (mirror pending)).extend hnear.mirror (mirror_subset hsub)
        (neg_le_neg hless.le)
      rw [abs_of_nonneg (by linarith)] at hdown
      have hmirror := turnsFrom_mirror false head' w
      rw [Bool.not_false, hk] at hmirror
      have hgap := hapart head' (by simp) h (by simp) hless
      have hpow := hdown.two_pow_mul_le he (by linarith) (by linarith) (run_mirror hrest)
        (neg_le_neg hs.1) (mem_mirror_map hw') hmirror
      linarith
    · rw [turns, if_neg (lt_irrefl _), if_neg (lt_irrefl _)] at hk
      exact ih hrest (fun v hv => hwithin v (List.mem_cons_of_mem _ hv))
        (fun v hv v' hv' => hapart v (List.mem_cons_of_mem _ hv) v' (List.mem_cons_of_mem _ hv')) hk
    · rw [turns, if_neg hless.asymm, if_pos hless] at hk
      have hup := hstart.extend hnear hsub hless.le
      rw [abs_of_nonneg (by linarith)] at hup
      have hgap := hapart h (by simp) head' (by simp) hless
      exact hup.two_pow_mul_le he (by linarith) (by linarith) hrest hs.2 hw' hk

/-! ### One side -/

/-- Positions ahead of the head are served in order, in one sweep. -/
theorem sorted_of_ahead (hrun : (machine α).Run (h, pending) w y) (hahead : ∀ p ∈ pending, h ≤ p) :
    (h :: w).Pairwise (· ≤ ·) ∧
      travel h w = (h :: w).getLast (List.cons_ne_nil _ _) - h := by
  induction w generalizing h pending with
  | nil => simp [travel]
  | cons s w ih =>
    obtain ⟨⟨head', rest⟩, ⟨hnear, hhead, hsub⟩, hrest⟩ := hrun.of_cons
    obtain rfl : head' = s := hhead
    have hle := hahead head' hnear.1
    have hrest' : ∀ p ∈ rest, head' ≤ p := by
      intro p hp
      have hdist := hnear.2 p (hsub hp)
      rw [abs_of_nonneg (sub_nonneg.mpr hle),
        abs_of_nonneg (sub_nonneg.mpr (hahead p (hsub hp)))] at hdist
      linarith
    obtain ⟨hsorted, htravel⟩ := ih hrest hrest'
    refine ⟨List.pairwise_cons.mpr ⟨fun v hv => ?_, hsorted⟩, ?_⟩
    · rcases List.mem_cons.mp hv with rfl | hv
      · exact hle
      · exact hle.trans ((List.pairwise_cons.mp hsorted).1 v hv)
    · rw [travel, htravel, abs_of_nonneg (sub_nonneg.mpr hle), List.getLast_cons_cons]
      ring

omit [IsStrictOrderedRing α] in
/-- The mirror image of a way is as long. -/
theorem travel_mirror (h : α) (w : List α) : travel (-h) (w.map fun s => -s) = travel h w := by
  induction w generalizing h with
  | nil => rfl
  | cons s w ih =>
    rw [List.map_cons, travel, travel, ih, neg_sub_neg, abs_sub_comm]

/-- Positions behind the head are served in order, in one sweep. -/
theorem sorted_of_behind (hrun : (machine α).Run (h, pending) w y)
    (hbehind : ∀ p ∈ pending, p ≤ h) :
    (h :: w).Pairwise (· ≥ ·) ∧
      travel h w = h - (h :: w).getLast (List.cons_ne_nil _ _) := by
  obtain ⟨hsorted, htravel⟩ := sorted_of_ahead (run_mirror hrun) fun p hp => by
    linarith [hbehind (-p) hp]
  rw [travel_mirror] at htravel
  have hcons : -h :: w.map (fun s => -s) = (h :: w).map fun s => -s := rfl
  constructor
  · rw [hcons, List.pairwise_map] at hsorted
    exact hsorted.imp fun hle => neg_le_neg_iff.mp hle
  · simp only [hcons, List.getLast_map] at htravel
    rw [htravel]
    ring

end Sisop.Foundations.Sweep
