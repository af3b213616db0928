import Sisop.ThreadRunner.Parsing
import Sisop.ThreadRunner.Scheduling

/-!
# From the settings that are printed back to the command line

Before the threads run, `main` prints the policy and the priority of each of them. The
policy is printed by its name, `get_sched_name`, and a list argument may name a policy as
well, `get_sched_id`. So the settings that a run prints can be given to the next run.

Every array of numbers can be given on the command line, as a list of numbers. A list of
the names that are printed gives the same array only if all policies have a name: what is
printed as `unknown` is read as 0, which is `SCHED_OTHER`. Both need a compiler that
evaluates the index of an assignment first.

## Main definitions

* `getSchedName` — `get_sched_name`
* `startOutput` — what `main` prints until the threads run
* `listArgument` — a list argument with a value for each thread

## Main results

* `parseList_listArgument` — such an argument is read entry by entry
* `settings_round_trip` — the settings printed by a run, given to another run
-/

namespace Sisop.ThreadRunner

open Foundations Decimal Strtok Scheduling

/-- `get_sched_name`. -/
def getSchedName (policy : ℤ) : List Char :=
  if policy = schedDeadline then "SCHED_DEADLINE".toList
  else if policy = 1 then "SCHED_FIFO".toList
  else if policy = 2 then "SCHED_RR".toList
  else if policy = 0 then "SCHED_OTHER".toList
  else if policy = 3 then "SCHED_BATCH".toList
  else if policy = 5 then "SCHED_IDLE".toList
  else "unknown".toList

/-- The policies that have a name. -/
def namedPolicies : List ℤ := [0, 1, 2, 3, 5, 6]

/-- What `sched_get_priority_max` and `sched_get_priority_min` return. -/
structure Limits where
  max : ℤ → ℤ
  min : ℤ → ℤ

/-- What `set_priority` prints. -/
def setPriorityOutput (limits : Limits) (newPolicy newPriority : ℤ) : List Char :=
  if newPolicy = schedDeadline then []
  else if newPriority > limits.max newPolicy ∨ newPriority < limits.min newPolicy then
    "Invalid priority: ".toList ++ getSchedName newPolicy ++ " MIN: ".toList ++
      text (limits.min newPolicy) ++ ", MAX: ".toList ++ text (limits.max newPolicy) ++ ['\n']
  else []

/-- What one turn of the creation loop prints. -/
def turnOutput (limits : Limits) (i : ℕ) (policy priority : ℤ) : List Char :=
  "Thread ".toList ++ text i ++ ": Policy: ".toList ++ getSchedName policy ++
    " Priority: ".toList ++ text priority ++ ['\n'] ++ setPriorityOutput limits policy priority

/-- What `main` prints until the threads run. -/
def startOutput (build : Build) (limits : Limits) (policies priorities : List ℤ) : List Char :=
  (match build with
    | .semaphore => []
    | .pmutexH2 => "DEFINED\n".toList) ++
  "Total Threads: ".toList ++ text policies.length ++ ['\n'] ++
  setPriorityOutput limits 1 99 ++
  (policies.zip priorities).zipIdx.flatMap (fun e => turnOutput limits e.2 e.1.1 e.1.2) ++
  setPriorityOutput limits 0 0

/-- A list argument with a value for each thread. -/
def listArgument (encode : ℤ → List Char) (values : List ℤ) : List Char :=
  [','].intercalate (pieces (values.zipIdx.map fun e => (text e.2, encode e.1)))

/-- The numbers that an `int` holds. -/
def IsInt (z : ℤ) : Prop := -CInt.maxVal 32 - 1 ≤ z ∧ z ≤ CInt.maxVal 32

instance (z : ℤ) : Decidable (IsInt z) := inferInstanceAs (Decidable (_ ∧ _))

variable {atoi : Atoi32} {encode : ℤ → List Char} {policies priorities values : List ℤ}
  {limits : Limits} {build : Build} {fuel N i : ℕ} {z policy priority : ℤ}

/-! ### Names and numbers -/

theorem getSchedName_of_notMem (h : policy ∉ namedPolicies) :
    getSchedName policy = "unknown".toList := by
  simp only [namedPolicies, List.mem_cons, List.not_mem_nil, or_false, not_or] at h
  simp [getSchedName, schedDeadline, h]

/-- A name is read as the policy it stands for, and `unknown` as 0. -/
theorem getSchedId_getSchedName (atoi : Atoi32) (policy : ℤ) :
    getSchedId atoi (getSchedName policy) = if policy ∈ namedPolicies then policy else 0 := by
  split_ifs with h
  · simp only [namedPolicies, List.mem_cons, List.not_mem_nil, or_false] at h
    rcases h with rfl | rfl | rfl | rfl | rfl | rfl <;> rfl
  · rw [getSchedName_of_notMem h]
    exact atoi.eq_zero (by decide +kernel)

theorem mem_namedPolicies (atoi : Atoi32) (policy : ℤ) :
    getSchedId atoi (getSchedName policy) ∈ namedPolicies := by
  rw [getSchedId_getSchedName]
  split_ifs with h
  · exact h
  · decide

/-- Policies are read as they were from their names if they have one. -/
theorem map_names_eq_iff (atoi : Atoi32) (policies : List ℤ) :
    policies.map (fun v => getSchedId atoi (getSchedName v)) = policies ↔
      ∀ p ∈ policies, p ∈ namedPolicies := by
  constructor
  · intro h p hp
    rw [← h] at hp
    obtain ⟨v, -, rfl⟩ := List.mem_map.mp hp
    exact mem_namedPolicies atoi v
  · intro hnamed
    have hself : ∀ v ∈ policies, getSchedId atoi (getSchedName v) = v := fun v hv => by
      rw [getSchedId_getSchedName, if_pos (hnamed v hv)]
    rw [List.map_congr_left hself, List.map_id']

/-- A number is no name, and is read as the number it is. -/
theorem getSchedId_text (atoi : Atoi32) (hz : IsInt z) : getSchedId atoi (text z) = z := by
  have hne : ∀ name : List Char, 'S' ∈ name → text z ≠ name := by
    rintro name hmem rfl
    rcases mem_text hmem with h | h
    · exact absurd h (by decide)
    · exact absurd h (by decide)
  rw [getSchedId, if_neg (hne _ (by decide)), if_neg (hne _ (by decide)),
    if_neg (hne _ (by decide)), if_neg (hne _ (by decide)), if_neg (hne _ (by decide)),
    if_neg (hne _ (by decide)), atoi.eq_of_text hz.1 hz.2]

/-- A number is a piece of a list argument. -/
theorem piece_text (z : ℤ) : text z ≠ [] ∧ ∀ c ∈ text z, delim0 c = false := by
  refine ⟨text_ne_nil z, fun c hc => ?_⟩
  rcases mem_text hc with rfl | hdigit
  · rfl
  · rw [delim0, decide_eq_false_iff_not]
    rintro rfl
    exact absurd hdigit (by decide)

/-- So is a name. -/
theorem piece_getSchedName (policy : ℤ) :
    getSchedName policy ≠ [] ∧ ∀ c ∈ getSchedName policy, delim0 c = false := by
  have hcomma : getSchedName policy ≠ [] ∧ ',' ∉ getSchedName policy := by
    by_cases h : policy ∈ namedPolicies
    · simp only [namedPolicies, List.mem_cons, List.not_mem_nil, or_false] at h
      rcases h with rfl | rfl | rfl | rfl | rfl | rfl <;> exact ⟨by decide, by decide⟩
    · rw [getSchedName_of_notMem h]
      exact ⟨by decide, by decide⟩
  refine ⟨hcomma.1, fun c hc => ?_⟩
  rw [delim0, decide_eq_false_iff_not]
  rintro rfl
  exact hcomma.2 hc

/-! ### Reading a list argument -/

/-- The thread that a pair is for. -/
theorem atoi_text_natCast (atoi : Atoi32) (hi : (i : ℤ) ≤ CInt.maxVal 32) :
    atoi (text i) = i := by
  have hmax : (0 : ℤ) ≤ CInt.maxVal 32 := (Int.natCast_nonneg i).trans hi
  exact atoi.eq_of_text (by omega) hi

/-- The stores for the first threads leave the entries of the others zero: by induction
on the threads. -/
theorem fill_zipIdx (atoi : Atoi32) (decode : List Char → ℤ) (encode : ℤ → List Char)
    (hlength : values.length ≤ N) (hint : (N : ℤ) ≤ CInt.maxVal 32) :
    fill (fun p => atoi p.1) (fun p => decode p.2) (List.replicate N 0)
        (values.zipIdx.map fun e => (text e.2, encode e.1)) =
      values.map (fun v => decode (encode v)) ++ List.replicate (N - values.length) 0 := by
  induction values using List.reverseRecOn with
  | nil => simp [fill]
  | append_singleton values v ih =>
    rw [List.length_append, List.length_singleton] at hlength
    obtain ⟨k, hk⟩ : ∃ k, N - values.length = k + 1 := ⟨N - values.length - 1, by omega⟩
    have hindex : atoi (text (values.length : ℤ)) = values.length :=
      atoi_text_natCast atoi (by omega)
    have hzip : (values ++ [v]).zipIdx = values.zipIdx ++ [(v, values.length)] := by
      simp [List.zipIdx_append]
    have hrest : N - (values ++ [v]).length = k := by
      rw [List.length_append, List.length_singleton]
      omega
    rw [hzip, List.map_append, List.map_singleton, fill_append_singleton, ih (by omega), hindex,
      Int.toNat_natCast, hk, hrest, List.replicate_succ, List.set_append_right _ _ (by simp)]
    simp

/-- An argument with a value for each thread is read entry by entry. -/
theorem parseList_listArgument (atoi : Atoi32) (decode : List Char → ℤ)
    (hpiece : ∀ v ∈ values, encode v ≠ [] ∧ ∀ c ∈ encode v, delim0 c = false)
    (hint : (values.length : ℤ) ≤ CInt.maxVal 32) (hfuel : values.length < fuel) :
    parseList atoi decode .indexFirst fuel values.length (listArgument encode values) =
      some (.ok (values.map fun v => decode (encode v))) := by
  have hpieces : Text.fields delim0 (listArgument encode values) =
      pieces (values.zipIdx.map fun e => (text (e.2 : ℤ), encode e.1)) := by
    refine fields_intercalate rfl fun l hl => ?_
    simp only [pieces, List.flatMap_map, List.mem_flatMap] at hl
    obtain ⟨e, he, hl⟩ := hl
    rw [List.mem_pair] at hl
    rcases hl with rfl | rfl
    · exact piece_text _
    · exact hpiece _ (List.fst_mem_of_mem_zipIdx he)
  rw [parseList_pieces .indexFirst hpieces ?_ (by simpa using hfuel)]
  · have hfill := fill_zipIdx atoi decode encode (le_refl values.length) hint
    simp only [Order.index]
    rw [hfill, Nat.sub_self, List.replicate_zero, List.append_nil]
  · intro p hp
    obtain ⟨e, he, rfl⟩ := List.mem_map.mp hp
    have hlt : e.2 < values.length := by simpa using List.snd_lt_of_mem_zipIdx he
    simp only [Order.index]
    rw [atoi_text_natCast atoi (by omega)]
    omega

/-- Both arguments. -/
theorem parseLists_listArgument (atoi : Atoi32) (hlength : priorities.length = policies.length)
    (hint : (policies.length : ℤ) ≤ CInt.maxVal 32) (hpriorities : ∀ z ∈ priorities, IsInt z)
    (hpiece : ∀ v ∈ policies, encode v ≠ [] ∧ ∀ c ∈ encode v, delim0 c = false)
    (hfuel : policies.length < fuel) :
    parseLists atoi .indexFirst fuel policies.length (listArgument encode policies)
        (listArgument text priorities) =
      some (.ok (policies.map fun v => getSchedId atoi (encode v), priorities)) := by
  have hnumbers : priorities.map (fun v => atoi (text v)) = priorities := by
    rw [List.map_congr_left fun v hv => atoi.eq_of_text (hpriorities v hv).1 (hpriorities v hv).2,
      List.map_id']
  have h4 : parseList atoi atoi .indexFirst fuel priorities.length
      (listArgument text priorities) = some (.ok (priorities.map fun v => atoi (text v))) :=
    parseList_listArgument atoi atoi (fun v _ => piece_text v) (hlength ▸ hint) (hlength ▸ hfuel)
  rw [hnumbers, hlength] at h4
  rw [parseLists, parseList_listArgument atoi (getSchedId atoi) hpiece hint hfuel]
  simp only
  rw [h4]

/-! ### What is printed -/

theorem notMem_text_of_not_digit {c : Char} (hc : c ≠ '-') (hdigit : c.isDigit = false) :
    c ∉ text z := by
  intro h
  rcases mem_text h with h | h
  · exact hc h
  · rw [hdigit] at h
    cases h

theorem mem_getSchedName_iff : 'k' ∈ getSchedName policy ↔ policy ∉ namedPolicies := by
  by_cases h : policy ∈ namedPolicies
  · refine iff_of_false ?_ (not_not.mpr h)
    simp only [namedPolicies, List.mem_cons, List.not_mem_nil, or_false] at h
    rcases h with rfl | rfl | rfl | rfl | rfl | rfl <;> decide
  · refine iff_of_true ?_ h
    rw [getSchedName_of_notMem h]
    decide

/-- Nothing else that is printed has this letter. -/
theorem mem_setPriorityOutput (h : 'k' ∈ setPriorityOutput limits policy priority) :
    policy ∉ namedPolicies := by
  have hnumber : ∀ z : ℤ, 'k' ∉ text z := fun z =>
    notMem_text_of_not_digit (by decide) (by decide)
  unfold setPriorityOutput at h
  split_ifs at h
  · cases h
  · simp only [List.mem_append, hnumber, or_false] at h
    rcases h with (((h | h) | h) | h) | h
    · exact absurd h (by decide)
    · exact mem_getSchedName_iff.mp h
    · exact absurd h (by decide)
    · exact absurd h (by decide)
    · exact absurd h (by decide)
  · cases h

theorem mem_turnOutput_iff :
    'k' ∈ turnOutput limits i policy priority ↔ policy ∉ namedPolicies := by
  have hnumber : ∀ z : ℤ, 'k' ∉ text z := fun z =>
    notMem_text_of_not_digit (by decide) (by decide)
  constructor
  · intro h
    unfold turnOutput at h
    simp only [List.mem_append, hnumber, or_false] at h
    rcases h with ((((h | h) | h) | h) | h) | h
    · exact absurd h (by decide)
    · exact absurd h (by decide)
    · exact mem_getSchedName_iff.mp h
    · exact absurd h (by decide)
    · exact absurd h (by decide)
    · exact mem_setPriorityOutput h
  · intro h
    have hname := mem_getSchedName_iff.mpr h
    unfold turnOutput
    simp only [List.mem_append]
    exact Or.inl (Or.inl (Or.inl (Or.inl (Or.inr hname))))

/-- What is printed tells whether all policies have a name. -/
theorem mem_startOutput_iff (hlength : priorities.length = policies.length) :
    'k' ∈ startOutput build limits policies priorities ↔ ∃ p ∈ policies, p ∉ namedPolicies := by
  have hnumber : ∀ z : ℤ, 'k' ∉ text z := fun z =>
    notMem_text_of_not_digit (by decide) (by decide)
  have hown : ∀ policy priority, policy ∈ namedPolicies →
      'k' ∉ setPriorityOutput limits policy priority := fun _ _ hnamed h =>
    mem_setPriorityOutput h hnamed
  constructor
  · intro h
    unfold startOutput at h
    simp only [List.mem_append, hnumber, or_false, hown 1 99 (by decide),
      hown 0 0 (by decide)] at h
    rcases h with ((h | h) | h) | h
    · cases build
      · cases h
      · exact absurd h (by decide)
    · exact absurd h (by decide)
    · exact absurd h (by decide)
    · obtain ⟨e, he, h⟩ := List.mem_flatMap.mp h
      have hzip : e.1 ∈ policies.zip priorities := List.fst_mem_of_mem_zipIdx he
      exact ⟨e.1.1, (List.of_mem_zip (a := e.1.1) (b := e.1.2) hzip).1, mem_turnOutput_iff.mp h⟩
  · rintro ⟨p, hp, hnamed⟩
    have hfst : ((policies.zip priorities).zipIdx.map fun e => e.1.1) = policies := by
      have hsplit : ((policies.zip priorities).zipIdx.map fun e => e.1.1) =
          ((policies.zip priorities).zipIdx.map Prod.fst).map Prod.fst := by
        rw [List.map_map]
        rfl
      rw [hsplit, List.zipIdx_map_fst, List.map_fst_zip hlength.ge]
    rw [← hfst, List.mem_map] at hp
    obtain ⟨e, he, rfl⟩ := hp
    have hmem : 'k' ∈ (policies.zip priorities).zipIdx.flatMap
        (fun e => turnOutput limits e.2 e.1.1 e.1.2) :=
      List.mem_flatMap.mpr ⟨e, he, mem_turnOutput_iff.mpr hnamed⟩
    unfold startOutput
    simp only [List.mem_append]
    exact Or.inl (Or.inr hmem)

/-- The settings that `main` prints, given to it again, if the index of an assignment is
evaluated first. Numbers on the command line make any two arrays of `int`s the settings of
the threads. The policies by the names that are printed make the same settings, and `main`
prints the same, exactly if all policies have a name. -/
theorem settings_round_trip (atoi : Atoi32) (build : Build) (limits : Limits)
    (policies priorities : List ℤ) (hlength : priorities.length = policies.length)
    (hint : (policies.length : ℤ) ≤ CInt.maxVal 32) (hpolicies : ∀ z ∈ policies, IsInt z)
    (hpriorities : ∀ z ∈ priorities, IsInt z) :
    (∀ fuel, policies.length < fuel →
      parseLists atoi .indexFirst fuel policies.length (listArgument text policies)
        (listArgument text priorities) = some (.ok (policies, priorities))) ∧
    ∃ again, (∀ fuel, policies.length < fuel →
        parseLists atoi .indexFirst fuel policies.length (listArgument getSchedName policies)
          (listArgument text priorities) = some (.ok (again, priorities))) ∧
      (again = policies ↔ ∀ p ∈ policies, p ∈ namedPolicies) ∧
      (startOutput build limits again priorities = startOutput build limits policies priorities ↔
        ∀ p ∈ policies, p ∈ namedPolicies) := by
  have hnumbers : policies.map (fun v => getSchedId atoi (text v)) = policies := by
    rw [List.map_congr_left fun v hv => getSchedId_text atoi (hpolicies v hv), List.map_id']
  refine ⟨fun fuel hfuel => ?_, policies.map (fun v => getSchedId atoi (getSchedName v)),
    fun fuel hfuel => ?_, ?_, ?_⟩
  · have hread := parseLists_listArgument atoi hlength hint hpriorities
      (fun v _ => piece_text v) hfuel
    rwa [hnumbers] at hread
  · exact parseLists_listArgument atoi hlength hint hpriorities
      (fun v _ => piece_getSchedName v) hfuel
  · exact map_names_eq_iff atoi policies
  · constructor
    · intro hsame p hp
      by_contra hunnamed
      -- what is read from names has a name, so that the letter is printed the first time only
      have hfirst : 'k' ∈ startOutput build limits policies priorities :=
        (mem_startOutput_iff hlength).mpr ⟨p, hp, hunnamed⟩
      rw [← hsame, mem_startOutput_iff (by rw [List.length_map, hlength])] at hfirst
      obtain ⟨q, hq, hnone⟩ := hfirst
      obtain ⟨v, -, rfl⟩ := List.mem_map.mp hq
      exact hnone (mem_namedPolicies atoi v)
    · intro hnamed
      rw [(map_names_eq_iff atoi policies).mpr hnamed]

/-- Two threads, the second of which has a policy without a name. -/
theorem settings_round_trip_two_threads :
    ∃ again, parseLists (Atoi.saturating 32) .indexFirst 3 2
        (listArgument getSchedName [1, 4]) (listArgument text [10, 0]) =
          some (.ok (again, [10, 0])) ∧ again ≠ [1, 4] := by
  obtain ⟨-, again, hread, hsame, -⟩ := settings_round_trip (Atoi.saturating 32) .semaphore
    ⟨fun _ => 0, fun _ => 0⟩ [1, 4] [10, 0] rfl (by decide) (by decide +kernel)
    (by decide +kernel)
  exact ⟨again, hread 3 (by decide), fun h => absurd (hsame.mp h) (by decide)⟩

end Sisop.ThreadRunner
