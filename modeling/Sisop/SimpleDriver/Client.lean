import Sisop.SimpleDriver.Basic

/-!
# A client of the driver

The client reads a line, writes it to the device and prints what it reads back. The line
goes to a buffer without a check of its length; an empty line leaves the buffer as it is.
The driver copies its text to the client without a terminator, so what is printed goes on
with whatever was in the client's buffer behind it.

## Main definitions

* `scanLine` — the line that is read
* `client` — the `main` of the client, with the driver it talks to

## Main results

* `client_eq_printed_iff` — what the client prints, in any state of the driver
* `client_round_trip_iff` — when that is the answer to what it has sent
-/

namespace Sisop.SimpleDriver

open Foundations CString

/-- `BUFFER_LENGTH`. -/
def bufferLength : ℕ := 256

/-- `scanf("%[^\n]%*c", stringToSend)`: what is in the buffer afterwards, unless the line runs
over its end. -/
def scanLine (stringToSend : List.Vector Char bufferLength) (input : List Char) :
    Option (List.Vector Char bufferLength) :=
  let line := input.takeWhile (· ≠ '\n')
  -- the conversion does not match an empty line
  if line = [] then some stringToSend else store nul stringToSend line

/-- The string in a buffer, unless a search for its terminator runs over the end. -/
def stringIn (buf : List Char) : Option (List Char) :=
  if nul ∈ buf then some (cString nul buf) else none

/-- How the client ends: with an error, or with what it has printed about what it has sent and
what it has received. -/
inductive Outcome
  | failed (errno : ℤ)
  | printed (sent received : List Char)

/-- The client after the line has been read: it writes the string `sent` from its buffer to a
driver in state `s` and reads into `receive`. `errorCount` is the result of `copy_to_user`. -/
def exchange (s : State) (buffer sent : List Char) (receive : List.Vector Char bufferLength)
    (errorCount : ℕ) : Option (Outcome × State) :=
  (devWrite s buffer sent.length).bind fun (ret, s) =>
    if ret < 0 then some (.failed (-ret), s)
    else
      let r := devRead s errorCount
      if r.ret < 0 then some (.failed (-r.ret), r.state)
      else
        -- the length of `receive` does not limit what is copied
        let copied := r.delivered.getD []
        (stringIn (copied ++ receive.toList.drop copied.length)).map fun received =>
          (.printed sent received, r.state)

/-- `main` of the client, if no access runs over the end of a buffer. The buffers start with
what their memory holds, and `openErrno` is the error of `open`, if any. -/
def client (s : State) (openErrno : Option ℤ) (input : List Char)
    (stringToSend receive : List.Vector Char bufferLength) (errorCount : ℕ) :
    Option (Outcome × State) :=
  match openErrno with
  | some errno => some (.failed errno, s)
  | none =>
    (scanLine stringToSend input).bind fun stringToSend =>
    (stringIn stringToSend.toList).bind fun sent =>
    exchange s stringToSend.toList sent receive errorCount

/-- What the client sends for a line of input: the line, if it is not empty and fits, and
otherwise the string that the buffer holds already. -/
def Typed (stringToSend : List.Vector Char bufferLength) (input : List Char)
    (sent : List Char) : Prop :=
  let line := input.takeWhile (· ≠ '\n')
  if line = [] then nul ∈ stringToSend.toList ∧ sent = cString nul stringToSend.toList
  else line.length < bufferLength ∧ sent = cString nul line

variable {s s' : State} {input sent received text : List Char}
  {stringToSend stringToSend' receive : List.Vector Char bufferLength}

theorem stringIn_eq_some_iff {buf : List Char} :
    stringIn buf = some sent ↔ nul ∈ buf ∧ sent = cString nul buf := by
  rw [stringIn]
  split_ifs with h
  · rw [Option.some.injEq, eq_comm]
    simp [h]
  · simp [h]

/-- Reading stops at the first terminator, whether or not it is the last one. -/
theorem cString_append_cons_nul (mem rest : List Char) :
    cString nul (mem ++ nul :: rest) = cString nul mem := by
  induction mem with
  | nil => simp [cString]
  | cons c mem ih =>
    rw [cString, cString] at ih
    rw [cString, cString, List.cons_append, List.takeWhile_cons, List.takeWhile_cons, ih]

/-- What is sent is the string that is in the buffer after the line has been read. -/
theorem typed_iff : Typed stringToSend input sent ↔ ∃ buf,
    scanLine stringToSend input = some buf ∧ stringIn buf.toList = some sent := by
  rw [Typed, scanLine]
  simp only [stringIn_eq_some_iff]
  split_ifs with hline
  · simp
  · constructor
    · rintro ⟨hfits, rfl⟩
      obtain ⟨buf, hstore⟩ := exists_store nul stringToSend hfits
      rw [hstore]
      refine ⟨buf, rfl, ?_⟩
      rw [(toList_of_store hstore).2, cString_append_cons_nul]
      exact ⟨by simp, rfl⟩
    · rintro ⟨buf, hstore, -, rfl⟩
      obtain ⟨hfits, htoList⟩ := toList_of_store hstore
      rw [htoList, cString_append_cons_nul]
      exact ⟨hfits, rfl⟩

/-- A string that is found in a buffer leaves room for its terminator. -/
theorem length_lt_of_stringIn (h : stringIn stringToSend.toList = some sent) :
    sent.length < bufferLength := by
  obtain ⟨hnul, rfl⟩ := stringIn_eq_some_iff.mp h
  have hle := (List.takeWhile_prefix (· ≠ nul) (l := stringToSend.toList)).length_le
  rw [List.Vector.toList_length] at hle
  refine lt_of_le_of_ne hle fun heq => ?_
  -- otherwise there would be no terminator
  have hall := (List.takeWhile_prefix (· ≠ nul) (l := stringToSend.toList)).eq_of_length
    (heq.trans (List.Vector.toList_length _).symm)
  rw [← hall] at hnul
  exact notMem_cString nul _ hnul

/-- A text in front of a string belongs to it. -/
theorem stringIn_append (h : nul ∉ text) (rest : List Char) :
    stringIn (text ++ rest) = (stringIn rest).map (text ++ ·) := by
  rw [stringIn, stringIn]
  split_ifs with hrest hnul hnul
  · rw [cString, List.takeWhile_append_of_pos]
    · rfl
    · intro c hc
      rw [decide_eq_true_eq]
      exact ne_of_mem_of_not_mem hc h
  · exact absurd (List.mem_append.mp hrest) (by simp [h, hnul])
  · exact absurd (List.mem_append_right _ hnul) hrest
  · rfl

/-- What the client sends is a text of a user. -/
theorem exists_text (h : stringIn stringToSend.toList = some sent) :
    ∃ text : UserText, text.chars = sent ∧
      cString nul stringToSend.toList = cString nul (text.chars ++ [nul]) := by
  obtain ⟨-, rfl⟩ := stringIn_eq_some_iff.mp h
  refine ⟨⟨_, notMem_cString nul _⟩, rfl, ?_⟩
  rw [cString_append_nul (notMem_cString nul _)]

/-- The exchange, in any state of the driver: it has a result if the text leaves room for its
suffix, and then what is read is the answer to what was sent. -/
theorem exchange_eq (s : State) (receive : List.Vector Char bufferLength)
    (h : stringIn stringToSend.toList = some sent) :
    (242 < sent.length ∧ exchange s stringToSend.toList sent receive 0 = none) ∨
      sent.length ≤ 242 ∧ ∃ s', exchange s stringToSend.toList sent receive 0 =
        (stringIn (receive.toList.drop (acceptedText sent sent.length).length)).map
          fun tail => (.printed sent (acceptedText sent sent.length ++ tail), s') := by
  have hshort : sent.length < messageSize := length_lt_of_stringIn h
  obtain ⟨text, rfl, hstring⟩ := exists_text h
  have hanswer : acceptedText text.chars text.chars.length = text.accepted := by
    rw [UserText.accepted, acceptedText, acceptedText, cString_append_nul text.nul_notMem,
      cString_eq_self text.nul_notMem]
  -- the driver looks at the string in the buffer only
  have hwrite : devWrite s stringToSend.toList text.chars.length =
      devWrite s (text.chars ++ [nul]) text.chars.length := by
    rw [devWrite, devWrite, acceptedText, acceptedText, hstring]
  rw [hanswer, exchange, hwrite]
  by_cases hfits : text.accepted.length < messageSize
  · refine Or.inr ⟨(text.length_accepted_lt_iff hshort).mp hfits, ?_⟩
    obtain ⟨message, hstore, hresult⟩ := devWrite_accepted (s := s) hshort hfits
    have hread : devRead ⟨message, text.accepted.length⟩ 0 =
        ⟨0, some text.accepted, ⟨message, 0⟩⟩ := by
      rw [devRead, if_pos rfl, (take_store_eq_iff hstore).mpr rfl]
    refine ⟨⟨message, 0⟩, ?_⟩
    simp only [hresult, Option.bind_some, hread, Int.not_lt.mpr (Int.natCast_nonneg _), if_false,
      lt_irrefl, Option.getD_some, stringIn_append text.nul_notMem_accepted, Option.map_map]
    rfl
  · refine Or.inl ⟨not_le.mp (mt (text.length_accepted_lt_iff hshort).mpr hfits), ?_⟩
    rw [devWrite_overrun hshort (not_lt.mp hfits)]
    rfl

/-- What the client prints, in any state of the driver: the answer to what it has sent, and
behind it what its own buffer holds up to the first terminator. -/
theorem client_eq_printed_iff (s : State) (input : List Char)
    (stringToSend receive : List.Vector Char bufferLength) (sent received : List Char) :
    (∃ s', client s none input stringToSend receive 0 = some (.printed sent received, s')) ↔
      Typed stringToSend input sent ∧ sent.length ≤ 242 ∧
        ∃ tail, stringIn (receive.toList.drop (acceptedText sent sent.length).length) = some tail ∧
          received = acceptedText sent sent.length ++ tail := by
  rw [typed_iff]
  simp only [client, Option.bind_eq_some_iff]
  constructor
  · rintro ⟨s', buf, hscan, sent', hsent, hexchange⟩
    obtain ⟨-, hnone⟩ | ⟨hle, s'', hsome⟩ := exchange_eq s receive hsent
    · rw [hnone] at hexchange
      cases hexchange
    · rw [hsome, Option.map_eq_some_iff] at hexchange
      obtain ⟨tail, htail, heq⟩ := hexchange
      obtain ⟨houtcome, -⟩ := Prod.mk.inj heq
      obtain ⟨rfl, rfl⟩ := Outcome.printed.inj houtcome
      exact ⟨⟨buf, hscan, hsent⟩, hle, tail, htail, rfl⟩
  · rintro ⟨⟨buf, hscan, hsent⟩, hle, tail, htail, rfl⟩
    obtain ⟨hlong, -⟩ | ⟨-, s'', hsome⟩ := exchange_eq s receive hsent
    · omega
    · exact ⟨s'', buf, hscan, sent, hsent, by rw [hsome, htail]; rfl⟩

/-- The client prints exactly the answer to what it has sent, whatever the driver has been
used for before, if and only if the line fits into its buffer, the text has at most 242
characters, and the byte of `receive` behind the answer happens to be a terminator. -/
theorem client_round_trip_iff (s : State) (input : List Char)
    (stringToSend receive : List.Vector Char bufferLength) :
    (∃ sent s', client s none input stringToSend receive 0 =
        some (.printed sent (acceptedText sent sent.length), s')) ↔
      ∃ sent, Typed stringToSend input sent ∧ sent.length ≤ 242 ∧
        receive.toList[(acceptedText sent sent.length).length]? = some nul := by
  have hempty : ∀ l : List Char, stringIn l = some [] ↔ l[0]? = some nul := by
    intro l
    cases l with
    | nil => simp [stringIn]
    | cons c l =>
      rw [stringIn_eq_some_iff, cString, List.takeWhile_cons]
      by_cases hc : c = nul
      · simp [hc]
      · simp [hc]
  simp only [client_eq_printed_iff]
  refine exists_congr fun sent => and_congr_right fun _ => and_congr_right fun _ => ?_
  have hdrop := hempty (receive.toList.drop (acceptedText sent sent.length).length)
  rw [List.getElem?_drop, Nat.add_zero] at hdrop
  rw [← hdrop]
  constructor
  · rintro ⟨tail, htail, heq⟩
    rwa [List.self_eq_append_right.mp heq] at htail
  · exact fun h => ⟨[], h, (List.append_nil _).symm⟩

end Sisop.SimpleDriver
