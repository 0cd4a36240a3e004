import VRGram.App.ChatStart
import VRGram.Client.Engine
import VRGram.Daemon.Receive
import VRGram.Lib.Utf8

/-!
# The loop over a poll response

`pollMessagesProvider` adds the messages of a response one after the other. The exception handler
is around the loop, so that what throws for one message ends the loop for all that follow.
-/
namespace VRGram.App

open VRGram.Lib VRGram.Lib.Maps VRGram.Lib.Strings VRGram.Client

set_option autoImplicit false

/-! ## Strings and times of Dart -/

def unitsOf (r : Nat) : DartString :=
  if r < 0x10000 then [UInt16.ofNat r]
  else [UInt16.ofNat (0xD800 + (r - 0x10000) / 1024), UInt16.ofNat (0xDC00 + (r - 0x10000) % 1024)]

def byteOrderMark : Nat := 0xFEFF

/-- A byte order mark at the start is dropped. -/
def dropMark (bytes : Bytes) : Bytes :=
  if Json.encodeRune byteOrderMark <+: bytes then bytes.drop 3 else bytes

/-- `utf8.decode`, which throws on malformed input. -/
def utf8Decode (bytes : Bytes) : Option DartString :=
  (Utf8.decode (dropMark bytes)).map (fun runes => runes.flatMap unitsOf)

/-- A string field of a message is UTF-8. -/
def wireString (s : Bytes) : DartString := (utf8Decode s).getD []

/-- The largest distance from the epoch, in milliseconds, that a `DateTime` can have. -/
def maxMilliseconds : Int := 8640000000000000

/-- `DateTime.fromMillisecondsSinceEpoch`, which throws out of range. -/
def fromMilliseconds (ms : Int) : Option Int :=
  if -maxMilliseconds ≤ ms ∧ ms ≤ maxMilliseconds then some (ms * 1000) else none

/-- A `uint64` field is a signed number in Dart. -/
def signed (n : UInt64) : Int := n.toInt64.toInt

private theorem wellFormed_dropMark (bytes : Bytes) :
    Utf8.WellFormed (dropMark bytes) ↔ Utf8.WellFormed bytes := by
  unfold dropMark
  split
  next hmark =>
    obtain ⟨t, rfl⟩ := hmark
    have hlen : (Json.encodeRune byteOrderMark).length = 3 := by decide
    have hdrop : (Json.encodeRune byteOrderMark ++ t).drop 3 = t := List.drop_left' hlen
    have hscalar : Utf8.Scalar byteOrderMark := by
      unfold Utf8.Scalar
      decide
    rw [hdrop, Utf8.wellFormed_encodeRune_append hscalar]
  next => exact Iff.rfl

private theorem utf8Decode_isSome_iff (bytes : Bytes) :
    (utf8Decode bytes).isSome = true ↔ Utf8.WellFormed bytes := by
  rw [utf8Decode, Option.isSome_map, Option.isSome_iff_exists, ← Utf8.wellFormed_iff,
    wellFormed_dropMark]

/-! ## The loop -/

/-- The time that the relay has given the message, if any. -/
def stampOf (msg : ReceivedMessage) : Option (Option Int) :=
  if signed msg.serverTimestampMs > 0 then
    (fromMilliseconds (signed msg.serverTimestampMs)).map some
  else some none

/-- The message for the list, made at the time `now`; `none` is an exception. -/
def chatMessageOf (now : Int) (msg : ReceivedMessage) : Option ChatMessage := do
  let stamp ← stampOf msg
  let text ← utf8Decode msg.plaintext
  return {
    id := wireString msg.messageId
    text := text
    timestamp := stamp.getD now
    isSent := false
    status := .received
    fromPeer := some (wireString msg.fromPeer)
    toPeer := none
    mimeType := none
    filename := none
    estimatedSeconds := none
    mediaMessageId := none
    localFilePath := none
    sequenceNumber :=
      if signed msg.sequenceNumber > 0 then some (signed msg.sequenceNumber) else none
    serverTimestamp := stamp }

/-- The loop over the messages, each with the time at which it is handled. -/
def processResponse (sort : List ChatMessage → List ChatMessage) (state : List ChatMessage) :
    List (Int × ReceivedMessage) → List ChatMessage
  | [] => state
  | (now, msg) :: rest =>
    match chatMessageOf now msg with
    | none => state
    | some m => processResponse sort (addMessage sort state m) rest

/-- The text is well-formed and the time is in range. -/
def Acceptable (m : Int × ReceivedMessage) : Prop :=
  Utf8.WellFormed m.2.plaintext ∧ signed m.2.serverTimestampMs ≤ maxMilliseconds

instance (m : Int × ReceivedMessage) : Decidable (Acceptable m) :=
  inferInstanceAs (Decidable (_ ∧ _))

def idOf (m : Int × ReceivedMessage) : DartString := wireString m.2.messageId

private theorem chatMessageOf_id {now : Int} {msg : ReceivedMessage} {m : ChatMessage}
    (h : chatMessageOf now msg = some m) : m.id = wireString msg.messageId := by
  unfold chatMessageOf at h
  obtain ⟨stamp, -, h⟩ := Option.bind_eq_some_iff.mp h
  obtain ⟨text, -, h⟩ := Option.bind_eq_some_iff.mp h
  obtain rfl := Option.some.inj h
  rfl

private theorem stampOf_isSome_iff (msg : ReceivedMessage) :
    (stampOf msg).isSome = true ↔ signed msg.serverTimestampMs ≤ maxMilliseconds := by
  unfold stampOf fromMilliseconds maxMilliseconds
  split
  next hpos =>
    rw [Option.isSome_map]
    split
    next hrange => exact iff_of_true rfl hrange.2
    next hrange => exact iff_of_false Bool.false_ne_true (by omega)
  next hpos => exact iff_of_true rfl (by omega)

/-- The loop throws for the messages that are not acceptable, and for no others. -/
theorem chatMessageOf_isSome_iff (m : Int × ReceivedMessage) :
    (chatMessageOf m.1 m.2).isSome = true ↔ Acceptable m := by
  rw [Acceptable, ← utf8Decode_isSome_iff, ← stampOf_isSome_iff]
  unfold chatMessageOf
  cases stampOf m.2 with
  | none => exact iff_of_false Bool.false_ne_true (fun h => Bool.false_ne_true h.2)
  | some stamp =>
    cases utf8Decode m.2.plaintext with
    | none => exact iff_of_false Bool.false_ne_true (fun h => Bool.false_ne_true h.1)
    | some text => exact iff_of_true rfl ⟨rfl, rfl⟩

/-- The list gets the messages before the first one for which the loop throws. -/
theorem mem_ids_processResponse {sort : List ChatMessage → List ChatMessage}
    (hsort : ∀ l, (sort l).Perm l) (state : List ChatMessage)
    (response : List (Int × ReceivedMessage)) (x : DartString) :
    x ∈ ids (processResponse sort state response) ↔
      x ∈ ids state ∨ x ∈ (response.takeWhile Acceptable).map idOf := by
  induction response generalizing state with
  | nil => simp [processResponse]
  | cons head rest ih =>
    obtain ⟨now, msg⟩ := head
    rw [processResponse]
    have hthrows := chatMessageOf_isSome_iff (now, msg)
    cases h : chatMessageOf now msg with
    | none =>
      have hnot : ¬ Acceptable (now, msg) := by
        rw [← hthrows, h]
        exact Bool.false_ne_true
      rw [List.takeWhile_cons_of_neg (by simpa using hnot)]
      simp
    | some m =>
      have hok : Acceptable (now, msg) := by
        rw [← hthrows, h]
        rfl
      rw [List.takeWhile_cons_of_pos (by simpa using hok), ih, mem_ids_addMessage hsort,
        chatMessageOf_id h, List.map_cons, List.mem_cons, or_assoc]
      rfl

/-- Every well-formed message of a response is in the list afterwards exactly if none of them
follows a message for which the loop throws, unless its id is known from before. -/
theorem pollLoop_keeps_iff (sort : List ChatMessage → List ChatMessage)
    (hsort : ∀ l, (sort l).Perm l) (state : List ChatMessage)
    (response : List (Int × ReceivedMessage)) :
    (∀ m ∈ response, Utf8.WellFormed m.2.plaintext →
      idOf m ∈ ids (processResponse sort state response)) ↔
    ∀ m ∈ response.dropWhile Acceptable, Utf8.WellFormed m.2.plaintext →
      idOf m ∈ ids state ∨ idOf m ∈ (response.takeWhile Acceptable).map idOf := by
  have hafter := mem_ids_processResponse hsort state response
  constructor
  · intro h m hm hwell
    exact (hafter _).mp (h m ((List.dropWhile_sublist _).subset hm) hwell)
  · intro h m hm hwell
    rw [← List.takeWhile_append_dropWhile (p := fun m => decide (Acceptable m)) (l := response)]
      at hm
    rcases List.mem_append.mp hm with hfirst | hlater
    · exact (hafter _).mpr (Or.inr (List.mem_map_of_mem hfirst))
    · exact (hafter _).mpr (h m hlater hwell)

/-! ### A malformed message in front -/

def textOf (plaintext : Bytes) (id : Encoding.MsgID) : ReceivedMessage :=
  ⟨hexEncode id.val, plaintext, [], [], 5, 1⟩

def sixID : Encoding.MsgID := ⟨List.replicate 8 6, by decide⟩

def goodFirst : List (Int × ReceivedMessage) :=
  [(0, textOf (lit "hello") sixID), (0, textOf [0xFF] zeroID)]

theorem pollLoop_keeps_iff_goodFirst :
    ¬ Utf8.WellFormed (textOf [0xFF] zeroID).plaintext ∧
      idOf (0, textOf (lit "hello") sixID) ∈ ids (processResponse byOrder [] goodFirst) := by
  have hbad : ¬ Utf8.WellFormed (textOf [0xFF] zeroID).plaintext := by decide +kernel
  have hlater : goodFirst.dropWhile Acceptable = [(0, textOf [0xFF] zeroID)] := by decide +kernel
  have hkeeps := (pollLoop_keeps_iff byOrder (List.perm_insertionSort _) [] goodFirst).mpr (by
    intro m hm hwell
    rw [hlater, List.mem_singleton] at hm
    subst hm
    exact absurd hwell hbad)
  exact ⟨hbad, hkeeps _ List.mem_cons_self (by decide +kernel)⟩

/-- The daemon delivers a text that is not UTF-8. The good message behind it is not added, and the
engine, which has marked it as fetched, does not hand it out again. -/
theorem badFirst_loses :
    contentOutcome [] [] [0xFF] [] = .delivered [0xFF] [] ∧
    Utf8.WellFormed (lit "hello") ∧
    processResponse byOrder [] [(0, textOf [0xFF] zeroID), (0, textOf (lit "hello") sixID)] = [] ∧
    ∀ (net : Network Unit) (zone : Bytes) (mode : TransportMode) (relays : List Bytes)
      (fetched : GoMap Encoding.MsgID Bool), fetched.lookup sixID = some true →
      fetchEach net zone mode relays [⟨sixID, [], 5, 1⟩] fetched () = (some ([], fetched), ()) := by
  refine ⟨by decide +kernel, by decide +kernel, by decide +kernel, ?_⟩
  intro net zone mode relays fetched hfetched
  rw [fetchEach, hfetched, Option.getD_some, if_pos rfl, fetchEach]

end VRGram.App
