import VRGram.Client.Listing

/-!
# The two POLL parsers

The relay adds stamps to a record behind a colon. The old parser takes a whole string for the
base32 text of an id, and no colon is a base32 digit, so it skips every record with stamps where
the new parser reads the id in front of them.
-/
namespace VRGram.Client

open VRGram.Lib.Maps VRGram.Lib.Strings VRGram.Lib.Dns VRGram.Lib.Machine
open VRGram.Encoding VRGram.Store VRGram.Relay

set_option autoImplicit false

/-- The test of the relay for a record in the extended format. -/
def extended (s : ChunkStore) (id : MsgID) : Bool :=
  match s.getMessageMeta id with
  | some (ts, _) => decide (ts > 0)
  | none => false

private theorem word64Of_colon {record : Bytes} (h : (58 : UInt8) ∈ record) :
    word64Of record = none := by
  have hnone : unb32 record = none := Lib.Base32Hex.decode_eq_none h (by decide) (by decide)
  rw [word64Of, hnone]

/-- The old parser on one record of the relay. -/
theorem word64Of_pollRecord (s : ChunkStore) (id : MsgID) :
    word64Of (pollRecord s id) = if extended s id then none else some id := by
  unfold pollRecord extended
  cases hmeta : s.getMessageMeta id with
  | none => simpa using word64Of_b32 id
  | some stamp =>
    obtain ⟨ts, seq⟩ := stamp
    by_cases hts : ts > 0
    · have hcolon : (58 : UInt8) ∈
          join 58 [b32 id.val, b32 (putUint64 (UInt64.ofInt ts)).val, b32 (putUint64 seq).val] := by
        simp [join, List.intercalate]
      simp only [hts, word64Of_colon hcolon, decide_true, ite_true]
    · simpa [hts] using word64Of_b32 id

/-- The old parser keeps the ids without stamps, in the order of the answer. -/
theorem parsePollResponse_plain (s : ChunkStore) (ids : List MsgID) :
    parsePollResponse (.txt (ids.map (pollRecord s))) = ids.filter (fun id => !extended s id) := by
  have hone : (word64Of ∘ pollRecord s) = fun id => if extended s id then none else some id := by
    funext id
    exact word64Of_pollRecord s id
  simp only [parsePollResponse, Msg.txt, List.flatMap_cons, List.flatMap_nil, List.append_nil,
    txtStrings, List.filterMap_map, hone]
  induction ids with
  | nil => rfl
  | cons id ids ih =>
    cases hext : extended s id with
    | true => simpa [hext] using ih
    | false => simpa [hext] using ih

/-- In a store whose stamps are positive the record of every stored message is extended. -/
theorem extended_stamped {s : ChunkStore} (h : Stamped s) (id : MsgID) :
    extended s id = false ↔ id ∉ s.messages := by
  unfold extended
  cases hm : s.messages.lookup id with
  | none =>
    have hmeta : s.getMessageMeta id = none := by rw [ChunkStore.getMessageMeta, hm]; rfl
    simpa [hmeta] using AList.lookup_eq_none.mp hm
  | some buf =>
    have hmeta : s.getMessageMeta id = some (buf.serverTimestamp, buf.sequenceNumber) := by
      rw [ChunkStore.getMessageMeta, hm]; rfl
    have hmem : id ∈ s.messages := mem_iff_lookup.mpr ⟨buf, hm⟩
    simp [hmeta, (h id buf hm).1, hmem]

/-- The parsers read the same ids. -/
def ParsersAgree (answer : Msg) : Prop :=
  parsePollResponse answer = (parsePollResponseWithMeta answer).map PolledMessage.msgID

theorem parsersAgree_mailbox (s : ChunkStore) (hint : List MsgID) (peerHash : Bytes)
    (more : List Bytes) :
    ParsersAgree (answerPoll s hint (peerHash :: more)) ↔
      ∀ id, s.messageOwner.lookup id = some peerHash → extended s id = false := by
  rw [ParsersAgree, answerPoll, parsePollResponse_plain, parsePollResponse_records,
    map_pollEntry_msgID, List.filter_eq_self]
  constructor
  · intro h id howner
    simpa using h id (mem_listPeerMessages.mpr howner)
  · intro h id hid
    simpa using h id (mem_listPeerMessages.mp hid)

/-- For every store and every POLL, the old parser reads the ids whose records carry no stamps and
the new one reads all; they agree exactly when no message of the mailbox has a positive stamp. In
a store that arises with the clock after 1970, they agree exactly when none of them is stored. -/
theorem pollParsers_agree_iff (s : ChunkStore) (hint : List MsgID) (peerHash : Bytes)
    (more : List Bytes) :
    parsePollResponse (answerPoll s hint (peerHash :: more)) =
      ((parsePollResponseWithMeta (answerPoll s hint (peerHash :: more))).map
        PolledMessage.msgID).filter (fun id => !extended s id) ∧
    (ParsersAgree (answerPoll s hint (peerHash :: more)) ↔
      ∀ id, s.messageOwner.lookup id = some peerHash → extended s id = false) ∧
    (Arises s → (ParsersAgree (answerPoll s hint (peerHash :: more)) ↔
      ∀ id, s.messageOwner.lookup id = some peerHash → id ∉ s.messages)) ∧
    ParsersAgree (answerPoll s hint []) := by
  refine ⟨?_, parsersAgree_mailbox s hint peerHash more, ?_, rfl⟩
  · rw [answerPoll, parsePollResponse_plain, parsePollResponse_records, map_pollEntry_msgID]
  · intro hs
    rw [parsersAgree_mailbox]
    exact forall_congr' (fun id => imp_congr_right (fun _ => extended_stamped hs.stamped id))

/-- In a store with one stored message a POLL of its mailbox makes the parsers differ. -/
theorem pollParsers_agree_iff_stocked :
    ¬ ParsersAgree (answerPoll (stockedAt 3000000) [] [b32 (List.replicate 32 7)]) := by
  have harises : Arises (stockedAt 3000000) := stockedAt_arises (by decide)
  have hiff := (pollParsers_agree_iff (stockedAt 3000000) [] (b32 (List.replicate 32 7)) []).2.2.1
    harises
  rw [hiff]
  intro hnone
  exact hnone firstID (by decide +kernel) (by decide +kernel)

/-- A relay that has taken one message of one chunk: the new parser lists it and the old one
lists nothing. -/
theorem oldParser_lists_nothing :
    let answer := answerPoll (stockedAt 3000000) [] [b32 (List.replicate 32 7)]
    Arises (stockedAt 3000000) ∧
    (parsePollResponseWithMeta answer).map PolledMessage.msgID = [firstID] ∧
    parsePollResponse answer = [] := by
  refine ⟨stockedAt_arises (by decide), ?_, ?_⟩
  · decide +kernel
  · decide +kernel

end VRGram.Client
