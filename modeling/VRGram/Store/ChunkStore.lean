import VRGram.Encoding.Chunk
import VRGram.Store.Sequence

/-!
# The relay's chunk store

`store.ChunkStore`: the message buffers under `mu`, the mailbox index under
`peerMu`, and the operations on them. Times are nanoseconds since 1970. Loops over
maps take their order from a hint, and a `Next` call takes from its caller whether
the transaction commits.
-/
namespace VRGram.Store

open VRGram.Lib.Maps VRGram.Lib.Strings VRGram.Encoding

set_option autoImplicit false

structure MessageBuf where
  chunks : GoMap UInt16 Chunk
  total : UInt16
  createdAt : Int
  serverTimestamp : Int
  sequenceNumber : UInt64

structure ChunkStore where
  messages : GoMap MsgID MessageBuf
  ttl : Int
  peerMessages : GoMap Bytes Int
  messageOwner : GoMap MsgID Bytes
  maxPerPeer : Int
  sequenceCounter : Option SequenceCounter

def newChunkStore (ttl : Int) : ChunkStore where
  messages := ∅
  ttl := ttl
  peerMessages := ∅
  messageOwner := ∅
  maxPerPeer := 100
  sequenceCounter := none

def ChunkStore.setMaxPerPeer (s : ChunkStore) (limit : Int) : ChunkStore :=
  { s with maxPerPeer := limit }

def ChunkStore.setSequenceCounter (s : ChunkStore) (sc : SequenceCounter) : ChunkStore :=
  { s with sequenceCounter := some sc }

/-- `peerMessages[peerID]`, zero when absent. -/
def ChunkStore.peerMessageCount (s : ChunkStore) (peerID : Bytes) : Int :=
  (s.peerMessages.lookup peerID).getD 0

def ChunkStore.totalPeers (s : ChunkStore) : Nat := s.peerMessages.keys.length

/-- The first owner of a message stays its owner. -/
def ChunkStore.setMessageOwner (s : ChunkStore) (msgID : MsgID) (peerID : Bytes) : ChunkStore :=
  match s.messageOwner.lookup msgID with
  | some _ => s
  | none => { s with
      messageOwner := s.messageOwner.insert msgID peerID
      peerMessages := s.peerMessages.insert peerID (s.peerMessageCount peerID + 1) }

def ChunkStore.listPeerMessages (s : ChunkStore) (hint : List MsgID) (peerID : Bytes) : List MsgID :=
  (rangeOrder hint s.messageOwner).filter (fun id => s.messageOwner.lookup id = some peerID)

/-- `now.UnixMilli()`. -/
def unixMilli (now : Int) : Int := now / 1000000

/-- The sequence stamp of a new buffer, and the counter afterwards. A failed `Next`
leaves the number at zero. -/
def stampSequence (counter : Option SequenceCounter) (chunk : Chunk) (commit : Bool) :
    UInt64 × Option SequenceCounter :=
  match counter with
  | none => (0, none)
  | some sc =>
    if chunk.recipientHash.length > 0 then
      let result := sc.next (peerIDFromPubkey chunk.recipientHash) commit
      (result.1.getD 0, some result.2)
    else (0, some sc)

/-- The buffer of `chunk`'s message, created when there is none. -/
def ChunkStore.bufferFor (s : ChunkStore) (chunk : Chunk) (now : Int) (commit : Bool) :
    MessageBuf × Option SequenceCounter :=
  match s.messages.lookup chunk.msgID with
  | some buf => (buf, s.sequenceCounter)
  | none =>
    let stamp := stampSequence s.sequenceCounter chunk commit
    ({ chunks := ∅
       total := chunk.totalChunks
       createdAt := now
       serverTimestamp := unixMilli now
       sequenceNumber := stamp.1 }, stamp.2)

/-- `Store`: whether the buffer now counts as complete, and the store afterwards. -/
def ChunkStore.store (s : ChunkStore) (chunk : Chunk) (now : Int) (commit : Bool) :
    Bool × ChunkStore :=
  let found := s.bufferFor chunk now commit
  let buf : MessageBuf := { found.1 with chunks := found.1.chunks.insert chunk.chunkIdx chunk }
  (decide (buf.chunks.keys.length = buf.total.toNat),
    { s with messages := s.messages.insert chunk.msgID buf, sequenceCounter := found.2 })

/-- `GetMessageMeta`. -/
def ChunkStore.getMessageMeta (s : ChunkStore) (msgID : MsgID) : Option (Int × UInt64) :=
  (s.messages.lookup msgID).map (fun buf => (buf.serverTimestamp, buf.sequenceNumber))

/-- `GetChunk`; `none` is the nil chunk. -/
def ChunkStore.getChunk (s : ChunkStore) (msgID : MsgID) (chunkIdx : UInt16) : Option Chunk :=
  (s.messages.lookup msgID).bind (fun buf => buf.chunks.lookup chunkIdx)

/-- `GetCompleteMessage`; the outer `none` is the nil result for an unknown message. -/
def ChunkStore.getCompleteMessage (s : ChunkStore) (hint : List UInt16) (msgID : MsgID) :
    Option (Except ReassembleError Bytes) :=
  (s.messages.lookup msgID).map (fun buf =>
    reassembleMessage ((rangeOrder hint buf.chunks).filterMap (fun i => buf.chunks.lookup i)))

/-- `now.Sub(buf.createdAt) > s.ttl`. -/
def ChunkStore.Expired (s : ChunkStore) (now : Int) (buf : MessageBuf) : Prop :=
  now - buf.createdAt > s.ttl

instance (s : ChunkStore) (now : Int) (buf : MessageBuf) : Decidable (s.Expired now buf) :=
  inferInstanceAs (Decidable (_ > _))

/-- `delete(s.messages, id)`. -/
def ChunkStore.dropMessage (s : ChunkStore) (id : MsgID) : ChunkStore :=
  { s with messages := s.messages.erase id }

/-- The section of `gc` under `peerMu`: forget the owner and decrement the count. -/
def ChunkStore.dropOwner (s : ChunkStore) (id : MsgID) : ChunkStore :=
  match s.messageOwner.lookup id with
  | none => s
  | some peerID =>
    let count := s.peerMessageCount peerID - 1
    { s with
      peerMessages :=
        if count ≤ 0 then s.peerMessages.erase peerID else s.peerMessages.insert peerID count
      messageOwner := s.messageOwner.erase id }

/-- One round of the loop of `gc`. -/
def ChunkStore.gcVisit (now : Int) (s : ChunkStore) (id : MsgID) : ChunkStore :=
  match s.messages.lookup id with
  | none => s
  | some buf => if s.Expired now buf then (s.dropMessage id).dropOwner id else s

def ChunkStore.gc (s : ChunkStore) (hint : List MsgID) (now : Int) : ChunkStore :=
  (rangeOrder hint s.messages).foldl (ChunkStore.gcVisit now) s

/-! ## What each operation leaves alone -/

section Frame

variable (s : ChunkStore)

theorem setMessageOwner_messages (id : MsgID) (peerID : Bytes) :
    (s.setMessageOwner id peerID).messages = s.messages := by
  unfold ChunkStore.setMessageOwner
  split <;> rfl

theorem setMessageOwner_counter (id : MsgID) (peerID : Bytes) :
    (s.setMessageOwner id peerID).sequenceCounter = s.sequenceCounter := by
  unfold ChunkStore.setMessageOwner
  split <;> rfl

theorem setMessageOwner_owner (id j : MsgID) (peerID : Bytes) :
    (s.setMessageOwner id peerID).messageOwner.lookup j =
      if j = id ∧ s.messageOwner.lookup id = none then some peerID else s.messageOwner.lookup j := by
  unfold ChunkStore.setMessageOwner
  cases ho : s.messageOwner.lookup id with
  | some p => simp
  | none =>
    simp only [lookup_insert_ite, and_true]

theorem store_owner (chunk : Chunk) (now : Int) (commit : Bool) :
    (s.store chunk now commit).2.messageOwner = s.messageOwner := rfl

theorem store_lookup_ne {chunk : Chunk} {id : MsgID} (h : id ≠ chunk.msgID) (now : Int)
    (commit : Bool) :
    (s.store chunk now commit).2.messages.lookup id = s.messages.lookup id := by
  simp only [ChunkStore.store, lookup_insert_ite, if_neg h]

theorem mem_store_messages (chunk : Chunk) (now : Int) (commit : Bool) (id : MsgID) :
    id ∈ (s.store chunk now commit).2.messages ↔ id = chunk.msgID ∨ id ∈ s.messages := by
  simp only [ChunkStore.store, AList.mem_insert]

/-- Storing writes one slot of the chunk maps and leaves every other slot alone. -/
theorem store_getChunk (chunk : Chunk) (now : Int) (commit : Bool) (id : MsgID) (i : UInt16) :
    (s.store chunk now commit).2.getChunk id i =
      if id = chunk.msgID ∧ i = chunk.chunkIdx then some chunk else s.getChunk id i := by
  by_cases hid : id = chunk.msgID
  · subst hid
    simp only [ChunkStore.getChunk, ChunkStore.store, ChunkStore.bufferFor, AList.lookup_insert,
      Option.bind_some, lookup_insert_ite, true_and]
    split
    · rfl
    · cases hm : s.messages.lookup chunk.msgID <;> rfl
  · rw [ChunkStore.getChunk, store_lookup_ne s hid, if_neg (fun h => hid h.1), ChunkStore.getChunk]

theorem setMessageOwner_getChunk (id j : MsgID) (peerID : Bytes) (i : UInt16) :
    (s.setMessageOwner id peerID).getChunk j i = s.getChunk j i := by
  rw [ChunkStore.getChunk, setMessageOwner_messages, ChunkStore.getChunk]

theorem dropOwner_messages (id : MsgID) : (s.dropOwner id).messages = s.messages := by
  unfold ChunkStore.dropOwner
  split <;> rfl

theorem dropOwner_counter (id : MsgID) : (s.dropOwner id).sequenceCounter = s.sequenceCounter := by
  unfold ChunkStore.dropOwner
  split <;> rfl

private theorem dropOwner_ttl (id : MsgID) : (s.dropOwner id).ttl = s.ttl := by
  unfold ChunkStore.dropOwner
  split <;> rfl

theorem dropOwner_owner (id j : MsgID) :
    (s.dropOwner id).messageOwner.lookup j = if j = id then none else s.messageOwner.lookup j := by
  unfold ChunkStore.dropOwner
  cases ho : s.messageOwner.lookup id with
  | none =>
    by_cases hj : j = id
    · subst hj; simp [ho]
    · simp [hj]
  | some peerID => simp only [lookup_erase_ite]

/-- The counter of the former owner goes down by one, and away when nothing is left. -/
theorem dropOwner_peers {id : MsgID} {peerID : Bytes} (ho : s.messageOwner.lookup id = some peerID)
    (p : Bytes) :
    (s.dropOwner id).peerMessages.lookup p =
      if p = peerID then
        if s.peerMessageCount peerID - 1 ≤ 0 then none else some (s.peerMessageCount peerID - 1)
      else s.peerMessages.lookup p := by
  simp only [ChunkStore.dropOwner, ho]
  by_cases hc : s.peerMessageCount peerID - 1 ≤ 0
  · rw [if_pos hc, lookup_erase_ite, if_pos hc]
  · rw [if_neg hc, lookup_insert_ite, if_neg hc]

theorem gcVisit_ttl (now : Int) (id : MsgID) : (s.gcVisit now id).ttl = s.ttl := by
  unfold ChunkStore.gcVisit
  split
  · rfl
  · split
    · exact dropOwner_ttl _ _
    · rfl

/-- A visit removes the visited message when it is expired, and nothing else. -/
theorem gcVisit_lookup (now : Int) (id j : MsgID) :
    (s.gcVisit now id).messages.lookup j =
      if j = id then (s.messages.lookup j).filter (fun buf => ¬ s.Expired now buf)
      else s.messages.lookup j := by
  unfold ChunkStore.gcVisit
  cases hm : s.messages.lookup id with
  | none =>
    by_cases hj : j = id
    · subst hj; simp [hm]
    · simp [hj]
  | some buf =>
    simp only
    split
    · rename_i he
      rw [dropOwner_messages, ChunkStore.dropMessage, lookup_erase_ite]
      by_cases hj : j = id
      · subst hj; simp [hm, Option.filter, he]
      · simp [hj]
    · rename_i he
      by_cases hj : j = id
      · subst hj; simp [hm, Option.filter, he]
      · simp [hj]

private theorem gcVisit_owner (now : Int) (id j : MsgID) :
    (s.gcVisit now id).messageOwner.lookup j =
      if j = id ∧ (s.messages.lookup j).any (fun buf => s.Expired now buf) then none
      else s.messageOwner.lookup j := by
  unfold ChunkStore.gcVisit
  cases hm : s.messages.lookup id with
  | none =>
    by_cases hj : j = id
    · subst hj; simp [hm]
    · simp [hj]
  | some buf =>
    simp only
    split
    · rename_i he
      rw [dropOwner_owner]
      by_cases hj : j = id
      · subst hj; simp [hm, he]
      · simp [hj, ChunkStore.dropMessage]
    · rename_i he
      by_cases hj : j = id
      · subst hj; simp [hm, he]
      · simp [hj]

end Frame

/-! ## A whole pass of `gc` -/

/-- Message `id` is stored and older than the time to live. -/
def ChunkStore.Overdue (s : ChunkStore) (now : Int) (id : MsgID) : Prop :=
  (s.messages.lookup id).any (fun buf => s.Expired now buf) = true

instance (s : ChunkStore) (now : Int) (id : MsgID) : Decidable (s.Overdue now id) :=
  inferInstanceAs (Decidable (_ = true))

theorem mem_of_overdue {s : ChunkStore} {now : Int} {id : MsgID} (h : s.Overdue now id) :
    id ∈ s.messages := by
  rw [ChunkStore.Overdue] at h
  cases hl : s.messages.lookup id with
  | none => simp [hl] at h
  | some buf => exact mem_iff_lookup.mpr ⟨buf, hl⟩

theorem expired_of_ttl {s t : ChunkStore} (h : t.ttl = s.ttl) (now : Int) (buf : MessageBuf) :
    t.Expired now buf ↔ s.Expired now buf := by
  rw [ChunkStore.Expired, ChunkStore.Expired, h]

private theorem gcVisits_lookup (now : Int) (rest : List MsgID) (s : ChunkStore) (j : MsgID) :
    (rest.foldl (ChunkStore.gcVisit now) s).messages.lookup j =
      (if j ∈ rest then (s.messages.lookup j).filter (fun buf => ¬ s.Expired now buf)
       else s.messages.lookup j) ∧
    (rest.foldl (ChunkStore.gcVisit now) s).messageOwner.lookup j =
      (if j ∈ rest ∧ s.Overdue now j then none else s.messageOwner.lookup j) := by
  induction rest generalizing s with
  | nil => simp
  | cons id rest ih =>
    have hm := gcVisit_lookup s now id j
    have ho := gcVisit_owner s now id j
    have he : ∀ buf, (s.gcVisit now id).Expired now buf ↔ s.Expired now buf :=
      expired_of_ttl (gcVisit_ttl s now id) now
    obtain ⟨h1, h2⟩ := ih (s.gcVisit now id)
    rw [List.foldl_cons, h1, h2]
    simp only [ChunkStore.Overdue, he, hm, ho, List.mem_cons]
    by_cases hj : j = id
    · subst hj
      cases hl : s.messages.lookup j with
      | none => simp
      | some buf => by_cases hx : s.Expired now buf <;> simp [Option.filter, hx]
    · simp [hj]

/-- A pass keeps exactly the messages that are not overdue. -/
theorem gc_lookup (s : ChunkStore) (hint : List MsgID) (now : Int) (j : MsgID) :
    (s.gc hint now).messages.lookup j =
      (s.messages.lookup j).filter (fun buf => ¬ s.Expired now buf) := by
  rw [ChunkStore.gc, (gcVisits_lookup now _ s j).1]
  by_cases hj : j ∈ s.messages
  · rw [if_pos ((mem_rangeOrder hint s.messages j).mpr hj)]
  · rw [AList.lookup_eq_none.mpr hj]
    exact ite_self none

theorem gc_lookup_eq_some {s : ChunkStore} {hint : List MsgID} {now : Int} {j : MsgID}
    {buf : MessageBuf} :
    (s.gc hint now).messages.lookup j = some buf ↔
      s.messages.lookup j = some buf ∧ ¬ s.Expired now buf := by
  rw [gc_lookup, Option.filter_eq_some_iff, decide_eq_true_iff]

/-- A pass forgets the owner of every overdue message and of no other. -/
theorem gc_owner (s : ChunkStore) (hint : List MsgID) (now : Int) (j : MsgID) :
    (s.gc hint now).messageOwner.lookup j =
      if s.Overdue now j then none else s.messageOwner.lookup j := by
  rw [ChunkStore.gc, (gcVisits_lookup now _ s j).2]
  by_cases hd : s.Overdue now j
  · simp [hd, (mem_rangeOrder hint s.messages j).mpr (mem_of_overdue hd)]
  · simp [hd]

/-- A pass does not touch a message that is not overdue. -/
theorem gc_getChunk {s : ChunkStore} {now : Int} {id : MsgID} (h : ¬ s.Overdue now id)
    (hint : List MsgID) (i : UInt16) : (s.gc hint now).getChunk id i = s.getChunk id i := by
  have hl : (s.gc hint now).messages.lookup id = s.messages.lookup id := by
    rw [gc_lookup]
    rw [ChunkStore.Overdue] at h
    cases hm : s.messages.lookup id with
    | none => rfl
    | some buf => simpa [Option.filter, hm] using h
  rw [ChunkStore.getChunk, hl, ChunkStore.getChunk]

end VRGram.Store
