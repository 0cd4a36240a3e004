import VRGram.Client.Engine
import VRGram.Relay.Parcel
import VRGram.Store.Accounting

/-!
# A message through one relay

The client's functions against relays that answer: what a query, a POLL and a fetch
return is read off the relay's store. With the account of what a relay holds of a
parcel this gives the whole way of a message from `ChunkMessage` to
`fetchAndReassemble`.
-/
namespace VRGram.Client

open VRGram.Lib.Maps VRGram.Lib.Strings VRGram.Lib.Dns VRGram.Lib.Machine
open VRGram.Encoding VRGram.Store VRGram.Relay

set_option autoImplicit false

/-- The stores of the relays, by host. -/
abbrev Relays := Bytes → ChunkStore

/-- Every exchange reaches the relay behind the address, passes its rate limiter and
brings the handler's answer back; resolving an address does not change the host. -/
structure Reachable (zone : Bytes) (host : Bytes → Bytes) (net : Network Relays) : Prop where
  answers : ∀ proto addr qname w, ∃ ctx : Context, ctx.admitted = true ∧
    net.exchange proto addr qname w =
      (some (handleRequest zone ctx [qname] (w (host addr))).1,
        Function.update w (host addr) (handleRequest zone ctx [qname] (w (host addr))).2)
  resolves : ∀ addr w, ∃ target, net.resolveAddr addr w = (some target, w) ∧ host target = host addr

/-- A network that is reachable: every request is admitted and addresses resolve to themselves. -/
def directNetwork (zone : Bytes) (host : Bytes → Bytes) (ctx : Context) : Network Relays where
  exchange _ addr qname w :=
    let result := handleRequest zone { ctx with admitted := true } [qname] (w (host addr))
    (some result.1, Function.update w (host addr) result.2)
  resolveAddr addr w := (some addr, w)

theorem directNetwork_reachable (zone : Bytes) (host : Bytes → Bytes) (ctx : Context) :
    Reachable zone host (directNetwork zone host ctx) where
  answers _ _ _ _ := ⟨{ ctx with admitted := true }, rfl, rfl⟩
  resolves addr _ := ⟨addr, rfl, rfl⟩

/-! ## POLL records -/

theorem word64Of_b32 (w : Word64) : word64Of (b32 w.val) = some w := by
  simp [word64Of, unb32_b32, w.property]

/-- What a client reads from the record of a message. -/
def pollEntry (s : ChunkStore) (id : MsgID) : PolledMessage :=
  match s.getMessageMeta id with
  | some (ts, seq) =>
    if ts > 0 then ⟨id, [], (UInt64.ofInt ts).toInt64, seq⟩ else ⟨id, [], 0, 0⟩
  | none => ⟨id, [], 0, 0⟩

theorem pollEntry_msgID (s : ChunkStore) (id : MsgID) : (pollEntry s id).msgID = id := by
  unfold pollEntry
  split
  · split <;> rfl
  · rfl

theorem map_pollEntry_msgID (s : ChunkStore) (ids : List MsgID) :
    (ids.map (pollEntry s)).map PolledMessage.msgID = ids := by
  have hid : (PolledMessage.msgID ∘ pollEntry s) = id := by
    funext j
    exact pollEntry_msgID s j
  rw [List.map_map, hid, List.map_id]

theorem parsePollRecord_pollRecord (s : ChunkStore) (id : MsgID) :
    parsePollRecord (pollRecord s id) = some (pollEntry s id) := by
  have hcolon : ∀ b : Bytes, (58 : UInt8) ∉ b32 b := Lib.Base32Hex.notMem_encode (by decide)
  have hplain : parsePollRecord (b32 id.val) = some ⟨id, [], 0, 0⟩ := by
    rw [parsePollRecord, splitN_of_notMem (hcolon id.val)]
    simp only [word64Of_b32, Option.map_some]
  unfold pollRecord pollEntry
  cases hm : s.getMessageMeta id with
  | none => exact hplain
  | some stamp =>
    obtain ⟨ts, seq⟩ := stamp
    by_cases hts : ts > 0
    · simp only [if_pos hts]
      have hjoin : ∀ a b c : Bytes, join 58 [a, b, c] = a ++ 58 :: (b ++ 58 :: c) := by
        intro a b c
        simp [join, List.intercalate]
      rw [parsePollRecord, hjoin, splitN_append (hcolon _), splitN_append (hcolon _)]
      simp only [splitN, word64Of_b32, uint64_putUint64, Option.map_some, Option.getD_some]
    · simp only [if_neg hts]
      exact hplain

theorem parsePollResponse_records (s : ChunkStore) (ids : List MsgID) :
    parsePollResponseWithMeta (.txt (ids.map (pollRecord s))) = ids.map (pollEntry s) := by
  have hone : (parsePollRecord ∘ pollRecord s) = some ∘ pollEntry s := by
    funext id
    exact parsePollRecord_pollRecord s id
  simp only [parsePollResponseWithMeta, Msg.txt, List.flatMap_cons, List.flatMap_nil,
    List.append_nil, txtStrings, List.filterMap_map, hone, List.filterMap_eq_map]

/-! ## Queries and fetches against reachable relays -/

section

variable {zone : Bytes} {host : Bytes → Bytes} {net : Network Relays}
  (h : Reachable zone host net) (hz : ZoneOk zone)

include h hz

theorem Reachable.query (proto : Net) (addr : Bytes) (id : MsgID) (idx : UInt16) (w : Relays) :
    net.exchange proto addr (questionName (queryFor id idx).bodyLabels zone) w =
      (some (answerQuery (w (host addr)) (queryFor id idx)), w) := by
  obtain ⟨ctx, hadm, hex⟩ := h.answers proto addr (questionName (queryFor id idx).bodyLabels zone) w
  have hash : (queryFor id idx).HashOk := Or.inl rfl
  have hquery : chunkQuery (queryFor id idx) = .fetch (queryFor id idx) := rfl
  rw [hex, handleRequest_chunk hash hz hadm, hquery, serve, Function.update_eq_self]

theorem queryChunk_stored {addr : Bytes} {id : MsgID} {idx : UInt16} {w : Relays} {c : Chunk}
    (hc : c.HashOk) (hget : (w (host addr)).getChunk id idx = some c) (mode : TransportMode) :
    queryChunk net.exchange addr zone id idx mode w = (.ok c, w) := by
  refine queryChunk_found net.exchange hc ?_ mode
  intro proto
  have hans : answerQuery (w (host addr)) (queryFor id idx) = .txt c.bodyLabels :=
    answerQuery_found hget
  rw [h.query hz, hans]

theorem queryChunk_absent {addr : Bytes} {id : MsgID} {idx : UInt16} {w : Relays}
    (hget : (w (host addr)).getChunk id idx = none) (mode : TransportMode) :
    queryChunk net.exchange addr zone id idx mode w = (.error (.rcode .nameError), w) := by
  refine queryChunk_missing net.exchange ?_ mode
  intro proto
  have hans : answerQuery (w (host addr)) (queryFor id idx) = .failure .nameError :=
    answerQuery_missing hget
  rw [h.query hz, hans]

theorem fetchAndReassemble_absent {addr : Bytes} {id : MsgID} {w : Relays}
    (hget : (w (host addr)).getChunk id 0 = none) (mode : TransportMode) :
    fetchAndReassemble net addr zone id mode w =
      (some (.error (.chunk 0 (.rcode .nameError))), w) := by
  rw [fetchAndReassemble, queryChunk_absent h hz hget mode]

/-- A fetch fails at the second chunk when the relay does not have it. -/
theorem fetchAndReassemble_gap {addr : Bytes} {id : MsgID} {w : Relays} {first : Chunk}
    (hash : first.HashOk) (hget : (w (host addr)).getChunk id 0 = some first)
    (hmore : 2 ≤ first.totalChunks.toNat) (hgap : (w (host addr)).getChunk id 1 = none)
    (mode : TransportMode) :
    fetchAndReassemble net addr zone id mode w =
      (some (.error (.chunk 1 (.rcode .nameError))), w) := by
  obtain ⟨m, hm⟩ : ∃ m, first.totalChunks.toNat = m + 2 := ⟨first.totalChunks.toNat - 2, by omega⟩
  have hfirst := queryChunk_stored h hz hash hget mode
  have hsecond := queryChunk_absent h hz hgap mode
  simp only [fetchAndReassemble, hfirst, hm, Nat.add_eq_zero_iff, OfNat.ofNat_ne_zero, and_false,
    if_false, Nat.reduceSubDiff, fetchChunks]
  have hone : UInt16.ofNat 1 = 1 := rfl
  rw [hone, hsecond]

private theorem fetchChunks_stored {p : Parcel} {addr : Bytes} {w : Relays}
    (hget : ∀ i < p.n, (w (host addr)).getChunk p.msgID (UInt16.ofNat i) = some (p.chunk i))
    (mode : TransportMode) (count i : Nat) (hle : i + count ≤ p.n) :
    fetchChunks net addr zone p.msgID mode count i w =
      (.ok ((List.range' i count).map p.chunk), w) := by
  induction count generalizing i with
  | zero => rfl
  | succ count ih =>
    have hi := queryChunk_stored h hz (p.chunk_hashOk i) (hget i (by omega)) mode
    simp only [fetchChunks, hi, ih (i + 1) (by omega), List.range'_succ, List.map_cons]

end

theorem reassemble_parcel {p : Parcel} (hsmall : p.n ≤ 65535) :
    reassembleMessage p.chunks = .ok p.payload := by
  have hlen : p.chunks.length = p.n := by simp [Parcel.chunks]
  have hpos := p.pos
  rw [reassembleMessage_inOrder]
  · have hpay : p.chunks.map Chunk.payload = (List.range p.n).map (piece p.size p.payload) := by
      rw [Parcel.chunks, List.map_map]
      rfl
    rw [hpay, flatten_pieces_all p.covers]
  · intro hnil
    rw [hnil, List.length_nil] at hlen
    omega
  · intro c hc
    obtain ⟨i, _, rfl⟩ := Parcel.mem_chunks.mp hc
    rw [Parcel.chunk_total hsmall, hlen]
  · intro i hi
    rw [hlen] at hi
    simp only [Parcel.chunks, List.getElem_map, List.getElem_range]
    exact Parcel.chunk_idx hsmall hi
  · intro c hc
    obtain ⟨i, _, rfl⟩ := Parcel.mem_chunks.mp hc
    rfl

/-- A relay that holds every chunk of a parcel gives the payload back, in every mode. -/
theorem fetchAndReassemble_stored {zone : Bytes} {host : Bytes → Bytes} {net : Network Relays}
    (h : Reachable zone host net) (hz : ZoneOk zone) {p : Parcel} (hsmall : p.n ≤ 65535)
    {addr : Bytes} {w : Relays}
    (hget : ∀ i < p.n, (w (host addr)).getChunk p.msgID (UInt16.ofNat i) = some (p.chunk i))
    (mode : TransportMode) :
    fetchAndReassemble net addr zone p.msgID mode w = (some (.ok p.payload), w) := by
  have hpos := p.pos
  have hfirst := queryChunk_stored h hz (p.chunk_hashOk 0) (hget 0 hpos) mode
  have hrest := fetchChunks_stored h hz hget mode (p.n - 1) 1 (by omega)
  have hzero : (UInt16.ofNat 0) = 0 := rfl
  rw [hzero] at hfirst
  simp only [fetchAndReassemble, hfirst, Parcel.chunk_total hsmall, if_neg (Nat.ne_of_gt hpos), hrest,
    ← p.chunks_eq_cons, reassemble_parcel hsmall]

/-! ## End to end -/

theorem digest_ne_nil (d : Digest) : d.val ≠ [] := by
  intro hnil
  have hd := d.property
  rw [hnil] at hd
  cases hd

/-- What the relay holds once every chunk has reached it: all chunks, and the mailbox of the
recipient if there is one. -/
theorem transported {sha256 : Bytes → Digest} {zone : Bytes} (hz : ZoneOk zone) {msgID : MsgID}
    {payload : Bytes} (hlen : payload.length < 2 ^ 63) {maxChunkSize : Int64} {recipient : Bytes}
    {chunks : List Chunk}
    (hchunks : chunkMessage sha256 msgID payload maxChunkSize recipient = some chunks)
    (hsome : 1 ≤ chunks.length) (hmany : chunks.length ≤ 65535)
    {s t : ChunkStore} (hm : msgID ∉ s.messages) (ho : msgID ∉ s.messageOwner)
    {events : List Event} (hok : Meets (relayStep zone) (Respects zone msgID chunks) s events)
    (hall : ∀ c ∈ chunks, ∃ e ∈ events, Delivers zone c e)
    (hr : run (relayStep zone) s events = some t) :
    (∃ p : Parcel, p.msgID = msgID ∧ p.payload = payload ∧ p.n ≤ 65535 ∧
      ∀ i < p.n, t.getChunk p.msgID (UInt16.ofNat i) = some (p.chunk i)) ∧
    (recipient ≠ [] → t.messageOwner.lookup msgID = some (mailboxOf sha256 recipient)) := by
  obtain ⟨p, rfl, hn, rfl, rfl, hhash⟩ :=
    parcel_of_chunkMessage hlen hchunks (List.length_pos_iff.mp hsome)
  have hsmall : p.n ≤ 65535 := by rw [hn]; exact hmany
  obtain ⟨got, hgot, _, hdel⟩ := carries_run hsmall hz (carries_fresh hm ho) hok hr
  have hevery : ∀ i < p.n, i ∈ got := by
    intro i hi
    exact hdel i hi (hall (p.chunk i) (Parcel.mem_chunks.mpr ⟨i, hi, rfl⟩))
  refine ⟨⟨p, rfl, rfl, hsmall, carries_all hsmall hgot hevery⟩, ?_⟩
  intro hrec
  have hdigest : p.hash = (sha256 recipient).val := by rw [hhash, recipientHashOf, if_neg hrec]
  have hgne : got ≠ [] := List.ne_nil_of_mem (hevery 0 p.pos)
  rw [hgot.owner, if_neg (by simp [hgne, hdigest, digest_ne_nil]), hdigest]
  rfl

/-- A POLL lists exactly the messages of the mailbox it names. -/
theorem poll_lists_iff (sha256 : Bytes → Digest) (recipient : Bytes) {zone : Bytes}
    (hz : ZoneOk zone) {ctx : Context} (hadm : ctx.admitted = true) (more : List Bytes)
    (t : ChunkStore) (id : MsgID) :
    let answer := (handleRequest zone ctx
      (questionName [lit "POLL", mailboxOf sha256 recipient] zone :: more) t).1
    answer.rcode = .success ∧
      (id ∈ (parsePollResponseWithMeta answer).map PolledMessage.msgID ↔
        t.messageOwner.lookup id = some (mailboxOf sha256 recipient)) := by
  have hpoll := handleRequest_poll (digest_ne_nil (sha256 recipient)) hz hadm more t
  simp only [mailboxOf]
  rw [hpoll]
  refine ⟨rfl, ?_⟩
  rw [parsePollResponse_records, map_pollEntry_msgID]
  exact mem_listPeerMessages

/-- The whole way through one relay. Whenever `ChunkMessage` makes between 1 and 65535
chunks for an id new to the relay, and the relay processes any sequence of events that
contains an admitted store request for each chunk, stores nothing else under that id and
never finds the message overdue, then a POLL for the recipient lists the id and a fetch
in any transport mode returns the payload. -/
theorem chunk_transport_end_to_end (sha256 : Bytes → Digest) (zone : Bytes) (hz : ZoneOk zone)
    (msgID : MsgID) (payload : Bytes) (hlen : payload.length < 2 ^ 63) (maxChunkSize : Int64)
    (recipient : Bytes) (chunks : List Chunk)
    (hchunks : chunkMessage sha256 msgID payload maxChunkSize recipient = some chunks)
    (hsome : 1 ≤ chunks.length) (hmany : chunks.length ≤ 65535)
    (s t : ChunkStore) (hm : msgID ∉ s.messages) (ho : msgID ∉ s.messageOwner)
    (events : List Event) (hok : Meets (relayStep zone) (Respects zone msgID chunks) s events)
    (hall : ∀ c ∈ chunks, ∃ e ∈ events, Delivers zone c e)
    (hr : run (relayStep zone) s events = some t) :
    (recipient ≠ [] → ∀ ctx more, ctx.admitted = true →
      let answer := (handleRequest zone ctx
        (questionName [lit "POLL", mailboxOf sha256 recipient] zone :: more) t).1
      answer.rcode = .success ∧
        msgID ∈ (parsePollResponseWithMeta answer).map PolledMessage.msgID) ∧
    ∀ host net addr mode w, Reachable zone host net → w (host addr) = t →
      (fetchAndReassemble net addr zone msgID mode w).1 = some (.ok payload) := by
  obtain ⟨⟨p, rfl, rfl, hsmall, hget⟩, howner⟩ :=
    transported hz hlen hchunks hsome hmany hm ho hok hall hr
  constructor
  · intro hrec ctx more hadm
    obtain ⟨hsuccess, hlists⟩ := poll_lists_iff sha256 recipient hz hadm more t p.msgID
    exact ⟨hsuccess, hlists.mpr (howner hrec)⟩
  · intro host net addr mode w hreach hw
    rw [← hw] at hget
    rw [fetchAndReassemble_stored hreach hz hsmall hget mode]

/-- Store requests for the given chunks, last chunk first, each one sent twice. -/
def backwardsTwice (zone : Bytes) (chunks : List Chunk) : List Event :=
  (chunks.reverse ++ chunks.reverse).map
    (fun c => .request ⟨true, 0, true, []⟩ [questionName c.bodyLabels zone])

theorem chunk_transport_end_to_end_backwardsTwice :
    let digest : Bytes → Digest := fun _ => ⟨List.replicate 32 7, rfl⟩
    let id : MsgID := ⟨List.replicate 8 1, rfl⟩
    let chunks := (chunkMessage digest id [10, 20, 30] 2 (lit "R")).getD []
    ∃ t, chunks.length = 2 ∧
      run (relayStep (lit "z.org")) (newChunkStore 5) (backwardsTwice (lit "z.org") chunks) = some t ∧
      (fetchAndReassemble (directNetwork (lit "z.org") (fun a => a) ⟨true, 0, true, []⟩) (lit "A")
        (lit "z.org") id .auto (fun _ => t)).1 = some (.ok [10, 20, 30]) := by
  intro digest id chunks
  refine ⟨_, by decide, rfl, ?_⟩
  exact (chunk_transport_end_to_end digest (lit "z.org") (by decide) id [10, 20, 30] (by decide) 2
    (lit "R") chunks rfl (by decide) (by decide) (newChunkStore 5) _ (by decide) (by decide)
    (backwardsTwice (lit "z.org") chunks) (by decide +kernel) (by decide +kernel) rfl).2
    (fun a => a) _ (lit "A") .auto _ (directNetwork_reachable _ _ _) rfl

/-- At the largest chunk size the chunk count overflows: a message of four bytes becomes
no chunks at all, so nothing has to be stored and the relay never learns of it. -/
theorem chunk_transport_overflow :
    ∃ (id : MsgID) (payload recipient : Bytes), payload ≠ [] ∧ recipient ≠ [] ∧
      ∀ (digest : Bytes → Digest) (zone : Bytes) (ttl : Int), ZoneOk zone →
        chunkMessage digest id payload Int64.maxValue recipient = some [] ∧
        (∀ ctx more, ctx.admitted = true →
          id ∉ (parsePollResponseWithMeta (handleRequest zone ctx
            (questionName [lit "POLL", mailboxOf digest recipient] zone :: more)
              (newChunkStore ttl)).1).map PolledMessage.msgID) ∧
        ∀ host net addr mode w, Reachable zone host net → w (host addr) = newChunkStore ttl →
          (fetchAndReassemble net addr zone id mode w).1 ≠ some (.ok payload) := by
  refine ⟨⟨List.replicate 8 1, rfl⟩, [1, 2, 3, 4], lit "R", by decide, by decide, ?_⟩
  intro digest zone ttl hz
  refine ⟨rfl, ?_, ?_⟩
  · intro ctx more hadm
    rw [(poll_lists_iff digest (lit "R") hz hadm more (newChunkStore ttl) _).2]
    intro howner
    cases howner
  · intro host net addr mode w hreach hw
    have habsent : (w (host addr)).getChunk ⟨List.replicate 8 1, rfl⟩ 0 = none := by
      rw [hw]
      rfl
    rw [fetchAndReassemble_absent hreach hz habsent mode]
    intro hc
    cases hc

end VRGram.Client
