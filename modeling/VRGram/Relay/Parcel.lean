import VRGram.Lib.Machine
import VRGram.Relay.Server

/-!
# One message on its way through a relay

A parcel is the cut of one payload into numbered chunks. What a relay holds of a parcel
is determined by the set of chunk numbers it has accepted, whatever the order and the
repetitions of their store requests and whatever else the relay was asked meanwhile.
-/
namespace VRGram.Relay

open VRGram.Lib.Maps VRGram.Lib.Strings VRGram.Lib.Dns VRGram.Lib.Machine
open VRGram.Encoding VRGram.Store

set_option autoImplicit false

/-- A payload cut into `n` pieces of `size` bytes, the last one possibly shorter. -/
structure Parcel where
  msgID : MsgID
  payload : Bytes
  size : Nat
  n : Nat
  hash : Bytes
  hash_ok : hash = [] ∨ hash.length = 32
  pos : 0 < n
  covers : payload.length ≤ n * size
  tight : n * size < payload.length + size

def Parcel.chunk (p : Parcel) (i : Nat) : Chunk :=
  wholeChunk p.msgID p.payload p.size p.n p.hash i

def Parcel.chunks (p : Parcel) : List Chunk := (List.range p.n).map p.chunk

theorem Parcel.mem_chunks {p : Parcel} {c : Chunk} : c ∈ p.chunks ↔ ∃ i < p.n, c = p.chunk i := by
  simp only [Parcel.chunks, List.mem_map, List.mem_range, eq_comm (a := c)]

theorem Parcel.chunks_eq_cons (p : Parcel) :
    p.chunks = p.chunk 0 :: (List.range' 1 (p.n - 1)).map p.chunk := by
  have hpos := p.pos
  obtain ⟨m, hm⟩ : ∃ m, p.n = m + 1 := ⟨p.n - 1, by omega⟩
  rw [Parcel.chunks, hm, List.range_eq_range', List.range'_succ, List.map_cons]
  rfl

theorem Parcel.chunk_hashOk (p : Parcel) (i : Nat) : (p.chunk i).HashOk := p.hash_ok

private theorem recipientHashOf_ok (sha256 : Bytes → Digest) (recipientPubkey : Bytes) :
    recipientHashOf sha256 recipientPubkey = [] ∨
      (recipientHashOf sha256 recipientPubkey).length = 32 := by
  unfold recipientHashOf
  split
  · exact Or.inl rfl
  · exact Or.inr (sha256 recipientPubkey).property

/-- The chunks of `ChunkMessage`, if there are any, are those of a parcel. -/
theorem parcel_of_chunkMessage {sha256 : Bytes → Digest} {msgID : MsgID} {plaintext : Bytes}
    {maxChunkSize : Int64} {recipientPubkey : Bytes} {chunks : List Chunk}
    (hlen : plaintext.length < 2 ^ 63)
    (h : chunkMessage sha256 msgID plaintext maxChunkSize recipientPubkey = some chunks)
    (hne : chunks ≠ []) :
    ∃ p : Parcel, p.chunks = chunks ∧ p.n = chunks.length ∧ p.msgID = msgID ∧
      p.payload = plaintext ∧ p.hash = recipientHashOf sha256 recipientPubkey := by
  obtain ⟨hcovers, htight, heq⟩ := chunkMessage_eq hlen h hne
  exact ⟨{ msgID := msgID, payload := plaintext, size := sizeNat maxChunkSize, n := chunks.length
           hash := recipientHashOf sha256 recipientPubkey
           hash_ok := recipientHashOf_ok sha256 recipientPubkey
           pos := List.length_pos_iff.mpr hne, covers := hcovers, tight := htight },
    heq.symm, rfl, rfl, rfl, rfl⟩

section Numbers

variable {p : Parcel} (hsmall : p.n ≤ 65535)

include hsmall

theorem Parcel.chunk_total (i : Nat) : (p.chunk i).totalChunks.toNat = p.n := by
  show (UInt16.ofNat p.n).toNat = p.n
  exact UInt16.toNat_ofNat_of_lt' (show p.n < 65536 by omega)

theorem Parcel.chunk_total_ne (i : Nat) : (p.chunk i).totalChunks ≠ 0 := by
  have htotal := Parcel.chunk_total hsmall i
  have hpos := p.pos
  intro h0
  rw [h0] at htotal
  have hz : (0 : UInt16).toNat = 0 := rfl
  omega

theorem Parcel.chunk_idx {i : Nat} (hi : i < p.n) : (p.chunk i).chunkIdx.toNat = i := by
  show (UInt16.ofNat i).toNat = i
  exact UInt16.toNat_ofNat_of_lt' (show i < 65536 by omega)

end Numbers

/-! ## What a relay holds of a parcel -/

/-- The relay has accepted exactly the chunks numbered in `got`. -/
structure Carries (p : Parcel) (s : ChunkStore) (got : List Nat) : Prop where
  slots : ∀ i : UInt16, s.getChunk p.msgID i =
    if i.toNat ∈ got then some (p.chunk i.toNat) else none
  owner : s.messageOwner.lookup p.msgID =
    if got = [] ∨ p.hash = [] then none else some (b32 p.hash)

theorem carries_fresh {p : Parcel} {s : ChunkStore} (hm : p.msgID ∉ s.messages)
    (ho : p.msgID ∉ s.messageOwner) : Carries p s [] := by
  constructor
  · intro i
    rw [ChunkStore.getChunk, AList.lookup_eq_none.mpr hm]
    rfl
  · rw [AList.lookup_eq_none.mpr ho]
    simp

theorem acceptChunk_getChunk (ctx : Context) (chunk : Chunk) (s : ChunkStore) (id : MsgID)
    (i : UInt16) :
    (acceptChunk ctx chunk s).getChunk id i =
      if id = chunk.msgID ∧ i = chunk.chunkIdx then some chunk else s.getChunk id i := by
  unfold acceptChunk
  simp only
  split
  · rw [setMessageOwner_getChunk, store_getChunk]
  · rw [store_getChunk]

theorem acceptChunk_owner (ctx : Context) (chunk : Chunk) (s : ChunkStore) (id : MsgID) :
    (acceptChunk ctx chunk s).messageOwner.lookup id =
      if id = chunk.msgID ∧ chunk.recipientHash ≠ [] ∧ s.messageOwner.lookup id = none
      then some (b32 chunk.recipientHash) else s.messageOwner.lookup id := by
  unfold acceptChunk
  simp only
  by_cases hh : chunk.recipientHash = []
  · rw [if_neg (by simp [hh]), store_owner, if_neg (fun h => h.2.1 hh)]
  · rw [if_pos (List.length_pos_iff.mpr hh), setMessageOwner_owner, store_owner]
    by_cases hid : id = chunk.msgID
    · subst hid
      simp [hh]
    · simp [hid]

theorem carries_accept {p : Parcel} (hsmall : p.n ≤ 65535) {s : ChunkStore} {got : List Nat}
    (h : Carries p s got) {i : Nat} (hi : i < p.n) (ctx : Context) :
    Carries p (acceptChunk ctx (p.chunk i) s) (i :: got) := by
  have hidx := Parcel.chunk_idx hsmall hi
  constructor
  · intro j
    have hid : (p.chunk i).msgID = p.msgID := rfl
    rw [acceptChunk_getChunk, h.slots, hid]
    by_cases hj : j = (p.chunk i).chunkIdx
    · subst hj
      simp [hidx]
    · have hne : j.toNat ≠ i := by
        intro he
        exact hj (UInt16.toNat.inj (by rw [hidx, he]))
      simp [hj, hne]
  · have hh : (p.chunk i).recipientHash = p.hash := rfl
    rw [acceptChunk_owner, h.owner, hh]
    by_cases hp : p.hash = []
    · simp [hp]
    · by_cases hg : got = []
      · simp [hp, hg, Parcel.chunk, wholeChunk, newChunk]
      · simp [hp, hg]

private theorem carries_other {p : Parcel} {s : ChunkStore} {got : List Nat} (h : Carries p s got)
    {chunk : Chunk} (hid : chunk.msgID ≠ p.msgID) (ctx : Context) :
    Carries p (acceptChunk ctx chunk s) got := by
  constructor
  · intro j
    rw [acceptChunk_getChunk, if_neg (fun hc => hid hc.1.symm), h.slots]
  · rw [acceptChunk_owner, if_neg (fun hc => hid hc.1.symm), h.owner]

theorem carries_all {p : Parcel} (hsmall : p.n ≤ 65535) {s : ChunkStore} {got : List Nat}
    (h : Carries p s got) (hall : ∀ i < p.n, i ∈ got) :
    ∀ i < p.n, s.getChunk p.msgID (UInt16.ofNat i) = some (p.chunk i) := by
  intro i hi
  have hidx : (UInt16.ofNat i).toNat = i := Parcel.chunk_idx hsmall hi
  rw [h.slots, hidx, if_pos (hall i hi)]

private theorem carries_gc {p : Parcel} {s : ChunkStore} {got : List Nat} (h : Carries p s got)
    {now : Int} (hd : ¬ s.Overdue now p.msgID) (hint : List MsgID) :
    Carries p (s.gc hint now) got := by
  constructor
  · intro j
    rw [gc_getChunk hd, h.slots]
  · rw [gc_owner, if_neg hd, h.owner]

/-! ## Runs of a relay -/

inductive Event where
  | request (ctx : Context) (question : List Bytes)
  | gc (now : Int) (hint : List MsgID)

def relayStep (zone : Bytes) (s : ChunkStore) : Event → Option ChunkStore
  | .request ctx question => some (handleRequest zone ctx question s).2
  | .gc now hint => some (s.gc hint now)

/-- The chunk that a question asks to store. -/
def storeOf (zone : Bytes) : List Bytes → Option Chunk
  | [] => none
  | qname :: _ =>
    match (questionLabels zone qname).map (classify zone) with
    | some (.store chunk) => some chunk
    | _ => none

/-- A request changes the store only if it is admitted and asks to store. -/
theorem handleRequest_state (zone : Bytes) (ctx : Context) (question : List Bytes) (s : ChunkStore) :
    (handleRequest zone ctx question s).2 =
      if ctx.admitted = true then
        match storeOf zone question with
        | some chunk => acceptChunk ctx chunk s
        | none => s
      else s := by
  unfold handleRequest
  cases hadm : ctx.admitted with
  | false => rfl
  | true =>
    simp only [Bool.true_eq_false, if_false, if_true]
    cases question with
    | nil => rfl
    | cons qname more =>
      simp only [storeOf]
      cases hl : questionLabels zone qname with
      | none => rfl
      | some labels =>
        simp only [Option.map_some]
        cases hc : classify zone labels <;> rfl

private theorem storeOf_chunk {c : Chunk} (h : c.HashOk) {zone : Bytes} (hz : ZoneOk zone)
    (more : List Bytes) :
    storeOf zone (questionName c.bodyLabels zone :: more) =
      if c.totalChunks = 0 then none else some c := by
  simp only [storeOf, questionLabels_questionName hz (plain_bodyLabels c), Option.map_some,
    classify_bodyLabels h, chunkQuery]
  by_cases h0 : c.totalChunks = 0
  · simp only [if_pos h0]
  · simp only [if_neg h0]

/-- An event that leaves message `msgID` alone or stores one of `chunks`: store requests
for that id carry one of them, and a pass of `gc` finds the message young enough. -/
def Respects (zone : Bytes) (msgID : MsgID) (chunks : List Chunk) (s : ChunkStore) : Event → Prop
  | .request _ question =>
    match storeOf zone question with
    | some c => c.msgID = msgID → c ∈ chunks
    | none => True
  | .gc now _ => ¬ s.Overdue now msgID

instance (zone : Bytes) (msgID : MsgID) (chunks : List Chunk) (s : ChunkStore) :
    (e : Event) → Decidable (Respects zone msgID chunks s e)
  | .request _ question =>
    match h : storeOf zone question with
    | some c => decidable_of_iff (c.msgID = msgID → c ∈ chunks) (by simp only [Respects, h])
    | none => isTrue (by simp only [Respects, h])
  | .gc now _ => inferInstanceAs (Decidable (¬ s.Overdue now msgID))

/-- The event is a store request for `chunk` that the rate limiter admitted. -/
def Delivers (zone : Bytes) (chunk : Chunk) : Event → Prop
  | .request ctx question =>
    ctx.admitted = true ∧ question.head? = some (questionName chunk.bodyLabels zone)
  | .gc _ _ => False

instance (zone : Bytes) (chunk : Chunk) : (e : Event) → Decidable (Delivers zone chunk e)
  | .request ctx question => inferInstanceAs (Decidable (ctx.admitted = true ∧
      question.head? = some (questionName chunk.bodyLabels zone)))
  | .gc _ _ => isFalse id

theorem storeOf_delivered {p : Parcel} (hsmall : p.n ≤ 65535) {zone : Bytes} (hz : ZoneOk zone)
    {question : List Bytes} (i : Nat)
    (h : question.head? = some (questionName (p.chunk i).bodyLabels zone)) :
    storeOf zone question = some (p.chunk i) := by
  obtain ⟨more, rfl⟩ := List.head?_eq_some_iff.mp h
  rw [storeOf_chunk (p.chunk_hashOk i) hz, if_neg (Parcel.chunk_total_ne hsmall i)]

/-- One event: the accepted numbers grow, and by the number that it delivers. -/
theorem carries_step {p : Parcel} (hsmall : p.n ≤ 65535) {zone : Bytes} (hz : ZoneOk zone)
    {s t : ChunkStore} {got : List Nat} (h : Carries p s got) {e : Event}
    (hr : Respects zone p.msgID p.chunks s e) (hs : relayStep zone s e = some t) :
    ∃ got', Carries p t got' ∧ (∀ i ∈ got, i ∈ got') ∧
      ∀ i < p.n, Delivers zone (p.chunk i) e → i ∈ got' := by
  cases e with
  | gc now hint =>
    obtain rfl := Option.some.inj hs
    exact ⟨got, carries_gc h hr hint, fun i hi => hi, fun i _ hd => hd.elim⟩
  | request ctx question =>
    obtain rfl := Option.some.inj hs
    rw [handleRequest_state]
    cases hadm : ctx.admitted with
    | false =>
      refine ⟨got, h, fun i hi => hi, ?_⟩
      intro i _ hd
      have hyes : ctx.admitted = true := hd.1
      rw [hadm] at hyes
      cases hyes
    | true =>
      rw [if_pos rfl]
      cases hst : storeOf zone question with
      | none =>
        refine ⟨got, h, fun i hi => hi, ?_⟩
        intro i hi hd
        rw [storeOf_delivered hsmall hz i hd.2] at hst
        cases hst
      | some c =>
        by_cases hid : c.msgID = p.msgID
        · simp only [Respects, hst] at hr
          obtain ⟨j, hj, rfl⟩ := Parcel.mem_chunks.mp (hr hid)
          refine ⟨j :: got, carries_accept hsmall h hj ctx, fun i hi => List.mem_cons_of_mem j hi, ?_⟩
          intro i hi hd
          have hc := hst.symm.trans (storeOf_delivered hsmall hz i hd.2)
          have hidx := congrArg (fun c => c.chunkIdx.toNat) (Option.some.inj hc)
          simp only [Parcel.chunk_idx hsmall hi, Parcel.chunk_idx hsmall hj] at hidx
          rw [← hidx]
          exact List.mem_cons_self
        · refine ⟨got, carries_other h hid ctx, fun i hi => hi, ?_⟩
          intro i hi hd
          rw [storeOf_delivered hsmall hz i hd.2] at hst
          exact absurd (by rw [← Option.some.inj hst]; rfl) hid

/-- Over a whole run every delivered number is accepted. -/
theorem carries_run {p : Parcel} (hsmall : p.n ≤ 65535) {zone : Bytes} (hz : ZoneOk zone)
    {events : List Event} {s t : ChunkStore} {got : List Nat} (h : Carries p s got)
    (hok : Meets (relayStep zone) (Respects zone p.msgID p.chunks) s events)
    (hr : run (relayStep zone) s events = some t) :
    ∃ got', Carries p t got' ∧ (∀ i ∈ got, i ∈ got') ∧
      ∀ i < p.n, (∃ e ∈ events, Delivers zone (p.chunk i) e) → i ∈ got' := by
  induction events generalizing s got with
  | nil =>
    obtain rfl := Option.some.inj hr
    refine ⟨got, h, fun i hi => hi, ?_⟩
    intro i _ hd
    obtain ⟨e, he, _⟩ := hd
    cases he
  | cons e rest ih =>
    obtain ⟨u, hs, hrest⟩ := run_cons.mp hr
    obtain ⟨mid, hmid, hsub, hdel⟩ := carries_step hsmall hz h hok.1 hs
    obtain ⟨final, hfinal, hsub', hdel'⟩ := ih hmid (hok.2 u hs) hrest
    refine ⟨final, hfinal, fun i hi => hsub' i (hsub i hi), ?_⟩
    intro i hi hd
    obtain ⟨e', he', hde⟩ := hd
    rcases List.mem_cons.mp he' with rfl | htail
    · exact hsub' i (hdel i hi hde)
    · exact hdel' i hi ⟨e', htail, hde⟩

end VRGram.Relay
