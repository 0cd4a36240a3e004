import VRGram.Encoding.Placement
import VRGram.Lib.Machine
import VRGram.Store.ChunkStore

/-!
# When a message counts as complete

`Store` compares the number of buffered chunks with the total that the first chunk of the
message announced. `GetCompleteMessage` reassembles the chunks in the order of a map loop
and goes by the total of whichever comes first. Chunks come from anybody, so the two can
disagree. They agree where all chunks of a message announce one total and have indices below it.
-/
namespace VRGram.Store

open VRGram.Lib.Maps VRGram.Lib.Machine VRGram.Lib.Strings VRGram.Encoding

set_option autoImplicit false

/-- A call of `Store` with a chunk that announces at least one chunk and has the right
checksum. -/
structure StoreCall where
  chunk : Chunk
  now : Int
  commit : Bool
  announced : chunk.totalChunks ≠ 0
  valid : chunk.checksum = crc16 chunk.payload

def StoreCall.flag (call : StoreCall) (s : ChunkStore) : Bool :=
  (s.store call.chunk call.now call.commit).1

def StoreCall.after (call : StoreCall) (s : ChunkStore) : ChunkStore :=
  (s.store call.chunk call.now call.commit).2

/-- A sequence of calls as a machine. -/
def storing (s : ChunkStore) (call : StoreCall) : Option ChunkStore := some (call.after s)

/-- The buffer that the call writes to, afterwards. -/
def StoreCall.buffer (call : StoreCall) (s : ChunkStore) : MessageBuf :=
  let found := (s.bufferFor call.chunk call.now call.commit).1
  { found with chunks := found.chunks.insert call.chunk.chunkIdx call.chunk }

theorem StoreCall.flag_iff (call : StoreCall) (s : ChunkStore) :
    call.flag s = true ↔
      (call.buffer s).chunks.keys.length = (call.buffer s).total.toNat :=
  decide_eq_true_iff

theorem StoreCall.lookup_after (call : StoreCall) (s : ChunkStore) :
    (call.after s).messages.lookup call.chunk.msgID = some (call.buffer s) :=
  AList.lookup_insert _

/-- A buffer after a call is the one the call wrote to, or it was there before. -/
theorem StoreCall.lookup_after_cases {call : StoreCall} {s : ChunkStore} {id : MsgID}
    {buf : MessageBuf} (h : (call.after s).messages.lookup id = some buf) :
    (id = call.chunk.msgID ∧ buf = call.buffer s) ∨ s.messages.lookup id = some buf := by
  by_cases hid : id = call.chunk.msgID
  · rw [hid, call.lookup_after s] at h
    exact Or.inl ⟨hid, (Option.some.inj h).symm⟩
  · rw [StoreCall.after, store_lookup_ne s hid] at h
    exact Or.inr h

/-! ## Buffers hold chunks under their own index -/

def MessageBuf.Filed (buf : MessageBuf) : Prop :=
  ∀ i c, buf.chunks.lookup i = some c → c.chunkIdx = i ∧ c.checksum = crc16 c.payload

def ChunkStore.Filed (s : ChunkStore) : Prop :=
  ∀ id buf, s.messages.lookup id = some buf → buf.Filed

theorem ChunkStore.Filed.buffer {s : ChunkStore} (h : s.Filed) (call : StoreCall) :
    (call.buffer s).Filed := by
  intro i c hc
  rw [StoreCall.buffer, lookup_insert_ite] at hc
  split at hc
  next hi =>
    obtain rfl := Option.some.inj hc
    exact ⟨hi.symm, call.valid⟩
  next =>
    unfold ChunkStore.bufferFor at hc
    split at hc
    next buf hbuf => exact h _ buf hbuf i c hc
    next => cases hc

theorem ChunkStore.Filed.storing {s t : ChunkStore} (h : s.Filed) {call : StoreCall}
    (hs : storing s call = some t) : t.Filed := by
  obtain rfl := Option.some.inj hs
  intro id buf hbuf
  rcases StoreCall.lookup_after_cases hbuf with ⟨-, rfl⟩ | hbefore
  · exact h.buffer call
  · exact h id buf hbefore

/-! ## Reassembly of a buffer -/

/-- The chunks in the order of the loop of `GetCompleteMessage`. -/
def MessageBuf.inOrder (buf : MessageBuf) (hint : List UInt16) : List Chunk :=
  (rangeOrder hint buf.chunks).filterMap (fun i => buf.chunks.lookup i)

theorem MessageBuf.Filed.indices {buf : MessageBuf} (h : buf.Filed) {order : List UInt16}
    (hsub : ∀ i ∈ order, i ∈ buf.chunks) :
    (order.filterMap (fun i => buf.chunks.lookup i)).map Chunk.chunkIdx = order := by
  induction order with
  | nil => rfl
  | cons i rest ih =>
    obtain ⟨c, hc⟩ := mem_iff_lookup.mp (hsub i List.mem_cons_self)
    rw [List.filterMap_cons_some (f := fun i => buf.chunks.lookup i) hc, List.map_cons,
      (h i c hc).1, ih (fun j hj => hsub j (List.mem_cons_of_mem i hj))]

theorem MessageBuf.Filed.inOrder_indices {buf : MessageBuf} (h : buf.Filed) (hint : List UInt16) :
    (buf.inOrder hint).map Chunk.chunkIdx = rangeOrder hint buf.chunks :=
  h.indices (fun i hi => (mem_rangeOrder hint buf.chunks i).mp hi)

theorem MessageBuf.Filed.inOrder_length {buf : MessageBuf} (h : buf.Filed) (hint : List UInt16) :
    (buf.inOrder hint).length = buf.chunks.keys.length := by
  rw [← List.length_map Chunk.chunkIdx, h.inOrder_indices,
    (rangeOrder_perm hint buf.chunks).length_eq]

theorem MessageBuf.mem_inOrder {buf : MessageBuf} {hint : List UInt16} {c : Chunk}
    (hc : c ∈ buf.inOrder hint) : ∃ i, buf.chunks.lookup i = some c := by
  obtain ⟨i, -, hi⟩ := List.mem_filterMap.mp hc
  exact ⟨i, hi⟩

/-- Every stored chunk is the first one in some order. -/
theorem MessageBuf.exists_first {buf : MessageBuf} {i : UInt16} {c : Chunk}
    (hc : buf.chunks.lookup i = some c) : ∃ hint rest, buf.inOrder hint = c :: rest := by
  have hi : i ∈ buf.chunks := mem_iff_lookup.mpr ⟨c, hc⟩
  have horder : rangeOrder [i] buf.chunks = i :: buf.chunks.keys.filter (fun k => k ∉ [i]) := by
    simp [rangeOrder, hi]
  have hfirst := List.filterMap_cons_some (f := fun i => buf.chunks.lookup i)
    (l := buf.chunks.keys.filter (fun k => k ∉ [i])) hc
  exact ⟨[i], _, (congrArg (List.filterMap _) horder).trans hfirst⟩

/-- All indices are below the number of chunks. -/
def MessageBuf.Gapless (buf : MessageBuf) : Prop :=
  ∀ i ∈ buf.chunks, i.toNat < buf.chunks.keys.length

/-- The chunks of a buffer reassemble if the first of them announces their number and the
indices leave no gap. -/
theorem MessageBuf.Filed.reassembles_iff {buf : MessageBuf} (h : buf.Filed) {hint : List UInt16}
    {first : Chunk} {rest : List Chunk} (horder : buf.inOrder hint = first :: rest) :
    (∃ data, reassembleMessage (buf.inOrder hint) = .ok data) ↔
      buf.chunks.keys.length = first.totalChunks.toNat ∧ buf.Gapless := by
  have hlen := h.inOrder_length hint
  have hindex : (buf.inOrder hint).map Chunk.index =
      (rangeOrder hint buf.chunks).map UInt16.toNat := by
    rw [← h.inOrder_indices hint, List.map_map]
    rfl
  have hsums : ∀ c ∈ buf.inOrder hint, c.checksum = crc16 c.payload := by
    intro c hc
    obtain ⟨i, hi⟩ := MessageBuf.mem_inOrder hc
    exact (h i c hi).2
  have hperm : ((buf.inOrder hint).map Chunk.index).Perm (List.range (buf.inOrder hint).length) ↔
      buf.Gapless := by
    rw [hindex, hlen]
    constructor
    · intro hp i hi
      have hmem : i.toNat ∈ (rangeOrder hint buf.chunks).map UInt16.toNat :=
        List.mem_map_of_mem ((mem_rangeOrder hint buf.chunks i).mpr hi)
      exact List.mem_range.mp (hp.subset hmem)
    · intro hgapless
      apply perm_range_of_nodup
      · exact (rangeOrder_nodup hint buf.chunks).map (fun _ _ => UInt16.toNat.inj)
      · intro n hn
        obtain ⟨i, hi, rfl⟩ := List.mem_map.mp hn
        exact hgapless i ((mem_rangeOrder hint buf.chunks i).mp hi)
      · rw [List.length_map, (rangeOrder_perm hint buf.chunks).length_eq]
  rw [horder] at hlen hsums hperm ⊢
  constructor
  · intro hok
    obtain ⟨data, hdata⟩ := hok
    obtain ⟨htotal, hplaces, -⟩ := reassembleMessage_ok_iff.mp hdata
    exact ⟨hlen.symm.trans htotal, hperm.mp hplaces⟩
  · intro hok
    exact ⟨_, reassembleMessage_ok_iff.mpr ⟨hlen.trans hok.1, hperm.mpr hok.2, hsums, rfl⟩⟩

/-! ## The flag -/

/-- The flag of a call says whether `GetCompleteMessage` succeeds next, in any order of its
loop. -/
def FlagRight (s : ChunkStore) (call : StoreCall) : Prop :=
  ∀ hint, call.flag s = true ↔
    ∃ data, (call.after s).getCompleteMessage hint call.chunk.msgID = some (.ok data)

/-- By the total of the buffer the chunks are complete exactly when they are by the total of
each stored chunk. -/
def MessageBuf.Coherent (buf : MessageBuf) : Prop :=
  ∀ i c, buf.chunks.lookup i = some c →
    (buf.chunks.keys.length = buf.total.toNat ↔
      buf.chunks.keys.length = c.totalChunks.toNat ∧ buf.Gapless)

private theorem flagRight_iff {s : ChunkStore} (h : s.Filed) (call : StoreCall) :
    FlagRight s call ↔ (call.buffer s).Coherent := by
  have hfiled := h.buffer call
  have hcomplete : ∀ hint, (∃ data, (call.after s).getCompleteMessage hint call.chunk.msgID =
      some (.ok data)) ↔ ∃ data, reassembleMessage ((call.buffer s).inOrder hint) = .ok data := by
    intro hint
    simp only [ChunkStore.getCompleteMessage, call.lookup_after s, Option.map_some,
      Option.some.injEq]
    exact Iff.rfl
  constructor
  · intro hflag i c hc
    obtain ⟨hint, rest, horder⟩ := MessageBuf.exists_first hc
    rw [← call.flag_iff s, hflag hint, hcomplete hint, hfiled.reassembles_iff horder]
  · intro hcoherent hint
    rw [call.flag_iff s, hcomplete hint]
    cases horder : (call.buffer s).inOrder hint with
    | nil =>
      -- the chunk of the call is stored, so the loop finds at least one
      have hlen := hfiled.inOrder_length hint
      have hmem : call.chunk.chunkIdx ∈ (call.buffer s).chunks.keys :=
        AList.mem_keys.mp (mem_iff_lookup.mpr ⟨call.chunk, AList.lookup_insert _⟩)
      rw [horder] at hlen
      exact absurd (List.length_pos_of_mem hmem) (by rw [← hlen]; exact Nat.lt_irrefl 0)
    | cons first rest =>
      obtain ⟨i, hi⟩ := MessageBuf.mem_inOrder (horder ▸ List.mem_cons_self)
      rw [← horder, hfiled.reassembles_iff horder]
      exact hcoherent i first hi

/-! ## Messages with one total -/

/-- The chunk announces the total of its message and has an index below it. -/
def StoreCall.Announces (total : MsgID → UInt16) (call : StoreCall) : Prop :=
  call.chunk.totalChunks = total call.chunk.msgID ∧
    call.chunk.chunkIdx < total call.chunk.msgID

instance (total : MsgID → UInt16) (call : StoreCall) : Decidable (call.Announces total) :=
  inferInstanceAs (Decidable (_ ∧ _))

/-- So do all chunks of a buffer. -/
structure MessageBuf.Announces (total : UInt16) (buf : MessageBuf) : Prop where
  total_eq : buf.total = total
  chunks : ∀ i c, buf.chunks.lookup i = some c → c.totalChunks = total ∧ i < total

def ChunkStore.Announces (total : MsgID → UInt16) (s : ChunkStore) : Prop :=
  ∀ id buf, s.messages.lookup id = some buf → buf.Announces (total id)

theorem ChunkStore.Announces.buffer {total : MsgID → UInt16} {s : ChunkStore}
    (h : s.Announces total) {call : StoreCall} (hcall : call.Announces total) :
    (call.buffer s).Announces (total call.chunk.msgID) := by
  have hfound : (s.bufferFor call.chunk call.now call.commit).1.Announces
      (total call.chunk.msgID) := by
    unfold ChunkStore.bufferFor
    split
    next buf hbuf => exact h _ buf hbuf
    next => exact ⟨hcall.1, fun i c hc => by cases hc⟩
  refine ⟨hfound.total_eq, fun i c hc => ?_⟩
  rw [StoreCall.buffer, lookup_insert_ite] at hc
  split at hc
  next hi =>
    obtain rfl := Option.some.inj hc
    subst hi
    exact hcall
  next => exact hfound.chunks i c hc

theorem ChunkStore.Announces.storing {total : MsgID → UInt16} {s t : ChunkStore}
    (h : s.Announces total) {call : StoreCall} (hcall : call.Announces total)
    (hs : storing s call = some t) : t.Announces total := by
  obtain rfl := Option.some.inj hs
  intro id buf hbuf
  rcases StoreCall.lookup_after_cases hbuf with ⟨rfl, rfl⟩ | hbefore
  · exact h.buffer hcall
  · exact h id buf hbefore

/-- Chunks that all announce the buffer's total and stay below it are coherent. -/
theorem MessageBuf.Announces.coherent {buf : MessageBuf} {total : UInt16}
    (h : buf.Announces total) : buf.Coherent := by
  intro i c hc
  rw [(h.chunks i c hc).1, h.total_eq]
  constructor
  · intro hfull
    refine ⟨hfull, fun j hj => ?_⟩
    obtain ⟨d, hd⟩ := mem_iff_lookup.mp hj
    rw [hfull]
    exact UInt16.lt_iff_toNat_lt.mp (h.chunks j d hd).2
  · exact fun hfull => hfull.1

/-- In every sequence of calls in which the chunks of a message announce one total and have indices
below it, in any order and any number of times, every flag is right. -/
theorem completion_flag_right (ttl limit : Int) (sc : Option SequenceCounter)
    (total : MsgID → UInt16) (calls : List StoreCall)
    (hcalls : ∀ call ∈ calls, call.Announces total) :
    Meets storing FlagRight { newChunkStore ttl with maxPerPeer := limit, sequenceCounter := sc }
      calls := by
  have hstep : ∀ (s : ChunkStore) (call : StoreCall) (t : ChunkStore),
      s.Filed ∧ s.Announces total → call.Announces total → storing s call = some t →
      t.Filed ∧ t.Announces total := by
    rintro s call t ⟨hfiled, hannounces⟩ hcall hs
    exact ⟨hfiled.storing hs, hannounces.storing hcall hs⟩
  have hright : ∀ (s : ChunkStore) (call : StoreCall), s.Filed ∧ s.Announces total →
      call.Announces total → FlagRight s call := by
    rintro s call ⟨hfiled, hannounces⟩ hcall
    exact (flagRight_iff hfiled call).mpr (hannounces.buffer hcall).coherent
  refine meets_of_guarded hright hstep ⟨?_, ?_⟩ (meets_of_forall hcalls _)
  · intro id buf hbuf
    cases hbuf
  · intro id buf hbuf
    cases hbuf

theorem MessageBuf.inOrder_single {buf : MessageBuf} {i : UInt16} {c : Chunk}
    (hkeys : buf.chunks.keys = [i]) (hc : buf.chunks.lookup i = some c) (hint : List UInt16) :
    buf.inOrder hint = [c] := by
  have horder : rangeOrder hint buf.chunks = [i] :=
    List.perm_singleton.mp (hkeys ▸ rangeOrder_perm hint buf.chunks)
  rw [MessageBuf.inOrder, horder]
  exact List.filterMap_cons_some (f := fun i => buf.chunks.lookup i) hc

/-- A call with chunk `idx` of `total` without a payload. -/
def emptyChunkCall (idx total : UInt16) (h : total ≠ 0) : StoreCall where
  chunk := newChunk ⟨List.replicate 8 3, rfl⟩ idx total []
  now := 0
  commit := true
  announced := h
  valid := rfl

/-- The second chunk twice before the first. -/
def twoChunksBackwards : List StoreCall :=
  [emptyChunkCall 1 2 (by decide), emptyChunkCall 1 2 (by decide), emptyChunkCall 0 2 (by decide)]

theorem completion_flag_right_twoChunks :
    Meets storing FlagRight (newChunkStore 60) twoChunksBackwards := by
  have hcalls : ∀ call ∈ twoChunksBackwards, call.Announces (fun _ => 2) := by decide +kernel
  exact completion_flag_right 60 100 none (fun _ => 2) twoChunksBackwards hcalls

/-- The only chunk of a message has index five: the flag is set and nothing can be
reassembled. A chunk that replaces another announces itself alone: it can be reassembled
and the flag is not set. -/
theorem completion_flag_wrong :
    let stray := emptyChunkCall 5 1 (by decide)
    let first := emptyChunkCall 0 3 (by decide)
    let single := emptyChunkCall 0 1 (by decide)
    let start := newChunkStore 60
    (stray.flag start = true ∧ ∀ hint, (stray.after start).getCompleteMessage hint
      stray.chunk.msgID = some (.error (.indexOutOfRange 5))) ∧
    single.flag (first.after start) = false ∧ ∀ hint,
      (single.after (first.after start)).getCompleteMessage hint single.chunk.msgID =
        some (.ok []) := by
  intro stray first single start
  have hcomplete : ∀ (call : StoreCall) (s : ChunkStore),
      (call.buffer s).chunks.keys = [call.chunk.chunkIdx] → ∀ hint,
      (call.after s).getCompleteMessage hint call.chunk.msgID =
        some (reassembleMessage [call.chunk]) := by
    intro call s hkeys hint
    rw [ChunkStore.getCompleteMessage, call.lookup_after s, Option.map_some]
    congr 2
    exact MessageBuf.inOrder_single hkeys (AList.lookup_insert _) hint
  refine ⟨⟨by decide, fun hint => ?_⟩, by decide, fun hint => ?_⟩
  · rw [hcomplete stray start rfl]
    rfl
  · rw [hcomplete single (first.after start) rfl]
    decide +kernel

end VRGram.Store
