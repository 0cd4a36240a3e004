import VRGram.Lib.Expiring
import VRGram.Lib.Machine
import VRGram.Store.ChunkStore

/-!
# The chunk store as a last-writer map with expiry

What the store is for: a message lives from the first chunk stored under its id until a
`gc` pass finds it too old, and a reader gets the chunk that was stored last under an index
in that time. Runs of `Store` and `gc` at any times refine this.
-/
namespace VRGram.Store

open VRGram.Lib.Expiring VRGram.Lib.Maps VRGram.Lib.Machine VRGram.Lib.Strings VRGram.Encoding

set_option autoImplicit false

inductive StoreOp where
  | store (chunk : Chunk) (now : Int) (commit : Bool)
  | gc (hint : List MsgID) (now : Int)

def applyOp (s : ChunkStore) : StoreOp → Option ChunkStore
  | .store chunk now commit => some (s.store chunk now commit).2
  | .gc hint now => some (s.gc hint now)

/-- The same operations on the history. -/
def recordOp (ttl : Int) (h : History MsgID Chunk) : StoreOp → History MsgID Chunk
  | .store chunk now _ => write h now chunk.msgID chunk
  | .gc _ now => sweep h ttl now

def written (ttl : Int) (ops : List StoreOp) : History MsgID Chunk :=
  ops.foldl (recordOp ttl) (fun _ => none)

/-- The chunk stored last under an index. -/
def lastAt (i : UInt16) (life : Lifetime Chunk) : Option Chunk :=
  life.latest (fun c => c.chunkIdx = i)

/-! ## The store represents its history -/

/-- A buffer holds the last writes of a message. -/
structure Keeps (buf : MessageBuf) (life : Lifetime Chunk) : Prop where
  born : buf.createdAt = life.born
  chunks : ∀ i, buf.chunks.lookup i = lastAt i life

structure Represents (ttl : Int) (s : ChunkStore) (h : History MsgID Chunk) : Prop where
  ttl : s.ttl = ttl
  messages : ∀ id, Option.Rel Keeps (s.messages.lookup id) (h id)

section

variable {ttl : Int} {s : ChunkStore} {h : History MsgID Chunk}

theorem Represents.mem (hr : Represents ttl s h) {id : MsgID} (hid : id ∈ s.messages) :
    ∃ buf life, s.messages.lookup id = some buf ∧ h id = some life ∧ Keeps buf life := by
  obtain ⟨buf, hbuf⟩ := mem_iff_lookup.mp hid
  have hrel := hr.messages id
  rw [hbuf] at hrel
  cases hlife : h id with
  | none =>
    rw [hlife] at hrel
    cases hrel
  | some life =>
    rw [hlife] at hrel
    cases hrel with
    | some hkeeps => exact ⟨buf, life, hbuf, rfl, hkeeps⟩

/-- The buffer that a chunk goes to, before it does. -/
theorem Represents.bufferFor (hr : Represents ttl s h) (chunk : Chunk) (now : Int)
    (commit : Bool) :
    (s.bufferFor chunk now commit).1.createdAt = (extend now chunk (h chunk.msgID)).born ∧
      ∀ i, (s.bufferFor chunk now commit).1.chunks.lookup i = (h chunk.msgID).bind (lastAt i) := by
  have hrel := hr.messages chunk.msgID
  unfold ChunkStore.bufferFor
  cases hm : s.messages.lookup chunk.msgID with
  | none =>
    cases hlife : h chunk.msgID with
    | none => exact ⟨rfl, fun i => rfl⟩
    | some life =>
      rw [hm, hlife] at hrel
      cases hrel
  | some buf =>
    cases hlife : h chunk.msgID with
    | none =>
      rw [hm, hlife] at hrel
      cases hrel
    | some life =>
      rw [hm, hlife] at hrel
      cases hrel with
      | some hkeeps => exact ⟨hkeeps.born, hkeeps.chunks⟩

/-- A stored chunk goes on top of what the buffer keeps. -/
theorem Represents.store (hr : Represents ttl s h) (chunk : Chunk) (now : Int) (commit : Bool) :
    Represents ttl (s.store chunk now commit).2 (write h now chunk.msgID chunk) := by
  refine ⟨hr.ttl, fun id => ?_⟩
  by_cases hid : id = chunk.msgID
  · subst hid
    obtain ⟨hborn, hchunks⟩ := hr.bufferFor chunk now commit
    rw [write_self, ChunkStore.store, AList.lookup_insert]
    refine Option.Rel.some ⟨hborn, fun i => ?_⟩
    rw [lookup_insert_ite, hchunks, lastAt, latest_extend]
    by_cases hi : i = chunk.chunkIdx
    · simp [hi]
    · rw [if_neg hi, if_neg (by simpa using Ne.symm hi)]
      rfl
  · rw [store_lookup_ne s hid, write_ne h now hid]
    exact hr.messages id

private theorem gcVisits_ttl (now : Int) (rest : List MsgID) (s : ChunkStore) :
    (rest.foldl (ChunkStore.gcVisit now) s).ttl = s.ttl := by
  induction rest generalizing s with
  | nil => rfl
  | cons id rest ih => rw [List.foldl_cons, ih, gcVisit_ttl]

theorem Represents.expired_iff (hr : Represents ttl s h) {buf : MessageBuf} {life : Lifetime Chunk}
    (hkeeps : Keeps buf life) (now : Int) : s.Expired now buf ↔ life.Old ttl now := by
  rw [ChunkStore.Expired, Lifetime.Old, hr.ttl, hkeeps.born]

theorem Represents.gc (hr : Represents ttl s h) (hint : List MsgID) (now : Int) :
    Represents ttl (s.gc hint now) (sweep h ttl now) := by
  refine ⟨(gcVisits_ttl now _ s).trans hr.ttl, fun id => ?_⟩
  have hrel := hr.messages id
  rw [gc_lookup, sweep]
  cases hm : s.messages.lookup id with
  | none =>
    rw [hm] at hrel
    generalize h id = life at hrel
    cases hrel
    exact Option.Rel.none
  | some buf =>
    obtain ⟨buf', life, hbuf, hlife, hkeeps⟩ := hr.mem (mem_iff_lookup.mpr ⟨buf, hm⟩)
    obtain rfl := Option.some.inj (hm.symm.trans hbuf)
    have hage := hr.expired_iff hkeeps now
    rw [hlife]
    by_cases hold : life.Old ttl now
    · simp only [Option.filter, hage, hold, not_true_eq_false, decide_false]
      exact Option.Rel.none
    · simp only [Option.filter, hage, hold, not_false_eq_true, decide_true]
      exact Option.Rel.some hkeeps

theorem Represents.step (hr : Represents ttl s h) {op : StoreOp} {t : ChunkStore}
    (ht : applyOp s op = some t) : Represents ttl t (recordOp ttl h op) := by
  cases op with
  | store chunk now commit =>
    obtain rfl := Option.some.inj ht
    exact hr.store chunk now commit
  | gc hint now =>
    obtain rfl := Option.some.inj ht
    exact hr.gc hint now

theorem Represents.getChunk (hr : Represents ttl s h) (id : MsgID) (i : UInt16) :
    s.getChunk id i = (h id).bind (lastAt i) := by
  have hrel := hr.messages id
  rw [ChunkStore.getChunk]
  generalize s.messages.lookup id = found at hrel
  generalize h id = life at hrel
  cases hrel with
  | none => rfl
  | some hkeeps => exact hkeeps.chunks i

/-- An operation removes a message only as a `gc` pass that finds it too old. -/
theorem Represents.removed (hr : Represents ttl s h) {op : StoreOp} {t : ChunkStore}
    (ht : applyOp s op = some t) {id : MsgID} (hid : id ∈ s.messages) (hgone : id ∉ t.messages) :
    ∃ hint now life, op = .gc hint now ∧ h id = some life ∧ life.Old ttl now := by
  cases op with
  | store chunk now commit =>
    obtain rfl := Option.some.inj ht
    exact absurd ((mem_store_messages s chunk now commit id).mpr (Or.inr hid)) hgone
  | gc hint now =>
    obtain rfl := Option.some.inj ht
    obtain ⟨buf, life, hbuf, hlife, hkeeps⟩ := hr.mem hid
    refine ⟨hint, now, life, rfl, hlife, ?_⟩
    by_contra hyoung
    have hkept : (s.gc hint now).messages.lookup id = some buf :=
      gc_lookup_eq_some.mpr ⟨hbuf, fun hx => hyoung ((hr.expired_iff hkeeps now).mp hx)⟩
    exact hgone (mem_iff_lookup.mpr ⟨buf, hkept⟩)

/-- What a `gc` pass leaves is young. -/
theorem Represents.young (hr : Represents ttl s h) {hint : List MsgID} {now : Int} {id : MsgID}
    (hid : id ∈ (s.gc hint now).messages) : ∃ life, h id = some life ∧ ¬ life.Old ttl now := by
  obtain ⟨-, life, -, hlife, -⟩ := (hr.gc hint now).mem hid
  obtain ⟨hbefore, hyoung⟩ := sweep_eq_some.mp hlife
  exact ⟨life, hbefore, hyoung⟩

end

/-! ## A stored message keeps its stamp -/

theorem gc_lookup_of_mem {s : ChunkStore} {hint : List MsgID} {now : Int} {id : MsgID}
    (hid : id ∈ (s.gc hint now).messages) :
    (s.gc hint now).messages.lookup id = s.messages.lookup id := by
  obtain ⟨buf, hbuf⟩ := mem_iff_lookup.mp hid
  rw [hbuf, (gc_lookup_eq_some.mp hbuf).1]

private theorem getMessageMeta_step {s t : ChunkStore} {op : StoreOp} (hs : applyOp s op = some t)
    {id : MsgID} (hbefore : id ∈ s.messages) (hafter : id ∈ t.messages) :
    t.getMessageMeta id = s.getMessageMeta id := by
  cases op with
  | store chunk now commit =>
    obtain rfl := Option.some.inj hs
    by_cases hid : id = chunk.msgID
    · subst hid
      obtain ⟨buf, hbuf⟩ := mem_iff_lookup.mp hbefore
      simp only [ChunkStore.getMessageMeta, ChunkStore.store, AList.lookup_insert,
        ChunkStore.bufferFor, hbuf, Option.map_some]
    · rw [ChunkStore.getMessageMeta, store_lookup_ne s hid, ChunkStore.getMessageMeta]
  | gc hint now =>
    obtain rfl := Option.some.inj hs
    rw [ChunkStore.getMessageMeta, gc_lookup_of_mem hafter, ChunkStore.getMessageMeta]

private theorem getMessageMeta_run {s t : ChunkStore} {ops : List StoreOp} {id : MsgID}
    (hstored : Meets applyOp (fun u _ => id ∈ u.messages) s ops) (hr : run applyOp s ops = some t)
    (hafter : id ∈ t.messages) : t.getMessageMeta id = s.getMessageMeta id := by
  induction ops generalizing s with
  | nil =>
    obtain rfl := Option.some.inj hr
    rfl
  | cons op rest ih =>
    obtain ⟨u, hu, hrest⟩ := run_cons.mp hr
    have hnext := hstored.2 u hu
    have hmem : id ∈ u.messages := by
      cases rest with
      | nil =>
        obtain rfl := Option.some.inj hrest
        exact hafter
      | cons _ _ => exact hnext.1
    rw [ih hnext hrest, getMessageMeta_step hu hstored.1 hmem]

/-! ## The refinement -/

/-- In every run of `Store` and `gc`: a reader gets the chunk stored last since the message
came to life; the stamp of a message stays while it is stored; no operation changes another
message; only a `gc` pass removes a message, one that is too old; and it leaves none that is. -/
theorem chunkStore_refines (ttl limit : Int) (sc : Option SequenceCounter) (ops : List StoreOp)
    (s : ChunkStore)
    (hrun : run applyOp { newChunkStore ttl with maxPerPeer := limit, sequenceCounter := sc } ops =
      some s) :
    (∀ id i, s.getChunk id i = (written ttl ops id).bind (lastAt i)) ∧
    (∀ id later t, Meets applyOp (fun u _ => id ∈ u.messages) s later →
      run applyOp s later = some t → id ∈ t.messages →
      t.getMessageMeta id = s.getMessageMeta id) ∧
    (∀ chunk now commit id, id ≠ chunk.msgID →
      (s.store chunk now commit).2.messages.lookup id = s.messages.lookup id) ∧
    (∀ hint now id, id ∈ (s.gc hint now).messages →
      (s.gc hint now).messages.lookup id = s.messages.lookup id) ∧
    (∀ op t id, applyOp s op = some t → id ∈ s.messages → id ∉ t.messages →
      ∃ hint now life, op = .gc hint now ∧ written ttl ops id = some life ∧ life.Old ttl now) ∧
    (∀ hint now id, id ∈ (s.gc hint now).messages →
      ∃ life, written ttl ops id = some life ∧ ¬ life.Old ttl now) := by
  have hstart : Represents ttl
      { newChunkStore ttl with maxPerPeer := limit, sequenceCounter := sc } (fun _ => none) :=
    ⟨rfl, fun _ => Option.Rel.none⟩
  have hr : Represents ttl s (written ttl ops) :=
    run_history (fun _ _ _ _ h hs => h.step hs) hstart hrun
  exact ⟨hr.getChunk, fun _ _ _ hstored hlater hafter => getMessageMeta_run hstored hlater hafter,
    fun chunk now commit id hid => store_lookup_ne s hid now commit,
    fun _ _ _ hid => gc_lookup_of_mem hid, fun _ _ _ hs hid hgone => hr.removed hs hid hgone,
    fun _ _ _ hid => hr.young hid⟩

/-- A message that expired and came to life again has nothing of its former life. -/
theorem chunkStore_refines_recreated :
    let id : MsgID := ⟨List.replicate 8 4, rfl⟩
    let ops : List StoreOp := [.store (newChunk id 0 2 [1]) 0 true, .gc [] 100,
      .store (newChunk id 1 2 [2]) 101 true]
    ∃ s, run applyOp { newChunkStore 60 with maxPerPeer := 100, sequenceCounter := none } ops =
        some s ∧ s.getChunk id 0 = none ∧ s.getChunk id 1 = some (newChunk id 1 2 [2]) := by
  intro id ops
  refine ⟨_, rfl, ?_, ?_⟩
  · rw [(chunkStore_refines 60 100 none ops _ rfl).1 id 0]
    decide +kernel
  · rw [(chunkStore_refines 60 100 none ops _ rfl).1 id 1]
    decide +kernel

end VRGram.Store
