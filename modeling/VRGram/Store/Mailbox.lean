import Mathlib.Data.Set.Finite.Lattice
import VRGram.Encoding.Labels
import VRGram.Store.Accounting

/-!
# Mailbox entries and stored messages

A store request runs `Store` and then `SetMessageOwner`, with no lock held in between.
A pass of `gc` that deletes the message in that gap leaves an owner entry that no
later pass can find, because a pass walks `messages` only. Runs in which no pass
deletes a message with a request in the gap keep every owner entry backed by a
stored message.
-/
namespace VRGram.Store

open VRGram.Lib.Maps VRGram.Lib.Strings VRGram.Lib.Machine VRGram.Encoding

set_option autoImplicit false

/-- The store with the requests that stand between `Store` and `SetMessageOwner`. -/
structure Handlers where
  shared : Shared
  inFlight : List (MsgID × Bytes)

/-- A request enters the gap when its chunk names a recipient, and leaves it by
`SetMessageOwner`. -/
def Handlers.step (s : Handlers) (a : Action) : Option Handlers :=
  (s.shared.step a).bind (fun shared =>
    match a with
    | .store chunk _ _ =>
      some ⟨shared, if chunk.recipientHash.length > 0
        then (chunk.msgID, b32 chunk.recipientHash) :: s.inFlight else s.inFlight⟩
    | .setMessageOwner id peerID =>
      if (id, peerID) ∈ s.inFlight then some ⟨shared, s.inFlight.erase (id, peerID)⟩ else none
    | _ => some ⟨shared, s.inFlight⟩)

/-- The message whose buffer this step deletes. -/
def Shared.deletes (s : Shared) : Action → Option MsgID
  | .gcVisit =>
    match s.gc with
    | .scanning now (id :: _) => if s.store.Overdue now id then some id else none
    | _ => none
  | _ => none

/-- The step deletes no message that a request in the gap is about. -/
def Handlers.Spares (s : Handlers) (a : Action) : Prop :=
  ∀ e ∈ s.inFlight, s.shared.deletes a ≠ some e.1

instance (s : Handlers) (a : Action) : Decidable (s.Spares a) :=
  inferInstanceAs (Decidable (∀ e ∈ s.inFlight, s.shared.deletes a ≠ some e.1))

private theorem handlers_step_shared {s t : Handlers} {a : Action} (h : s.step a = some t) :
    s.shared.step a = some t.shared := by
  rw [Handlers.step, Option.bind_eq_some_iff] at h
  obtain ⟨shared, hs, ht⟩ := h
  cases a with
  | setMessageOwner id peerID =>
    simp only at ht
    split at ht
    · obtain rfl := Option.some.inj ht
      exact hs
    · cases ht
  | _ =>
    obtain rfl := Option.some.inj ht
    exact hs

/-- A request in the gap after a step was there before, or is the one that just stored. -/
theorem mem_inFlight_step {s t : Handlers} {a : Action} (h : s.step a = some t)
    {e : MsgID × Bytes} (he : e ∈ t.inFlight) :
    e ∈ s.inFlight ∨ ∃ chunk now commit, a = .store chunk now commit ∧ e.1 = chunk.msgID := by
  rw [Handlers.step, Option.bind_eq_some_iff] at h
  obtain ⟨shared, hs, ht⟩ := h
  cases a with
  | store chunk now commit =>
    obtain rfl := Option.some.inj ht
    simp only at he
    split at he
    · rcases List.mem_cons.mp he with rfl | hm
      · exact Or.inr ⟨chunk, now, commit, rfl, rfl⟩
      · exact Or.inl hm
    · exact Or.inl he
  | setMessageOwner id peerID =>
    simp only at ht
    split at ht
    · obtain rfl := Option.some.inj ht
      exact Or.inl (List.mem_of_mem_erase he)
    · cases ht
  | _ =>
    obtain rfl := Option.some.inj ht
    exact Or.inl he

private theorem owner_step_inFlight {s t : Handlers} {id : MsgID} {peerID : Bytes}
    (h : s.step (.setMessageOwner id peerID) = some t) : (id, peerID) ∈ s.inFlight := by
  rw [Handlers.step, Option.bind_eq_some_iff] at h
  obtain ⟨shared, hs, ht⟩ := h
  simp only at ht
  split at ht
  · assumption
  · cases ht

/-! ## Owner entries are backed by buffers -/

/-- Every owner entry has its buffer, except the one a pass is about to forget, and
no buffer is empty. -/
structure Backed (s : Shared) : Prop where
  owned : ∀ id ∈ s.store.messageOwner, id ∈ s.store.messages ∨ ∃ now rest, s.gc = .dropping now rest id
  filled : ∀ id buf, s.store.messages.lookup id = some buf → ∃ i c, buf.chunks.lookup i = some c

/-- Outside the gap between a pass's two deletions every owner entry has its buffer. -/
theorem Backed.mem_messages {s : Shared} (h : Backed s)
    (hg : ∀ now rest id, s.gc ≠ .dropping now rest id) {id : MsgID}
    (hid : id ∈ s.store.messageOwner) : id ∈ s.store.messages := by
  rcases h.owned id hid with hm | ⟨now, rest, hd⟩
  · exact hm
  · exact absurd hd (hg now rest id)

private theorem backed_step {s t : Shared} {a : Action} (h : Backed s) (hs : s.step a = some t)
    (howner : ∀ id peerID, a = .setMessageOwner id peerID → id ∈ s.store.messages) : Backed t := by
  cases step_cases hs with
  | store chunk now commit hg =>
    constructor
    · intro j hj
      exact Or.inl ((mem_store_messages _ _ _ _ _).mpr (Or.inr (h.mem_messages (by simp [hg]) hj)))
    · intro j buf hb
      by_cases hj : j = chunk.msgID
      · subst hj
        simp only [ChunkStore.store, AList.lookup_insert] at hb
        obtain rfl := Option.some.inj hb
        exact ⟨chunk.chunkIdx, chunk, AList.lookup_insert _⟩
      · rw [store_lookup_ne _ hj] at hb
        exact h.filled j buf hb
  | setMessageOwner id peerID =>
    have hid := howner id peerID rfl
    constructor
    · intro j hj
      simp only [setMessageOwner_messages]
      obtain ⟨p, hp⟩ := mem_iff_lookup.mp hj
      rw [setMessageOwner_owner] at hp
      split at hp
      next hc => exact Or.inl (hc.1 ▸ hid)
      next => exact h.owned j (mem_iff_lookup.mpr ⟨p, hp⟩)
    · intro j buf hb
      rw [setMessageOwner_messages] at hb
      exact h.filled j buf hb
  | gcBegin now hint hg => exact ⟨fun j hj => Or.inl (h.mem_messages (by simp [hg]) hj), h.filled⟩
  | drop now id rest buf hg hl he =>
    -- The buffer goes now and its owner entry in the next section of the pass.
    constructor
    · intro j hj
      by_cases hj' : j = id
      · exact Or.inr ⟨now, rest, by rw [hj']⟩
      · exact Or.inl (AList.mem_erase.mpr ⟨hj', h.mem_messages (by simp [hg]) hj⟩)
    · intro j b hb
      exact h.filled j b (lookup_erase_eq_some.mp hb).2
  | keep now id rest hg he =>
    exact ⟨fun j hj => Or.inl (h.mem_messages (by simp [hg]) hj), h.filled⟩
  | gcOwner now rest id hg =>
    constructor
    · intro j hj
      obtain ⟨p, hp⟩ := mem_iff_lookup.mp hj
      rw [dropOwner_owner] at hp
      split at hp
      next => cases hp
      next hne =>
        rcases h.owned j (mem_iff_lookup.mpr ⟨p, hp⟩) with hm | ⟨now', rest', hd⟩
        · exact Or.inl (by rw [dropOwner_messages]; exact hm)
        · rw [hg] at hd
          cases hd
          exact absurd rfl hne
    · intro j b hb
      rw [dropOwner_messages] at hb
      exact h.filled j b hb
  | gcEnd now hg => exact ⟨fun j hj => Or.inl (h.mem_messages (by simp [hg]) hj), h.filled⟩

/-- A stored message stays unless the step deletes it. -/
theorem mem_messages_step {s t : Shared} {a : Action} (hs : s.step a = some t) {id : MsgID}
    (hid : id ∈ s.store.messages) (hd : s.deletes a ≠ some id) : id ∈ t.store.messages := by
  cases step_cases hs with
  | store chunk now commit hg => exact (mem_store_messages _ _ _ _ _).mpr (Or.inr hid)
  | setMessageOwner j peerID =>
    simp only [setMessageOwner_messages]
    exact hid
  | drop now j rest buf hg hl he =>
    have hov : s.store.Overdue now j := by simp [ChunkStore.Overdue, hl, he]
    have hdel : s.deletes .gcVisit = some j := by simp [Shared.deletes, hg, hov]
    refine AList.mem_erase.mpr ⟨?_, hid⟩
    intro hj
    exact hd (hj ▸ hdel)
  | gcOwner now rest j hg =>
    simp only [dropOwner_messages]
    exact hid
  | _ => exact hid

/-- The invariant of the guarded machine: requests in the gap still have their message. -/
structure NoGhosts (s : Handlers) : Prop where
  flying : ∀ e ∈ s.inFlight, e.1 ∈ s.shared.store.messages
  backed : Backed s.shared

private theorem noGhosts_step {s t : Handlers} {a : Action} (h : NoGhosts s) (hok : s.Spares a)
    (hs : s.step a = some t) : NoGhosts t := by
  have hshared := handlers_step_shared hs
  constructor
  · intro e he
    rcases mem_inFlight_step hs he with hold | ⟨chunk, now, commit, rfl, hid⟩
    · exact mem_messages_step hshared (h.flying e hold) (hok e hold)
    · generalize t.shared = u at hshared ⊢
      cases step_cases hshared with
      | store chunk now commit hg =>
        rw [hid]
        exact (mem_store_messages _ _ _ _ _).mpr (Or.inl rfl)
  · refine backed_step h.backed hshared ?_
    intro id peerID ha
    subst ha
    exact h.flying _ (owner_step_inFlight hs)

/-- The state of a relay that has just started. -/
def Handlers.start (ttl limit : Int) (sc : Option SequenceCounter) : Handlers :=
  ⟨⟨{ newChunkStore ttl with maxPerPeer := limit, sequenceCounter := sc }, .idle⟩, []⟩

private theorem noGhosts_start (ttl limit : Int) (sc : Option SequenceCounter) :
    NoGhosts (Handlers.start ttl limit sc) := by
  refine ⟨?_, ?_, ?_⟩
  · intro e he; cases he
  · intro id hid; exact absurd hid (AList.notMem_empty id)
  · intro id buf hb; cases hb

/-- Some time is past the expiry of everything stored. -/
theorem exists_all_overdue (s : ChunkStore) :
    ∃ late, ∀ now, late ≤ now → ∀ id ∈ s.messages, s.Overdue now id := by
  obtain ⟨bound, hb⟩ :=
    ((s.messages.entries.map (fun e => e.2.createdAt)).toFinset : Finset Int).bddAbove
  refine ⟨bound + s.ttl + 1, ?_⟩
  intro now hnow id hid
  obtain ⟨buf, hl⟩ := mem_iff_lookup.mp hid
  have hmem : buf.createdAt ≤ bound := by
    apply hb
    rw [Finset.mem_coe, List.mem_toFinset, List.mem_map]
    exact ⟨⟨id, buf⟩, AList.mem_lookup_iff.mp hl, rfl⟩
  have he : s.Expired now buf := by
    unfold ChunkStore.Expired
    omega
  simp [ChunkStore.Overdue, hl, he]

/-- In every interleaving of request handlers and passes of `gc` in which no pass
deletes a message while one of its requests is in the gap, whenever no pass stands
between its two deletions: every owner entry has its message, a POLL lists only
messages with a stored chunk, and every pass from some time on clears all owner
entries. -/
theorem no_ghost_mailbox_entries (ttl limit : Int) (sc : Option SequenceCounter)
    (actions : List Action) (t : Handlers)
    (hr : run Handlers.step (Handlers.start ttl limit sc) actions = some t)
    (hok : Meets Handlers.step Handlers.Spares (Handlers.start ttl limit sc) actions)
    (hgc : ∀ now rest id, t.shared.gc ≠ .dropping now rest id) :
    (∀ id ∈ t.shared.store.messageOwner, id ∈ t.shared.store.messages) ∧
    (∀ hint peerID, ∀ id ∈ t.shared.store.listPeerMessages hint peerID,
      ∃ i c, t.shared.store.getChunk id i = some c) ∧
    ∃ late, ∀ now hint, late ≤ now → ∀ id, id ∉ (t.shared.store.gc hint now).messageOwner := by
  have h : NoGhosts t :=
    run_guarded (fun s a s' hi ha hs => noGhosts_step hi ha hs) (noGhosts_start ttl limit sc) hok hr
  have howned : ∀ id ∈ t.shared.store.messageOwner, id ∈ t.shared.store.messages := by
    intro id hid
    rcases h.backed.owned id hid with hm | ⟨now, rest, hd⟩
    · exact hm
    · exact absurd hd (hgc now rest id)
  refine ⟨howned, ?_, ?_⟩
  · intro hint peerID id hid
    have hm := howned id (mem_iff_lookup.mpr ⟨_, mem_listPeerMessages.mp hid⟩)
    obtain ⟨buf, hl⟩ := mem_iff_lookup.mp hm
    obtain ⟨i, c, hc⟩ := h.backed.filled id buf hl
    exact ⟨i, c, by rw [ChunkStore.getChunk, hl]; exact hc⟩
  · obtain ⟨late, hlate⟩ := exists_all_overdue t.shared.store
    refine ⟨late, ?_⟩
    intro now hint hnow id hid
    obtain ⟨p, hp⟩ := mem_iff_lookup.mp hid
    rw [gc_owner] at hp
    split at hp
    · cases hp
    · rename_i hover
      exact hover (hlate now hnow id (howned id (mem_iff_lookup.mpr ⟨p, hp⟩)))

/-- One request that completes, and a pass that finds its message too young. -/
def youngMessage (chunk : Chunk) : List Action :=
  [.store chunk 0 true, .setMessageOwner chunk.msgID (b32 chunk.recipientHash), .gcBegin 5 [],
    .gcVisit, .gcEnd]

theorem no_ghost_mailbox_entries_youngMessage :
    let chunk : Chunk :=
      { newChunk ⟨List.replicate 8 1, rfl⟩ 0 1 [] with recipientHash := List.replicate 32 7 }
    ∃ t : Handlers, run Handlers.step (Handlers.start 10 100 none) (youngMessage chunk) = some t ∧
      chunk.msgID ∈ t.shared.store.messageOwner ∧
      ∀ id ∈ t.shared.store.messageOwner, id ∈ t.shared.store.messages := by
  intro chunk
  refine ⟨_, rfl, by decide, ?_⟩
  exact (no_ghost_mailbox_entries 10 100 none (youngMessage chunk) _ rfl (by decide)
    (by intro now rest id h; cases h)).1

/-- A request for the second chunk of a message that is already overdue: the pass runs
in its gap. -/
def lateChunk (first late : Chunk) : List Action :=
  [.store first 0 true, .setMessageOwner first.msgID (b32 first.recipientHash),
    .store late 20 true, .gcBegin 20 [], .gcVisit, .gcOwner, .gcEnd,
    .setMessageOwner late.msgID (b32 late.recipientHash)]

/-- After that run nothing is in the gap, the message is listed although it is gone,
and no pass at any time removes the entry. -/
theorem lateChunk_ghost :
    let chunk (i : UInt16) : Chunk :=
      { newChunk ⟨List.replicate 8 1, rfl⟩ i 2 [] with recipientHash := List.replicate 32 7 }
    ∃ t : Handlers,
      run Handlers.step (Handlers.start 10 100 none) (lateChunk (chunk 0) (chunk 1)) = some t ∧
      t.inFlight = [] ∧ t.shared.gc = .idle ∧
      (chunk 0).msgID ∈ t.shared.store.listPeerMessages [] (b32 (List.replicate 32 7)) ∧
      (chunk 0).msgID ∉ t.shared.store.messages ∧
      ∀ hint now, (chunk 0).msgID ∈ (t.shared.store.gc hint now).messageOwner := by
  intro chunk
  refine ⟨_, rfl, by decide, rfl, by decide, by decide, ?_⟩
  intro hint now
  refine mem_iff_lookup.mpr ⟨b32 (List.replicate 32 7), ?_⟩
  rw [gc_owner, if_neg]
  · decide
  · intro hover
    exact absurd (mem_of_overdue hover) (by decide)

end VRGram.Store
