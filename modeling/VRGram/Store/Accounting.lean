import VRGram.Lib.Machine
import VRGram.Store.ChunkStore

/-!
# Interleaved store operations and the mailbox accounts

`Store` and `gc` exclude each other through `mu`, but `SetMessageOwner` holds only
`peerMu`, so it can run between any two sections of a `gc` pass. The machine below
takes one critical section per step: a pass deletes a message in one step and its
owner entry in another. The accounts hold after every step of every run.
-/
namespace VRGram.Store

open VRGram.Lib.Maps VRGram.Lib.Strings VRGram.Lib.Machine VRGram.Encoding

set_option autoImplicit false

/-- Where a pass of `gc` stands: between two messages, or past `delete(s.messages, id)`
and before the section under `peerMu`. -/
inductive GcPhase where
  | idle
  | scanning (now : Int) (rest : List MsgID)
  | dropping (now : Int) (rest : List MsgID) (id : MsgID)

structure Shared where
  store : ChunkStore
  gc : GcPhase

inductive Action where
  | store (chunk : Chunk) (now : Int) (commit : Bool)
  | setMessageOwner (id : MsgID) (peerID : Bytes)
  | gcBegin (now : Int) (hint : List MsgID)
  | gcVisit
  | gcOwner
  | gcEnd

/-- One critical section. Anything that needs `mu` waits while a pass is under way. -/
def Shared.step (s : Shared) : Action → Option Shared
  | .store chunk now commit =>
    match s.gc with
    | .idle => some { s with store := (s.store.store chunk now commit).2 }
    | _ => none
  | .setMessageOwner id peerID => some { s with store := s.store.setMessageOwner id peerID }
  | .gcBegin now hint =>
    match s.gc with
    | .idle => some { s with gc := .scanning now (rangeOrder hint s.store.messages) }
    | _ => none
  | .gcVisit =>
    match s.gc with
    | .scanning now (id :: rest) =>
      match s.store.messages.lookup id with
      | none => some { s with gc := .scanning now rest }
      | some buf =>
        if s.store.Expired now buf then
          some { store := s.store.dropMessage id, gc := .dropping now rest id }
        else some { s with gc := .scanning now rest }
    | _ => none
  | .gcOwner =>
    match s.gc with
    | .dropping now rest id => some { store := s.store.dropOwner id, gc := .scanning now rest }
    | _ => none
  | .gcEnd =>
    match s.gc with
    | .scanning _ [] => some { s with gc := .idle }
    | _ => none

/-- What a step can do to the store. -/
inductive SharedStep (s : Shared) : Action → Shared → Prop
  | store (chunk : Chunk) (now : Int) (commit : Bool) (hg : s.gc = .idle) :
      SharedStep s (.store chunk now commit)
        { s with store := (s.store.store chunk now commit).2 }
  | setMessageOwner (id : MsgID) (peerID : Bytes) :
      SharedStep s (.setMessageOwner id peerID)
        { s with store := s.store.setMessageOwner id peerID }
  | gcBegin (now : Int) (hint : List MsgID) (hg : s.gc = .idle) :
      SharedStep s (.gcBegin now hint)
        { s with gc := .scanning now (rangeOrder hint s.store.messages) }
  | drop (now : Int) (id : MsgID) (rest : List MsgID) (buf : MessageBuf)
      (hg : s.gc = .scanning now (id :: rest)) (hl : s.store.messages.lookup id = some buf)
      (he : s.store.Expired now buf) :
      SharedStep s .gcVisit { store := s.store.dropMessage id, gc := .dropping now rest id }
  | keep (now : Int) (id : MsgID) (rest : List MsgID) (hg : s.gc = .scanning now (id :: rest))
      (he : ∀ buf, s.store.messages.lookup id = some buf → ¬ s.store.Expired now buf) :
      SharedStep s .gcVisit { s with gc := .scanning now rest }
  | gcOwner (now : Int) (rest : List MsgID) (id : MsgID) (hg : s.gc = .dropping now rest id) :
      SharedStep s .gcOwner { store := s.store.dropOwner id, gc := .scanning now rest }
  | gcEnd (now : Int) (hg : s.gc = .scanning now []) : SharedStep s .gcEnd { s with gc := .idle }

theorem step_cases {s t : Shared} {a : Action} (h : s.step a = some t) : SharedStep s a t := by
  cases a with
  | store chunk now commit =>
    simp only [Shared.step] at h
    split at h <;> cases h
    next hg => exact .store chunk now commit hg
  | setMessageOwner id peerID =>
    cases h
    exact .setMessageOwner id peerID
  | gcBegin now hint =>
    simp only [Shared.step] at h
    split at h <;> cases h
    next hg => exact .gcBegin now hint hg
  | gcVisit =>
    simp only [Shared.step] at h
    split at h
    next now id rest hg =>
      split at h
      next hl =>
        cases h
        refine .keep now id rest hg (fun buf hb => ?_)
        rw [hl] at hb
        cases hb
      next buf hl =>
        split_ifs at h with he <;> cases h
        · exact .drop now id rest buf hg hl he
        · refine .keep now id rest hg (fun b hb => ?_)
          obtain rfl := Option.some.inj (hl.symm.trans hb)
          exact he
    next => cases h
  | gcOwner =>
    simp only [Shared.step] at h
    split at h <;> cases h
    next now rest id hg => exact .gcOwner now rest id hg
  | gcEnd =>
    simp only [Shared.step] at h
    split at h <;> cases h
    next now hg => exact .gcEnd now hg

/-! ## A pass that nobody interrupts -/

private theorem gcVisits_run (now : Int) (rest : List MsgID) (s : ChunkStore) :
    ∃ actions, run Shared.step ⟨s, .scanning now rest⟩ actions =
      some ⟨rest.foldl (ChunkStore.gcVisit now) s, .idle⟩ := by
  induction rest generalizing s with
  | nil => exact ⟨[.gcEnd], rfl⟩
  | cons id rest ih =>
    obtain ⟨actions, hr⟩ := ih (s.gcVisit now id)
    cases hm : s.messages.lookup id with
    | none =>
      have hv : s.gcVisit now id = s := by simp [ChunkStore.gcVisit, hm]
      refine ⟨.gcVisit :: actions, ?_⟩
      rw [run_cons]
      refine ⟨⟨s, .scanning now rest⟩, by simp [Shared.step, hm], ?_⟩
      rw [List.foldl_cons, hv]
      rw [hv] at hr
      exact hr
    | some buf =>
      by_cases he : s.Expired now buf
      · have hv : s.gcVisit now id = (s.dropMessage id).dropOwner id := by
          simp [ChunkStore.gcVisit, hm, he]
        refine ⟨.gcVisit :: .gcOwner :: actions, ?_⟩
        rw [run_cons]
        refine ⟨⟨s.dropMessage id, .dropping now rest id⟩, by simp [Shared.step, hm, he], ?_⟩
        rw [run_cons]
        refine ⟨⟨(s.dropMessage id).dropOwner id, .scanning now rest⟩, rfl, ?_⟩
        rw [List.foldl_cons, hv]
        rw [hv] at hr
        exact hr
      · have hv : s.gcVisit now id = s := by simp [ChunkStore.gcVisit, hm, he]
        refine ⟨.gcVisit :: actions, ?_⟩
        rw [run_cons]
        refine ⟨⟨s, .scanning now rest⟩, by simp [Shared.step, hm, he], ?_⟩
        rw [List.foldl_cons, hv]
        rw [hv] at hr
        exact hr

/-- The function `gc` is the run of one whole pass. -/
theorem gc_run (s : ChunkStore) (hint : List MsgID) (now : Int) :
    ∃ actions, run Shared.step ⟨s, .idle⟩ actions = some ⟨s.gc hint now, .idle⟩ := by
  obtain ⟨actions, hr⟩ := gcVisits_run now (rangeOrder hint s.messages) s
  exact ⟨.gcBegin now hint :: actions, run_cons.mpr ⟨_, rfl, hr⟩⟩

/-! ## The accounts -/

/-- The counters agree with the owner entries, and no counter is zero. -/
structure Accounts (s : ChunkStore) : Prop where
  count : ∀ p, s.peerMessageCount p = ((fibre s.messageOwner p).length : Int)
  positive : ∀ p n, s.peerMessages.lookup p = some n → 0 < n

theorem accounts_new (ttl limit : Int) (sc : Option SequenceCounter) :
    Accounts { newChunkStore ttl with maxPerPeer := limit, sequenceCounter := sc } := by
  constructor
  · intro p; rfl
  · intro p n h; cases h

private theorem accounts_setMessageOwner {s : ChunkStore} (h : Accounts s) (id : MsgID)
    (peerID : Bytes) :
    Accounts (s.setMessageOwner id peerID) := by
  unfold ChunkStore.setMessageOwner
  cases ho : s.messageOwner.lookup id with
  | some p => exact h
  | none =>
    constructor
    · intro p
      have hc := h.count p
      rw [fibre_length_insert ho]
      simp only [ChunkStore.peerMessageCount, lookup_insert_ite] at hc ⊢
      by_cases hp : p = peerID
      · subst hp; simp [hc]
      · simp [hp, hc]
    · intro p n hn
      simp only [lookup_insert_ite] at hn
      split at hn
      · obtain rfl := Option.some.inj hn
        have hc := h.count peerID
        omega
      · exact h.positive p n hn

private theorem accounts_dropOwner {s : ChunkStore} (h : Accounts s) (id : MsgID) :
    Accounts (s.dropOwner id) := by
  cases ho : s.messageOwner.lookup id with
  | none =>
    have hs : s.dropOwner id = s := by simp [ChunkStore.dropOwner, ho]
    rw [hs]
    exact h
  | some peerID =>
    have howner : (s.dropOwner id).messageOwner = s.messageOwner.erase id := by
      simp [ChunkStore.dropOwner, ho]
    constructor
    · intro p
      have hp := h.count p
      have hl := fibre_length_erase ho p
      rw [ChunkStore.peerMessageCount, dropOwner_peers s ho, howner]
      by_cases he : p = peerID
      · subst he
        rw [if_pos rfl] at hl
        rw [if_pos rfl]
        split
        · rw [Option.getD_none]; omega
        · rw [Option.getD_some]; omega
      · rw [if_neg he, Nat.add_zero] at hl
        rw [if_neg he, ← hl]
        exact hp
    · intro p n hn
      rw [dropOwner_peers s ho] at hn
      split at hn
      · split at hn
        · cases hn
        · obtain rfl := Option.some.inj hn
          omega
      · exact h.positive p n hn

theorem accounts_step {s t : Shared} {a : Action} (h : Accounts s.store) (hs : s.step a = some t) :
    Accounts t.store := by
  cases step_cases hs with
  | store chunk now commit hg => exact ⟨h.count, h.positive⟩
  | setMessageOwner id peerID => exact accounts_setMessageOwner h id peerID
  | gcBegin now hint hg => exact h
  | drop now id rest buf hg hl he => exact ⟨h.count, h.positive⟩
  | keep now id rest hg he => exact h
  | gcOwner now rest id hg => exact accounts_dropOwner h id
  | gcEnd now hg => exact h

/-- The peers that own at least one message. -/
def ChunkStore.owners (s : ChunkStore) : List Bytes :=
  (s.messageOwner.entries.map (fun e => e.2)).dedup

private theorem mem_owners {s : ChunkStore} {p : Bytes} :
    p ∈ s.owners ↔ ∃ id, s.messageOwner.lookup id = some p := by
  rw [ChunkStore.owners, List.mem_dedup, List.mem_map]
  constructor
  · intro h
    obtain ⟨e, he, hp⟩ := h
    refine ⟨e.1, ?_⟩
    rw [← hp]
    exact AList.mem_lookup_iff.mpr he
  · intro h
    obtain ⟨id, hid⟩ := h
    exact ⟨⟨id, p⟩, AList.mem_lookup_iff.mp hid, rfl⟩

theorem Accounts.mem_peerMessages {s : ChunkStore} (h : Accounts s) (p : Bytes) :
    p ∈ s.peerMessages ↔ p ∈ s.owners := by
  have hc := h.count p
  rw [mem_owners]
  constructor
  · intro hp
    obtain ⟨n, hn⟩ := mem_iff_lookup.mp hp
    have hpos := h.positive p n hn
    rw [ChunkStore.peerMessageCount, hn, Option.getD_some] at hc
    have hlen : 0 < (fibre s.messageOwner p).length := by omega
    obtain ⟨id, hid⟩ := List.exists_mem_of_length_pos hlen
    exact ⟨id, mem_fibre.mp hid⟩
  · intro hp
    obtain ⟨id, hid⟩ := hp
    have hlen := List.length_pos_of_mem (mem_fibre.mpr hid)
    rw [mem_iff_lookup]
    cases hl : s.peerMessages.lookup p with
    | some n => exact ⟨n, rfl⟩
    | none =>
      rw [ChunkStore.peerMessageCount, hl, Option.getD_none] at hc
      omega

theorem Accounts.totalPeers {s : ChunkStore} (h : Accounts s) : s.totalPeers = s.owners.length := by
  apply List.Perm.length_eq
  have hn : s.owners.Nodup := List.nodup_dedup _
  rw [List.perm_ext_iff_of_nodup s.peerMessages.keys_nodup hn]
  intro p
  rw [← AList.mem_keys, h.mem_peerMessages]

theorem mem_listPeerMessages {s : ChunkStore} {hint : List MsgID} {peerID : Bytes} {id : MsgID} :
    id ∈ s.listPeerMessages hint peerID ↔ s.messageOwner.lookup id = some peerID := by
  rw [ChunkStore.listPeerMessages, List.mem_filter, mem_rangeOrder, decide_eq_true_eq]
  constructor
  · exact fun h => h.2
  · exact fun h => ⟨mem_iff_lookup.mpr ⟨_, h⟩, h⟩

private theorem listPeerMessages_length (s : ChunkStore) (hint : List MsgID) (peerID : Bytes) :
    (s.listPeerMessages hint peerID).length = (fibre s.messageOwner peerID).length :=
  length_eq_fibre ((rangeOrder_nodup hint s.messageOwner).filter _)
    (fun _ => mem_listPeerMessages)

/-- After every interleaving of `Store`, `SetMessageOwner` and the sections of `gc`,
each counter is the number of messages its peer owns, no counter is zero or negative,
`PeerMessageCount` is the length of `ListPeerMessages` in any listing order, and
`TotalPeers` is the number of distinct owners. -/
theorem accounting_invariant (ttl limit : Int) (sc : Option SequenceCounter)
    (actions : List Action) (t : Shared)
    (hr : run Shared.step
      ⟨{ newChunkStore ttl with maxPerPeer := limit, sequenceCounter := sc }, .idle⟩ actions = some t) :
    (∀ p, t.store.peerMessageCount p = ((fibre t.store.messageOwner p).length : Int)) ∧
    (∀ p n, t.store.peerMessages.lookup p = some n → 0 < n) ∧
    (∀ hint p, t.store.peerMessageCount p = ((t.store.listPeerMessages hint p).length : Int)) ∧
    t.store.totalPeers = t.store.owners.length := by
  have h : Accounts t.store :=
    run_invariant (fun s a s' hi hs => accounts_step hi hs) (accounts_new ttl limit sc) hr
  refine ⟨h.count, h.positive, ?_, h.totalPeers⟩
  intro hint p
  rw [listPeerMessages_length, h.count]

/-- A pass that `SetMessageOwner` interrupts after the buffer is gone. -/
def interruptedPass (id other : MsgID) (peerID : Bytes) : List Action :=
  [.store (newChunk id 0 1 []) 0 true, .gcBegin 20 [], .gcVisit, .setMessageOwner id peerID,
    .setMessageOwner other peerID, .gcOwner, .gcEnd]

theorem accounting_invariant_interruptedPass :
    ∃ t : Shared, run Shared.step
        ⟨{ newChunkStore 10 with maxPerPeer := 100, sequenceCounter := none }, .idle⟩
        (interruptedPass ⟨List.replicate 8 1, rfl⟩ ⟨List.replicate 8 2, rfl⟩ (lit "P")) = some t ∧
      t.store.peerMessageCount (lit "P") = 1 ∧ t.store.totalPeers = t.store.owners.length :=
  ⟨_, rfl, rfl, (accounting_invariant 10 100 none
    (interruptedPass ⟨List.replicate 8 1, rfl⟩ ⟨List.replicate 8 2, rfl⟩ (lit "P")) _ rfl).2.2.2⟩

end VRGram.Store
