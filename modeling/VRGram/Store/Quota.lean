import VRGram.Relay.Server

/-!
# The quota of a peer

`SetMaxPerPeer` sets a limit on the messages of one peer. No operation of the store reads
it, so the limit holds in a run exactly as long as nobody asks for more: the run with another
limit is the same run.
-/
namespace VRGram.Store

open VRGram.Lib.Maps VRGram.Lib.Strings VRGram.Lib.Machine VRGram.Encoding

set_option autoImplicit false

/-- No peer has more messages than the limit; zero is no limit. -/
def ChunkStore.WithinQuota (s : ChunkStore) : Prop :=
  s.maxPerPeer = 0 ∨ ∀ p, s.peerMessageCount p ≤ s.maxPerPeer

/-- The check that `SetMessageOwner` does not make: a new entry finds room. -/
def Shared.Room (s : Shared) : Action → Prop
  | .setMessageOwner id peerID =>
    s.store.messageOwner.lookup id = none →
      s.store.peerMessageCount peerID < s.store.maxPerPeer
  | _ => True

/-- The store that a relay starts with. -/
def Shared.limited (ttl limit : Int) (sc : Option SequenceCounter) : Shared :=
  ⟨{ (newChunkStore ttl).setMaxPerPeer limit with sequenceCounter := sc }, .idle⟩

/-! ## What the operations do to the counts -/

theorem setMessageOwner_count (s : ChunkStore) (id : MsgID) (peerID p : Bytes) :
    (s.setMessageOwner id peerID).peerMessageCount p =
      s.peerMessageCount p +
        if s.messageOwner.lookup id = none ∧ p = peerID then 1 else 0 := by
  unfold ChunkStore.setMessageOwner
  cases ho : s.messageOwner.lookup id with
  | some owner => simp
  | none =>
    simp only [ChunkStore.peerMessageCount, lookup_insert_ite, true_and]
    by_cases hp : p = peerID
    · subst hp
      simp
    · simp [hp]

private theorem dropOwner_count_le {s : ChunkStore} (h : ∀ p, 0 ≤ s.peerMessageCount p) (id : MsgID)
    (p : Bytes) : (s.dropOwner id).peerMessageCount p ≤ s.peerMessageCount p := by
  cases ho : s.messageOwner.lookup id with
  | none =>
    have hs : s.dropOwner id = s := by simp [ChunkStore.dropOwner, ho]
    rw [hs]
  | some peerID =>
    rw [ChunkStore.peerMessageCount, dropOwner_peers s ho]
    by_cases hp : p = peerID
    · subst hp
      rw [if_pos rfl]
      have hpos := h p
      split
      · rw [Option.getD_none]
        exact hpos
      · rw [Option.getD_some]
        omega
    · rw [if_neg hp]
      rfl

theorem Accounts.count_nonneg {s : ChunkStore} (h : Accounts s) (p : Bytes) :
    0 ≤ s.peerMessageCount p := by
  rw [h.count p]
  exact Int.natCast_nonneg _

/-- No step changes the limit. -/
theorem step_maxPerPeer {s t : Shared} {a : Action} (hs : s.step a = some t) :
    t.store.maxPerPeer = s.store.maxPerPeer := by
  cases step_cases hs with
  | setMessageOwner id peerID =>
    show (s.store.setMessageOwner id peerID).maxPerPeer = s.store.maxPerPeer
    unfold ChunkStore.setMessageOwner
    split <;> rfl
  | gcOwner now rest id hg =>
    show (s.store.dropOwner id).maxPerPeer = s.store.maxPerPeer
    unfold ChunkStore.dropOwner
    split <;> rfl
  | _ => rfl

/-- Only a new owner entry raises a count, by one and for its peer. -/
theorem step_count {s t : Shared} {a : Action} (h : Accounts s.store) (hs : s.step a = some t)
    (p : Bytes) :
    t.store.peerMessageCount p ≤ s.store.peerMessageCount p ∨
      ∃ id, a = .setMessageOwner id p ∧ s.store.messageOwner.lookup id = none ∧
        t.store.peerMessageCount p = s.store.peerMessageCount p + 1 := by
  cases step_cases hs with
  | setMessageOwner id peerID =>
    have hcount := setMessageOwner_count s.store id peerID p
    by_cases hnew : s.store.messageOwner.lookup id = none ∧ p = peerID
    · obtain ⟨hfree, rfl⟩ := hnew
      rw [if_pos ⟨hfree, rfl⟩] at hcount
      exact Or.inr ⟨id, rfl, hfree, hcount⟩
    · rw [if_neg hnew, Int.add_zero] at hcount
      exact Or.inl (Int.le_of_eq hcount)
  | gcOwner now rest id hg => exact Or.inl (dropOwner_count_le h.count_nonneg id p)
  | _ => exact Or.inl (Int.le_refl _)

/-! ## The limit is not read -/

def Shared.withLimit (limit : Int) (s : Shared) : Shared :=
  { s with store := s.store.setMaxPerPeer limit }

/-- A step under another limit is the same step. -/
theorem step_withLimit (limit : Int) (s : Shared) (a : Action) :
    (s.withLimit limit).step a = (s.step a).map (Shared.withLimit limit) := by
  obtain ⟨store, gc⟩ := s
  cases a with
  | store chunk now commit => cases gc <;> rfl
  | setMessageOwner id peerID =>
    simp only [Shared.step, Shared.withLimit, ChunkStore.setMessageOwner, ChunkStore.setMaxPerPeer,
      Option.map_some]
    cases store.messageOwner.lookup id <;> rfl
  | gcBegin now hint => cases gc <;> rfl
  | gcVisit =>
    cases gc with
    | scanning now rest =>
      cases rest with
      | nil => rfl
      | cons id rest =>
        have hlookup : (store.setMaxPerPeer limit).messages.lookup id = store.messages.lookup id := rfl
        cases hm : store.messages.lookup id with
        | none => simp only [Shared.step, Shared.withLimit, hlookup, hm, Option.map_some]
        | some buf =>
          have hsame : (store.setMaxPerPeer limit).Expired now buf ↔ store.Expired now buf :=
            expired_of_ttl rfl now buf
          simp only [Shared.step, Shared.withLimit, hlookup, hm, hsame]
          split <;> rfl
    | _ => rfl
  | gcOwner =>
    cases gc with
    | dropping now rest id =>
      simp only [Shared.step, Shared.withLimit, ChunkStore.dropOwner, ChunkStore.setMaxPerPeer,
        Option.map_some]
      cases store.messageOwner.lookup id <;> rfl
    | _ => rfl
  | gcEnd =>
    cases gc with
    | scanning now rest => cases rest <;> rfl
    | _ => rfl

theorem run_withLimit (limit : Int) (s : Shared) (actions : List Action) :
    run Shared.step (s.withLimit limit) actions =
      (run Shared.step s actions).map (Shared.withLimit limit) := by
  induction actions generalizing s with
  | nil => rfl
  | cons a rest ih =>
    rw [run, step_withLimit, run]
    cases s.step a with
    | none => rfl
    | some t => exact ih t

/-! ## When the limit holds -/

/-- Along a run: the accounts are right, the limit is the one that was set, and it holds. -/
structure Quota (limit : Int) (s : Shared) : Prop where
  accounts : Accounts s.store
  limit_eq : s.store.maxPerPeer = limit
  within : ∀ p, s.store.peerMessageCount p ≤ limit

theorem quota_step {limit : Int} {s t : Shared} {a : Action} (h : Quota limit s) (hroom : s.Room a)
    (hs : s.step a = some t) : Quota limit t := by
  refine ⟨accounts_step h.accounts hs, (step_maxPerPeer hs).trans h.limit_eq, fun p => ?_⟩
  have hp := h.within p
  rcases step_count h.accounts hs p with hle | ⟨id, rfl, hfree, hcount⟩
  · omega
  · have hless : s.store.peerMessageCount p < s.store.maxPerPeer := hroom hfree
    rw [h.limit_eq] at hless
    omega

/-- Where the limit holds, a step breaks it exactly when the step should have been refused. -/
theorem room_iff {limit : Int} (hpos : 0 < limit) {s : Shared} (h : Quota limit s) (a : Action) :
    (∀ t, s.step a = some t → t.store.WithinQuota) ↔ s.Room a := by
  constructor
  · intro hkeep
    cases a with
    | setMessageOwner id peerID =>
      intro hfree
      have hcount := setMessageOwner_count s.store id peerID peerID
      rw [if_pos ⟨hfree, rfl⟩] at hcount
      have hstep : s.step (.setMessageOwner id peerID) =
          some { s with store := s.store.setMessageOwner id peerID } := rfl
      have hmax : (s.store.setMessageOwner id peerID).maxPerPeer = s.store.maxPerPeer :=
        step_maxPerPeer hstep
      rcases hkeep _ hstep with hzero | hle
      · have hlimit : s.store.maxPerPeer = 0 := hmax.symm.trans hzero
        rw [h.limit_eq] at hlimit
        omega
      · have hp : (s.store.setMessageOwner id peerID).peerMessageCount peerID ≤
            (s.store.setMessageOwner id peerID).maxPerPeer := hle peerID
        rw [hmax] at hp
        omega
    | _ => trivial
  · intro hroom t hs
    have ht := quota_step h hroom hs
    refine Or.inr (fun p => ?_)
    rw [ht.limit_eq]
    exact ht.within p

private theorem quota_limited (ttl : Int) (limit : Nat) (sc : Option SequenceCounter) :
    Quota limit (Shared.limited ttl limit sc) :=
  ⟨accounts_new ttl limit sc, rfl, fun _ => Int.natCast_nonneg limit⟩

/-- From a fresh store with a limit, every interleaving of `Store`, `SetMessageOwner` and the
sections of `gc` keeps every peer within the limit exactly when the limit is zero or no
`SetMessageOwner` call of the run registers a message for a peer that is at the limit. -/
theorem quota_kept_iff (ttl : Int) (limit : Nat) (sc : Option SequenceCounter)
    (actions : List Action) :
    Always Shared.step (fun s => s.store.WithinQuota) (Shared.limited ttl limit sc) actions ↔
      limit = 0 ∨ Meets Shared.step Shared.Room (Shared.limited ttl limit sc) actions := by
  have hstart := quota_limited ttl limit sc
  by_cases hzero : limit = 0
  · subst hzero
    refine iff_of_true ?_ (Or.inl rfl)
    intro taken t _ hr
    have hstep : ∀ (s : Shared) (a : Action) (s' : Shared), s.store.maxPerPeer = 0 →
        s.step a = some s' → s'.store.maxPerPeer = 0 :=
      fun s a s' hi hs => (step_maxPerPeer hs).trans hi
    exact Or.inl (run_invariant hstep rfl hr)
  · have hpos : (0 : Int) < limit := by omega
    have hfirst : (Shared.limited ttl limit sc).store.WithinQuota := Or.inr hstart.within
    rw [always_iff_meets, or_iff_right hzero]
    -- the guards agree as long as the limit has held, so it is the invariant of both directions
    have hguards : ∀ (s : Shared) (a : Action), Quota limit s →
        (s.Room a ↔ ∀ t, s.step a = some t → t.store.WithinQuota) :=
      fun s a hi => (room_iff hpos hi a).symm
    have hmeets := meets_iff_of_invariant hguards
      (fun s a s' hi hroom hs => quota_step hi hroom hs) hstart actions
    rw [← hmeets]
    exact and_iff_right hfirst

/-! ## A mailbox that overflows -/

/-- A message of one chunk for one recipient. -/
def addressed (id : MsgID) : Chunk :=
  { newChunk id 0 1 [] with recipientHash := List.replicate 32 7 }

/-- Two store requests for one recipient, at a relay whose limit is one. -/
theorem limitOfOne_exceeded :
    ∃ t, run Shared.step (Shared.limited 10 1 none)
        (Relay.sections ⟨true, 0, true, []⟩ (addressed ⟨List.replicate 8 1, rfl⟩) ++
          Relay.sections ⟨true, 0, true, []⟩ (addressed ⟨List.replicate 8 2, rfl⟩)) = some t ∧
      t.store.maxPerPeer = 1 ∧ t.store.peerMessageCount (b32 (List.replicate 32 7)) = 2 ∧
      ¬ t.store.WithinQuota := by
  refine ⟨_, rfl, rfl, by decide +kernel, ?_⟩
  intro h
  rcases h with hzero | hle
  · cases hzero
  · have htwo := hle (b32 (List.replicate 32 7))
    revert htwo
    decide +kernel

end VRGram.Store
