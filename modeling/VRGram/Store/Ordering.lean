import VRGram.Store.Accounting

/-!
# Sequence numbers order each mailbox

Runs of a relay with a counter file, over interleaved store operations, passes of
`gc`, direct calls of `Next` and restarts. A restart empties the chunk store and
keeps the counter. A log records each message when its first chunk arrives, with the
outcome of its `Next` call, so that messages already collected can be compared too.
-/
namespace VRGram.Store

open VRGram.Lib.Maps VRGram.Lib.Strings VRGram.Lib.Machine VRGram.Encoding

set_option autoImplicit false

/-- A `Next` call or the arrival of a message's first chunk: the counter key, the
number issued if the call succeeded, and the message with its recipient hash. -/
structure Entry where
  key : Bytes
  issued : Option UInt64
  message : Option (MsgID × Bytes)

structure Ledger where
  shared : Shared
  log : List Entry

inductive Event where
  | act (a : Action)
  | next (peerID : Bytes) (commit : Bool)
  | restart (ttl limit : Int)

/-- The outcome of the `Next` call that `Store` makes for a new message. -/
def issuedFor (counter : Option SequenceCounter) (chunk : Chunk) (commit : Bool) : Option UInt64 :=
  match counter with
  | none => none
  | some sc =>
    if chunk.recipientHash.length > 0 then
      (sc.next (peerIDFromPubkey chunk.recipientHash) commit).1
    else none

/-- What an action adds to the log: an entry when it stores the first chunk of a message. -/
def Shared.arrivals (s : Shared) : Action → List Entry
  | .store chunk _ commit =>
    match s.store.messages.lookup chunk.msgID with
    | some _ => []
    | none => [⟨peerIDFromPubkey chunk.recipientHash, issuedFor s.store.sequenceCounter chunk commit,
        some (chunk.msgID, chunk.recipientHash)⟩]
  | _ => []

def Ledger.step (s : Ledger) : Event → Option Ledger
  | .act a => (s.shared.step a).map (fun shared => ⟨shared, s.log ++ s.shared.arrivals a⟩)
  | .next peerID commit =>
    s.shared.store.sequenceCounter.map (fun sc =>
      ⟨{ s.shared with store := { s.shared.store with
          sequenceCounter := some (sc.next peerID commit).2 } },
        s.log ++ [⟨peerID, (sc.next peerID commit).1, none⟩]⟩)
  | .restart ttl limit =>
    some ⟨⟨{ newChunkStore ttl with
        maxPerPeer := limit, sequenceCounter := s.shared.store.sequenceCounter }, .idle⟩, s.log⟩

/-- A relay whose counter file is new. -/
def Ledger.start (ttl limit : Int) : Ledger :=
  ⟨⟨{ newChunkStore ttl with
      maxPerPeer := limit, sequenceCounter := some newSequenceCounter }, .idle⟩, []⟩

/-- The numbers that successful calls gave out for a key, in order. -/
def issuedTo (key : Bytes) (log : List Entry) : List UInt64 :=
  log.filterMap (fun e => if e.key = key then e.issued else none)

/-- The latest arrival of a message id. -/
def lastArrival (log : List Entry) (id : MsgID) : Option Entry :=
  (log.filter (fun e => e.message.map Prod.fst = some id)).getLast?

/-! ## Counters count their successful calls -/

/-- For every key the `k`-th successful call gave `k`, and the counter stands at the
number of successful calls. -/
def Numbered (sc : SequenceCounter) (log : List Entry) : Prop :=
  ∀ key, issuedTo key log =
      (List.range (issuedTo key log).length).map (fun k => UInt64.ofNat (k + 1)) ∧
    sc.getLast key = UInt64.ofNat (issuedTo key log).length

theorem issuedTo_append (key : Bytes) (log : List Entry) (e : Entry) :
    issuedTo key (log ++ [e]) =
      issuedTo key log ++ (if e.key = key then e.issued.toList else []) := by
  rw [issuedTo, List.filterMap_append, ← issuedTo]
  congr 1
  by_cases hk : e.key = key
  · cases hi : e.issued <;> simp [hk, hi]
  · simp [hk]

private theorem numbered_new : Numbered newSequenceCounter [] := fun _ => ⟨rfl, rfl⟩

theorem Numbered.silent {sc : SequenceCounter} {log : List Entry} (h : Numbered sc log) {e : Entry}
    (he : e.issued = none) : Numbered sc (log ++ [e]) := by
  intro key
  have hsame : issuedTo key (log ++ [e]) = issuedTo key log := by
    rw [issuedTo_append, he]
    simp
  rw [hsame]
  exact h key

theorem Numbered.next {sc : SequenceCounter} {log : List Entry} (h : Numbered sc log)
    (peerID : Bytes) (commit : Bool) (message : Option (MsgID × Bytes)) :
    Numbered (sc.next peerID commit).2 (log ++ [⟨peerID, (sc.next peerID commit).1, message⟩]) := by
  cases hn : (sc.next peerID commit).1 with
  | none =>
    rw [next_failure hn]
    exact h.silent rfl
  | some seq =>
    obtain ⟨hseq, hlast⟩ := next_success hn
    intro key
    obtain ⟨hold, hcount⟩ := h key
    rw [issuedTo_append, hlast]
    by_cases hk : peerID = key
    · subst hk
      have hval : seq = UInt64.ofNat ((issuedTo peerID log).length + 1) := by
        rw [hseq, hcount, UInt64.ofNat_add]
        rfl
      simp only [if_true, Option.toList_some, List.length_append, List.length_cons, List.length_nil,
        Nat.zero_add, List.range_succ, List.map_append, List.map_cons, List.map_nil]
      rw [← hold, ← hval]
      exact ⟨rfl, rfl⟩
    · rw [if_neg hk, if_neg (Ne.symm hk), List.append_nil]
      exact ⟨hold, hcount⟩

/-! ## What an action does to numbers already given -/

private theorem step_quiet {s t : Shared} {a : Action} (hs : s.step a = some t)
    (ha : ∀ chunk now commit, a ≠ .store chunk now commit) :
    t.store.sequenceCounter = s.store.sequenceCounter ∧
    ∀ id buf, t.store.messages.lookup id = some buf → s.store.messages.lookup id = some buf := by
  cases step_cases hs with
  | store chunk now commit hg => exact absurd rfl (ha chunk now commit)
  | setMessageOwner j peerID =>
    refine ⟨setMessageOwner_counter _ _ _, ?_⟩
    intro id buf h
    rw [setMessageOwner_messages] at h
    exact h
  | drop now j rest b hg hl he =>
    refine ⟨rfl, ?_⟩
    intro id buf h
    exact (lookup_erase_eq_some.mp h).2
  | gcOwner now rest j hg =>
    refine ⟨dropOwner_counter _ _, ?_⟩
    intro id buf h
    rw [dropOwner_messages] at h
    exact h
  | _ => exact ⟨rfl, fun _ _ h => h⟩

private theorem arrivals_quiet (s : Shared) {a : Action}
    (ha : ∀ chunk now commit, a ≠ .store chunk now commit) : s.arrivals a = [] := by
  cases a with
  | store chunk now commit => exact absurd rfl (ha chunk now commit)
  | _ => rfl

/-- The stamp of a new message is the outcome of its call, and the counter moves with it. -/
theorem stampSequence_issued (sc : SequenceCounter) (chunk : Chunk) (commit : Bool) :
    (stampSequence (some sc) chunk commit).1 = (issuedFor (some sc) chunk commit).getD 0 ∧
    ∃ sc', (stampSequence (some sc) chunk commit).2 = some sc' ∧
      ∀ log, Numbered sc log → Numbered sc' (log ++
        [⟨peerIDFromPubkey chunk.recipientHash, issuedFor (some sc) chunk commit,
          some (chunk.msgID, chunk.recipientHash)⟩]) := by
  unfold stampSequence issuedFor
  by_cases hlen : chunk.recipientHash.length > 0
  · simp only [if_pos hlen]
    exact ⟨trivial, _, rfl, fun log h => h.next _ _ _⟩
  · simp only [if_neg hlen]
    exact ⟨rfl, sc, rfl, fun log h => h.silent rfl⟩

/-! ## The invariant -/

/-- The attached counter agrees with the log, message entries carry their own counter
key, and every stored message bears the number of its latest arrival. -/
structure Ordered (s : Ledger) : Prop where
  numbered : ∃ sc, s.shared.store.sequenceCounter = some sc ∧ Numbered sc s.log
  keyed : ∀ e ∈ s.log, ∀ id hash, e.message = some (id, hash) → e.key = peerIDFromPubkey hash
  stamped : ∀ id buf, s.shared.store.messages.lookup id = some buf →
    ∃ e, lastArrival s.log id = some e ∧ buf.sequenceNumber = e.issued.getD 0

private theorem ordered_start (ttl limit : Int) : Ordered (Ledger.start ttl limit) := by
  refine ⟨⟨newSequenceCounter, rfl, numbered_new⟩, ?_, ?_⟩
  · intro e he; cases he
  · intro id buf h; cases h

theorem lastArrival_append_other (log : List Entry) (e : Entry) {id : MsgID}
    (he : e.message.map Prod.fst ≠ some id) : lastArrival (log ++ [e]) id = lastArrival log id := by
  simp [lastArrival, List.filter_append, he]

private theorem lastArrival_append_self (log : List Entry) (e : Entry) {id : MsgID}
    (he : e.message.map Prod.fst = some id) : lastArrival (log ++ [e]) id = some e := by
  simp [lastArrival, List.filter_append, he]

private theorem ordered_store {s : Ledger} (h : Ordered s) (chunk : Chunk) (now : Int)
    (commit : Bool) :
    Ordered ⟨{ s.shared with store := (s.shared.store.store chunk now commit).2 },
      s.log ++ s.shared.arrivals (.store chunk now commit)⟩ := by
  obtain ⟨sc, hsc, hnum⟩ := h.numbered
  cases hm : s.shared.store.messages.lookup chunk.msgID with
  | some old =>
    -- A later chunk of a stored message: no call is made and the number stays.
    have hlog : s.log ++ s.shared.arrivals (.store chunk now commit) = s.log := by
      simp [Shared.arrivals, hm]
    rw [hlog]
    refine ⟨⟨sc, ?_, hnum⟩, h.keyed, ?_⟩
    · simp [ChunkStore.store, ChunkStore.bufferFor, hm, hsc]
    · intro id buf hb
      by_cases hid : id = chunk.msgID
      · subst hid
        simp only [ChunkStore.store, ChunkStore.bufferFor, hm, AList.lookup_insert] at hb
        obtain rfl := Option.some.inj hb
        exact h.stamped _ old hm
      · rw [store_lookup_ne _ hid] at hb
        exact h.stamped id buf hb
  | none =>
    obtain ⟨hstamp, sc', hsc', hnum'⟩ := stampSequence_issued sc chunk commit
    have hlog : s.log ++ s.shared.arrivals (.store chunk now commit) =
        s.log ++ [⟨peerIDFromPubkey chunk.recipientHash, issuedFor (some sc) chunk commit,
          some (chunk.msgID, chunk.recipientHash)⟩] := by
      simp [Shared.arrivals, hm, hsc]
    rw [hlog]
    refine ⟨⟨sc', ?_, hnum' _ hnum⟩, ?_, ?_⟩
    · simp [ChunkStore.store, ChunkStore.bufferFor, hm, hsc, hsc']
    · intro e he id hash hmsg
      rcases List.mem_append.mp he with hold | hnew
      · exact h.keyed e hold id hash hmsg
      · obtain rfl := List.mem_singleton.mp hnew
        cases hmsg
        rfl
    · intro id buf hb
      by_cases hid : id = chunk.msgID
      · subst hid
        refine ⟨_, lastArrival_append_self s.log _ rfl, ?_⟩
        simp only [ChunkStore.store, ChunkStore.bufferFor, hm, hsc, AList.lookup_insert] at hb
        obtain rfl := Option.some.inj hb
        exact hstamp
      · rw [store_lookup_ne _ hid] at hb
        obtain ⟨e, he, hseq⟩ := h.stamped id buf hb
        refine ⟨e, ?_, hseq⟩
        rw [lastArrival_append_other, he]
        intro hc
        exact hid (Option.some.inj hc).symm

private theorem ordered_step {s t : Ledger} {e : Event} (h : Ordered s) (hs : s.step e = some t) :
    Ordered t := by
  obtain ⟨sc, hsc, hnum⟩ := h.numbered
  cases e with
  | act a =>
    obtain ⟨shared, hshared, rfl⟩ := Option.map_eq_some_iff.mp hs
    by_cases ha : ∃ chunk now commit, a = .store chunk now commit
    · obtain ⟨chunk, now, commit, rfl⟩ := ha
      simp only [Shared.step] at hshared
      split at hshared
      · obtain rfl := Option.some.inj hshared
        exact ordered_store h chunk now commit
      · cases hshared
    · have hq : ∀ chunk now commit, a ≠ .store chunk now commit :=
        fun chunk now commit he => ha ⟨chunk, now, commit, he⟩
      obtain ⟨hcounter, hlookup⟩ := step_quiet hshared hq
      rw [arrivals_quiet s.shared hq, List.append_nil]
      exact ⟨⟨sc, by rw [hcounter, hsc], hnum⟩, h.keyed,
        fun id buf hb => h.stamped id buf (hlookup id buf hb)⟩
  | next peerID commit =>
    rw [Ledger.step, hsc] at hs
    obtain rfl := Option.some.inj hs
    refine ⟨⟨_, rfl, hnum.next peerID commit none⟩, ?_, ?_⟩
    · intro e he id hash hmsg
      rcases List.mem_append.mp he with hold | hnew
      · exact h.keyed e hold id hash hmsg
      · obtain rfl := List.mem_singleton.mp hnew
        cases hmsg
    · intro id buf hb
      obtain ⟨e, he, hseq⟩ := h.stamped id buf hb
      exact ⟨e, by rw [lastArrival_append_other _ _ (by simp), he], hseq⟩
  | restart ttl limit =>
    obtain rfl := Option.some.inj hs
    exact ⟨⟨sc, hsc, hnum⟩, h.keyed, fun id buf hb => by cases hb⟩

/-! ## Numbers of one key increase -/

theorem Numbered.toNat {sc : SequenceCounter} {log : List Entry} (h : Numbered sc log) (key : Bytes)
    (hlen : (issuedTo key log).length < 2 ^ 64) :
    (issuedTo key log).map UInt64.toNat = List.range' 1 (issuedTo key log).length := by
  obtain ⟨hlist, _⟩ := h key
  generalize (issuedTo key log).length = n at hlist hlen ⊢
  rw [hlist, List.map_map, List.range'_eq_map_range]
  refine List.map_congr_left ?_
  intro k hk
  have hk' := List.mem_range.mp hk
  rw [Function.comp_apply, UInt64.toNat_ofNat_of_lt' (show k + 1 < 2 ^ 64 by omega)]
  omega

theorem Numbered.increasing {sc : SequenceCounter} {log : List Entry} (h : Numbered sc log)
    (hlen : ∀ key, (issuedTo key log).length < 2 ^ 64) :
    log.Pairwise (fun a b => a.key = b.key → ∀ m n, a.issued = some m → b.issued = some n → m < n) := by
  rw [List.pairwise_iff_getElem]
  intro i j hi hj hij hkey m n hm hn
  have hsorted : (issuedTo log[i].key log).Pairwise (· < ·) := by
    have hrange := h.toNat log[i].key (hlen log[i].key)
    have hlt : ((issuedTo log[i].key log).map UInt64.toNat).Pairwise (· < ·) := by
      rw [hrange]
      exact List.pairwise_lt_range'
    exact (List.pairwise_map.mp hlt).imp (fun hab => UInt64.lt_iff_toNat_lt.mpr hab)
  rw [issuedTo, List.pairwise_filterMap, List.pairwise_iff_getElem] at hsorted
  exact hsorted i j hi hj hij m (by rw [if_pos rfl, hm]) n (by rw [if_pos hkey.symm, hn])

/-- In every run over store operations, `gc`, calls of `Next` and restarts with fewer
than `2^64` numbers per key: of two messages whose first chunks map to one counter key
(in particular of two messages of one recipient), the one that arrived later has the
larger number; `GetMessageMeta` reports that number while the message is stored; the
`k`-th successful call for a key returned `k`; and `GetLast` is their number. -/
theorem sequence_orders_mailboxes (ttl limit : Int) (events : List Event) (t : Ledger)
    (hr : run Ledger.step (Ledger.start ttl limit) events = some t)
    (hlen : ∀ key, (issuedTo key t.log).length < 2 ^ 64) :
    t.log.Pairwise (fun earlier later => ∀ id id' hash hash' seq seq',
      earlier.message = some (id, hash) → later.message = some (id', hash') →
      peerIDFromPubkey hash = peerIDFromPubkey hash' →
      earlier.issued = some seq → later.issued = some seq' → seq < seq') ∧
    (∀ id stamp, t.shared.store.getMessageMeta id = some stamp →
      ∃ e, lastArrival t.log id = some e ∧ stamp.2 = e.issued.getD 0) ∧
    (∀ key, (issuedTo key t.log).map UInt64.toNat = List.range' 1 (issuedTo key t.log).length) ∧
    ∃ sc, t.shared.store.sequenceCounter = some sc ∧
      ∀ key, (sc.getLast key).toNat = (issuedTo key t.log).length := by
  have h : Ordered t :=
    run_invariant (fun s e s' hi hs => ordered_step hi hs) (ordered_start ttl limit) hr
  obtain ⟨sc, hsc, hnum⟩ := h.numbered
  refine ⟨?_, ?_, fun key => hnum.toNat key (hlen key), sc, hsc, ?_⟩
  · refine (List.Pairwise.and_mem.mp (hnum.increasing hlen)).imp ?_
    intro a b hab id id' hash hash' seq seq' ha hb hkey hs hs'
    obtain ⟨hma, hmb, hlt⟩ := hab
    refine hlt ?_ seq seq' hs hs'
    rw [h.keyed a hma id hash ha, h.keyed b hmb id' hash' hb, hkey]
  · intro id stamp hstamp
    rw [ChunkStore.getMessageMeta, Option.map_eq_some_iff] at hstamp
    obtain ⟨buf, hl, rfl⟩ := hstamp
    exact h.stamped id buf hl
  · intro key
    rw [(hnum key).2, UInt64.toNat_ofNat_of_lt' (hlen key)]

/-- Two messages of one recipient, the first collected and the relay restarted before
the second arrives. -/
def acrossRestart (first second : Chunk) : List Event :=
  [.act (.store first 0 true), .act (.gcBegin 20 []), .act .gcVisit, .act .gcOwner, .act .gcEnd,
    .restart 10 100, .act (.store second 30 true)]

theorem sequence_orders_mailboxes_acrossRestart :
    let chunk (id : MsgID) : Chunk := { newChunk id 0 1 [] with recipientHash := List.replicate 32 7 }
    let events := acrossRestart (chunk ⟨List.replicate 8 1, rfl⟩) (chunk ⟨List.replicate 8 2, rfl⟩)
    ∃ t : Ledger, run Ledger.step (Ledger.start 10 100) events = some t ∧
      (∀ key, (issuedTo key t.log).length < 2 ^ 64) ∧ t.log.map Entry.issued = [some 1, some 2] ∧
      ∀ key, (issuedTo key t.log).map UInt64.toNat = List.range' 1 (issuedTo key t.log).length := by
  intro chunk events
  have hlen : ∀ t : Ledger, t.log.length = 2 → ∀ key, (issuedTo key t.log).length < 2 ^ 64 := by
    intro t ht key
    have hle : (issuedTo key t.log).length ≤ t.log.length := List.length_filterMap_le _ _
    omega
  refine ⟨_, rfl, hlen _ rfl, by decide, ?_⟩
  exact (sequence_orders_mailboxes 10 100 events _ rfl (hlen _ rfl)).2.2.1

end VRGram.Store
