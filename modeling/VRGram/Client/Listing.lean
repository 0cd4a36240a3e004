import VRGram.Client.Polling

/-!
# What `PollRelays` lists

Any of the polls of `PollRelays` may fail, and relays may serve other zones than the
client asks for. Whatever the failures, the list is exactly the mailbox as the relays
that answered have it, and the stamps of an entry are those of the first such relay.
-/
namespace VRGram.Client

open VRGram.Lib.Maps VRGram.Lib.Strings VRGram.Lib.Dns VRGram.Lib.Machine
open VRGram.Encoding VRGram.Store VRGram.Relay

set_option autoImplicit false

/-! ## The stamps of reachable stores -/

/-- The relay's clock reads after 1970, in milliseconds that fit an `int64`. -/
def After1970 : Action → Prop
  | .store _ now _ => 0 < unixMilli now ∧ unixMilli now < 2 ^ 63
  | _ => True

instance : (a : Action) → Decidable (After1970 a)
  | .store _ now _ => inferInstanceAs (Decidable (0 < unixMilli now ∧ unixMilli now < 2 ^ 63))
  | .setMessageOwner _ _ => isTrue trivial
  | .gcBegin _ _ => isTrue trivial
  | .gcVisit => isTrue trivial
  | .gcOwner => isTrue trivial
  | .gcEnd => isTrue trivial

/-- The store of a relay after any interleaving of critical sections, a pass of `gc`
possibly under way. -/
def Arises (s : ChunkStore) : Prop :=
  ∃ (ttl limit : Int) (sc : Option SequenceCounter) (actions : List Action) (gc : GcPhase),
    (∀ a ∈ actions, After1970 a) ∧
    run Shared.step
      ⟨{ newChunkStore ttl with maxPerPeer := limit, sequenceCounter := sc }, .idle⟩ actions =
      some ⟨s, gc⟩

/-- Every stored message has a positive stamp. -/
def Stamped (s : ChunkStore) : Prop :=
  ∀ id buf, s.messages.lookup id = some buf →
    0 < buf.serverTimestamp ∧ buf.serverTimestamp < 2 ^ 63

private theorem stamped_store {s : ChunkStore} (h : Stamped s) (chunk : Chunk) {now : Int}
    (hnow : 0 < unixMilli now ∧ unixMilli now < 2 ^ 63) (commit : Bool) :
    Stamped (s.store chunk now commit).2 := by
  intro id buf hb
  by_cases hid : id = chunk.msgID
  · subst hid
    simp only [ChunkStore.store, AList.lookup_insert, ChunkStore.bufferFor] at hb
    obtain rfl := Option.some.inj hb
    cases hm : s.messages.lookup chunk.msgID with
    | none => exact hnow
    | some old => exact h chunk.msgID old hm
  · rw [store_lookup_ne s hid] at hb
    exact h id buf hb

private theorem stamped_dropMessage {s : ChunkStore} (h : Stamped s) (id : MsgID) :
    Stamped (s.dropMessage id) := by
  intro j buf hb
  exact h j buf (lookup_erase_eq_some.mp hb).2

private theorem stamped_step {s t : Shared} {a : Action} (h : Stamped s.store) (ha : After1970 a)
    (hs : s.step a = some t) : Stamped t.store := by
  cases step_cases hs with
  | store chunk now commit hg => exact stamped_store h chunk ha commit
  | setMessageOwner id peerID =>
    intro j buf hb
    rw [setMessageOwner_messages] at hb
    exact h j buf hb
  | drop now id rest buf hg hl he => exact stamped_dropMessage h id
  | gcOwner now rest id hg =>
    intro j buf hb
    rw [dropOwner_messages] at hb
    exact h j buf hb
  | _ => exact h

theorem Arises.stamped {s : ChunkStore} (h : Arises s) : Stamped s := by
  obtain ⟨ttl, limit, sc, actions, gc, hclock, hr⟩ := h
  have hnew : Stamped { newChunkStore ttl with maxPerPeer := limit, sequenceCounter := sc } := by
    intro id buf hb
    cases hb
  have hmeets : Meets Shared.step (fun _ a => After1970 a)
      ⟨{ newChunkStore ttl with maxPerPeer := limit, sequenceCounter := sc }, .idle⟩ actions :=
    meets_of_forall hclock _
  exact run_guarded (fun u a v (hu : Stamped u.store) ha hs => stamped_step hu ha hs) hnew hmeets hr

/-! ## The entry of a message -/

/-- A positive stamp survives the way through an unsigned word. -/
theorem toInt64_ofInt {ts : Int} (hpos : 0 < ts) (hlt : ts < 2 ^ 63) :
    ((UInt64.ofInt ts).toInt64).toInt = ts := by
  obtain ⟨n, rfl⟩ := Int.eq_ofNat_of_zero_le (Int.le_of_lt hpos)
  have hn : n < 2 ^ 63 := by omega
  have hmod : ((n : Int) % 2 ^ 64).toNat = n := by omega
  rw [UInt64.ofInt, hmod, UInt64.toInt64_ofNat', Int64.toInt_ofNat_of_lt hn]

/-- The client's entry carries the relay's stamps, zero when there are none. -/
theorem pollEntry_meta {s : ChunkStore} (h : Stamped s) (id : MsgID) :
    ((pollEntry s id).timestamp.toInt, (pollEntry s id).sequence) =
      (s.getMessageMeta id).getD (0, 0) := by
  unfold pollEntry
  cases hm : s.messages.lookup id with
  | none =>
    have hmeta : s.getMessageMeta id = none := by rw [ChunkStore.getMessageMeta, hm]; rfl
    rw [hmeta]
    rfl
  | some buf =>
    obtain ⟨hpos, hlt⟩ := h id buf hm
    have hmeta : s.getMessageMeta id = some (buf.serverTimestamp, buf.sequenceNumber) := by
      rw [ChunkStore.getMessageMeta, hm]; rfl
    simp only [hmeta, if_pos hpos, Option.getD_some, toInt64_ofInt hpos hlt]

/-- The two ends of a record agree for every id, positive stamp and number. -/
theorem parsePollRecord_stamped {s : ChunkStore} {id : MsgID} {ts : Int64} {seq : UInt64}
    (hpos : 0 < ts) (hmeta : s.getMessageMeta id = some (ts.toInt, seq)) :
    parsePollRecord (pollRecord s id) = some ⟨id, [], ts, seq⟩ := by
  have hint : 0 < ts.toInt := by
    rw [Int64.lt_iff_toInt_lt] at hpos
    simpa using hpos
  have hts : (UInt64.ofInt ts.toInt).toInt64 = ts :=
    Int64.toInt.inj (toInt64_ofInt hint (Int64.toInt_lt ts))
  rw [parsePollRecord_pollRecord, pollEntry]
  simp only [hmeta, if_pos hint, hts]

/-! ## Polling over a network that may fail -/

/-- Every message that comes back is the answer of the relay behind the address. Requests
and answers may be lost, at any time and for any reason. -/
structure Lossy {σ : Type} (zones host : Bytes → Bytes) (view : σ → Relays) (net : Network σ) :
    Prop where
  answers : ∀ proto addr qname v, ∃ ctx : Context,
    (∀ m, (net.exchange proto addr qname v).1 = some m →
      m = (handleRequest (zones (host addr)) ctx [qname] (view v (host addr))).1) ∧
    view (net.exchange proto addr qname v).2 = Function.update (view v) (host addr)
      (handleRequest (zones (host addr)) ctx [qname] (view v (host addr))).2
  resolves : ∀ addr v, view (net.resolveAddr addr v).2 = view v ∧
    ∀ target, (net.resolveAddr addr v).1 = some target → host target = host addr

/-- A relay of any zone answers a POLL with an error or with the mailbox, and stays as it is. -/
theorem handleRequest_pollName (relayZone zone digest : Bytes) (ctx : Context) (s : ChunkStore) :
    ∃ m, handleRequest relayZone ctx [questionName [lit "POLL", b32 digest] zone] s = (m, s) ∧
      (m.rcode = .success →
        m = .txt ((s.listPeerMessages ctx.hint (b32 digest)).map (pollRecord s))) := by
  have hdot : dot ∉ b32 digest := Lib.Base32Hex.notMem_encode (by decide) digest
  rw [handleRequest]
  split
  · exact ⟨_, rfl, fun hok => by cases hok⟩
  rcases questionLabels_poll relayZone zone hdot with hl | hl | ⟨more, hl⟩
  · exact ⟨.failure .refused, by simp only [hl], fun hok => by cases hok⟩
  · exact ⟨.failure .formatError, by simp only [hl]; rfl, fun hok => by cases hok⟩
  · exact ⟨_, by simp only [hl]; rfl, fun _ => rfl⟩

/-- The relay has the message in the mailbox. -/
def Owns (s : ChunkStore) (peerID : Bytes) (id : MsgID) : Prop :=
  s.messageOwner.lookup id = some peerID

instance (s : ChunkStore) (peerID : Bytes) (id : MsgID) : Decidable (Owns s peerID id) :=
  inferInstanceAs (Decidable (_ = _))

/-- The entries that a relay has for a mailbox, in the order of some loop. -/
def Lists (s : ChunkStore) (peerID : Bytes) (msgs : List PolledMessage) : Prop :=
  ∃ hint, msgs = (s.listPeerMessages hint peerID).map (pollEntry s)

theorem Lists.nodup {s : ChunkStore} {peerID : Bytes} {msgs : List PolledMessage}
    (h : Lists s peerID msgs) : (msgs.map PolledMessage.msgID).Nodup := by
  obtain ⟨hint, rfl⟩ := h
  rw [map_pollEntry_msgID]
  exact (rangeOrder_nodup hint s.messageOwner).filter _

theorem Lists.mem_iff {s : ChunkStore} {peerID : Bytes} {msgs : List PolledMessage}
    (h : Lists s peerID msgs) (m : PolledMessage) :
    m ∈ msgs ↔ Owns s peerID m.msgID ∧ m = pollEntry s m.msgID := by
  obtain ⟨hint, rfl⟩ := h
  rw [List.mem_map]
  constructor
  · rintro ⟨id, hid, rfl⟩
    rw [pollEntry_msgID]
    exact ⟨mem_listPeerMessages.mp hid, rfl⟩
  · rintro ⟨howner, hm⟩
    exact ⟨m.msgID, mem_listPeerMessages.mpr howner, hm.symm⟩

theorem Lists.mem_ids {s : ChunkStore} {peerID : Bytes} {msgs : List PolledMessage}
    (h : Lists s peerID msgs) (id : MsgID) :
    id ∈ msgs.map PolledMessage.msgID ↔ Owns s peerID id := by
  obtain ⟨hint, rfl⟩ := h
  rw [map_pollEntry_msgID]
  exact mem_listPeerMessages

section Lossy

variable {σ : Type} {zones host : Bytes → Bytes} {view : σ → Relays} {net : Network σ}
  (h : Lossy zones host view net)

include h

theorem Lossy.exchange_poll (zone digest : Bytes) (proto : Net) (addr : Bytes) (v : σ) :
    view (net.exchange proto addr (questionName [lit "POLL", b32 digest] zone) v).2 = view v ∧
    ∀ msgs, pollResult (net.exchange proto addr (questionName [lit "POLL", b32 digest] zone) v).1 =
      .ok msgs → Lists (view v (host addr)) (b32 digest) msgs := by
  obtain ⟨ctx, hans, hview⟩ := h.answers proto addr (questionName [lit "POLL", b32 digest] zone) v
  obtain ⟨m, hm, hok⟩ := handleRequest_pollName (zones (host addr)) zone digest ctx (view v (host addr))
  rw [hm] at hans hview
  refine ⟨by rw [hview, Function.update_eq_self], ?_⟩
  intro msgs hres
  cases hex : (net.exchange proto addr (questionName [lit "POLL", b32 digest] zone) v).1 with
  | none =>
    rw [hex] at hres
    cases hres
  | some answer =>
    obtain rfl := hans answer hex
    rw [hex, pollResult] at hres
    split at hres
    · cases hres
    · rename_i hcode
      have htxt := hok (not_not.mp hcode)
      refine ⟨ctx.hint, ?_⟩
      rw [← Except.ok.inj hres, htxt, parsePollResponse_records]

theorem Lossy.pollExchange (zone digest : Bytes) (mode : TransportMode) (addr : Bytes) (v : σ) :
    view (pollExchange net mode addr (questionName [lit "POLL", b32 digest] zone) v).2 = view v ∧
    ∀ msgs, (pollExchange net mode addr (questionName [lit "POLL", b32 digest] zone) v).1 = .ok msgs →
      Lists (view v (host addr)) (b32 digest) msgs := by
  obtain ⟨hv, hok⟩ := h.exchange_poll zone digest .tcp addr v
  cases mode with
  | tcp => exact ⟨hv, hok⟩
  | udp => exact h.exchange_poll zone digest .udp addr v
  | auto =>
    -- each further exchange finds the relays as they were
    simp only [Client.pollExchange]
    split
    · exact ⟨hv, hok⟩
    · obtain ⟨hv₂, hok₂⟩ := h.exchange_poll zone digest .udp addr
        (net.exchange .tcp addr (questionName [lit "POLL", b32 digest] zone) v).2
      rw [hv] at hv₂ hok₂
      split
      · exact ⟨hv₂, hok₂⟩
      · obtain ⟨hv₃, hok₃⟩ := h.exchange_poll zone digest .tcp addr
          (net.exchange .udp addr (questionName [lit "POLL", b32 digest] zone)
            (net.exchange .tcp addr (questionName [lit "POLL", b32 digest] zone) v).2).2
        rw [hv₂] at hv₃ hok₃
        exact ⟨hv₃, hok₃⟩

/-- One poll: the relays are as before, and a success lists the mailbox of its relay. -/
theorem Lossy.pollRelayWithMeta (e : DNSClientEngine) (digest addr : Bytes) (v : σ) :
    view (e.pollRelayWithMeta net addr (b32 digest) v).2 = view v ∧
    ∀ msgs, (e.pollRelayWithMeta net addr (b32 digest) v).1 = .ok msgs →
      Lists (view v (host addr)) (b32 digest) msgs := by
  obtain ⟨hv, htarget⟩ := h.resolves addr v
  simp only [DNSClientEngine.pollRelayWithMeta]
  cases hres : (net.resolveAddr addr v).1 with
  | none => exact ⟨hv, fun msgs hmsgs => by cases hmsgs⟩
  | some target =>
    obtain ⟨hv', hok⟩ := h.pollExchange e.zone digest e.transportMode target (net.resolveAddr addr v).2
    rw [hv, htarget target hres] at hok
    exact ⟨hv'.trans hv, hok⟩

end Lossy

/-! ## The first answer wins -/

/-- Entries of a list without repeated ids join those that are known already, unless their
id is known. -/
theorem mem_addUnseen {msgs : List PolledMessage} (hn : (msgs.map PolledMessage.msgID).Nodup)
    (known : List PolledMessage) (m : PolledMessage) :
    m ∈ addUnseen known msgs ↔
      m ∈ known ∨ (m ∈ msgs ∧ m.msgID ∉ known.map PolledMessage.msgID) := by
  induction msgs generalizing known with
  | nil => simp [addUnseen]
  | cons x rest ih =>
    rw [List.map_cons, List.nodup_cons] at hn
    have hne : ∀ y ∈ rest, y.msgID ≠ x.msgID := by
      intro y hy he
      exact hn.1 (he ▸ List.mem_map_of_mem hy)
    rw [addUnseen, ih hn.2]
    by_cases hx : x.msgID ∈ known.map PolledMessage.msgID
    · rw [if_pos hx, List.mem_cons]
      constructor
      · rintro (hk | ⟨hr, hnew⟩)
        · exact Or.inl hk
        · exact Or.inr ⟨Or.inr hr, hnew⟩
      · rintro (hk | ⟨rfl | hr, hnew⟩)
        · exact Or.inl hk
        · exact absurd hx hnew
        · exact Or.inr ⟨hr, hnew⟩
    · rw [if_neg hx, List.map_append, List.map_singleton, List.mem_append, List.mem_append,
        List.mem_singleton, List.mem_singleton, List.mem_cons]
      constructor
      · rintro ((hk | rfl) | ⟨hr, hnew⟩)
        · exact Or.inl hk
        · exact Or.inr ⟨Or.inl rfl, hx⟩
        · exact Or.inr ⟨Or.inr hr, fun hm => hnew (Or.inl hm)⟩
      · rintro (hk | ⟨rfl | hr, hnew⟩)
        · exact Or.inl (Or.inl hk)
        · exact Or.inl (Or.inr rfl)
        · refine Or.inr ⟨hr, ?_⟩
          rintro (hm | hm)
          · exact hnew hm
          · exact hne m hr hm

/-- The relays whose poll succeeds in the loop of `PollRelays`, in its order. -/
def DNSClientEngine.answering {σ : Type} (net : Network σ) (e : DNSClientEngine) (peerID : Bytes) :
    List Bytes → σ → List Bytes
  | [], _ => []
  | relay :: rest, w =>
    let polled := e.pollRelayWithMeta net relay peerID w
    match polled.1 with
    | .error _ => e.answering net peerID rest polled.2
    | .ok _ => relay :: e.answering net peerID rest polled.2

/-- The relays that `PollRelays` polls with success; without a recipient it polls none. -/
def DNSClientEngine.answeringRelays {σ : Type} (net : Network σ) (sha256 : Bytes → Digest)
    (e : DNSClientEngine) (recipientPubkey : Bytes) (w : σ) : List Bytes :=
  if recipientPubkey = [] then []
  else e.answering net (mailboxOf sha256 recipientPubkey) e.discoverActiveRelays w

/-- The loop lists every id once, with the entry of the first answering relay that has it. -/
theorem pollEach_spec {σ : Type} {zones host : Bytes → Bytes} {view : σ → Relays} {net : Network σ}
    (h : Lossy zones host view net) (e : DNSClientEngine) (digest : Bytes) (relays : List Bytes)
    {known : List PolledMessage} (hk : (known.map PolledMessage.msgID).Nodup) (v : σ) :
    (((e.pollEach net (b32 digest) relays known v).1).map PolledMessage.msgID).Nodup ∧
    ∀ m, m ∈ (e.pollEach net (b32 digest) relays known v).1 ↔
      m ∈ known ∨ (m.msgID ∉ known.map PolledMessage.msgID ∧
        ∃ relay, (e.answering net (b32 digest) relays v).find?
            (fun r => Owns (view v (host r)) (b32 digest) m.msgID) = some relay ∧
          m = pollEntry (view v (host relay)) m.msgID) := by
  induction relays generalizing known v with
  | nil => exact ⟨hk, by simp [DNSClientEngine.pollEach, DNSClientEngine.answering]⟩
  | cons relay rest ih =>
    obtain ⟨hv, hok⟩ := h.pollRelayWithMeta e digest relay v
    simp only [DNSClientEngine.pollEach, DNSClientEngine.answering]
    cases hp : (e.pollRelayWithMeta net relay (b32 digest) v).1 with
    | error err =>
      have hrest := ih hk (e.pollRelayWithMeta net relay (b32 digest) v).2
      rw [hv] at hrest
      exact hrest
    | ok msgs =>
      have hlists := hok msgs hp
      obtain ⟨hn, hmem⟩ := ih (addUnseen_nodup hk msgs) (e.pollRelayWithMeta net relay (b32 digest) v).2
      refine ⟨hn, ?_⟩
      intro m
      rw [hmem, mem_addUnseen hlists.nodup, mem_addUnseen_ids, hv, hlists.mem_iff, hlists.mem_ids,
        List.find?_cons]
      by_cases howns : Owns (view v (host relay)) (b32 digest) m.msgID
      · -- this relay is the first that has the id
        simp only [howns, decide_true, true_and, or_true, not_true_eq_false, false_and, or_false,
          Option.some.injEq, exists_eq_left']
        rw [and_comm]
      · simp only [howns, decide_false, false_and, or_false]

theorem pollRelays_spec {σ : Type} {zones host : Bytes → Bytes} {view : σ → Relays}
    {net : Network σ} (h : Lossy zones host view net) (e : DNSClientEngine)
    (sha256 : Bytes → Digest) (recipient : Bytes) (v : σ) :
    ((e.pollRelays net sha256 recipient v).1.map PolledMessage.msgID).Nodup ∧
    ∀ m, m ∈ (e.pollRelays net sha256 recipient v).1 ↔
      ∃ relay, (e.answeringRelays net sha256 recipient v).find?
          (fun r => Owns (view v (host r)) (mailboxOf sha256 recipient) m.msgID) = some relay ∧
        m = pollEntry (view v (host relay)) m.msgID := by
  unfold DNSClientEngine.pollRelays DNSClientEngine.answeringRelays
  by_cases hrec : recipient = []
  · simp [hrec]
  · rw [if_neg hrec, if_neg hrec]
    obtain ⟨hn, hmem⟩ := pollEach_spec h e (sha256 recipient).val e.discoverActiveRelays
      (show (([] : List PolledMessage).map PolledMessage.msgID).Nodup by simp) v
    refine ⟨hn, fun m => ?_⟩
    rw [mailboxOf, hmem]
    simp

/-- `PollRelays` over any list of relays, with any failures: every id that some answering
relay has in the mailbox is listed once and nothing else is, and its stamps are those that
the first answering relay with the id holds for it. The records on the way are read back
as they were written. -/
theorem pollRelays_exact {σ : Type} {zones host : Bytes → Bytes} {view : σ → Relays}
    {net : Network σ} (h : Lossy zones host view net) (e : DNSClientEngine)
    (sha256 : Bytes → Digest) (recipient : Bytes) (v : σ) (hv : ∀ site, Arises (view v site)) :
    ((e.pollRelays net sha256 recipient v).1.map PolledMessage.msgID).Nodup ∧
    (∀ id, id ∈ (e.pollRelays net sha256 recipient v).1.map PolledMessage.msgID ↔
      ∃ relay ∈ e.answeringRelays net sha256 recipient v,
        Owns (view v (host relay)) (mailboxOf sha256 recipient) id) ∧
    (∀ m ∈ (e.pollRelays net sha256 recipient v).1, ∃ relay,
      (e.answeringRelays net sha256 recipient v).find?
        (fun r => Owns (view v (host r)) (mailboxOf sha256 recipient) m.msgID) = some relay ∧
      (m.timestamp.toInt, m.sequence) =
        ((view v (host relay)).getMessageMeta m.msgID).getD (0, 0)) ∧
    ∀ (s : ChunkStore) (id : MsgID) (ts : Int64) (seq : UInt64), 0 < ts →
      s.getMessageMeta id = some (ts.toInt, seq) →
      parsePollRecord (pollRecord s id) = some ⟨id, [], ts, seq⟩ := by
  obtain ⟨hn, hmem⟩ := pollRelays_spec h e sha256 recipient v
  refine ⟨hn, ?_, ?_, fun s id ts seq hpos hmeta => parsePollRecord_stamped hpos hmeta⟩
  · intro id
    rw [List.mem_map]
    constructor
    · rintro ⟨m, hm, rfl⟩
      obtain ⟨relay, hfind, -⟩ := (hmem m).mp hm
      have howns := List.find?_some hfind
      exact ⟨relay, List.mem_of_find?_eq_some hfind, of_decide_eq_true howns⟩
    · rintro ⟨relay, hrelay, howns⟩
      -- some answering relay has the id, so there is a first one
      have hsome : ((e.answeringRelays net sha256 recipient v).find?
          (fun r => Owns (view v (host r)) (mailboxOf sha256 recipient) id)).isSome :=
        List.find?_isSome.mpr ⟨relay, hrelay, decide_eq_true howns⟩
      obtain ⟨first, hfind⟩ := Option.isSome_iff_exists.mp hsome
      refine ⟨pollEntry (view v (host first)) id, (hmem _).mpr ⟨first, ?_, ?_⟩, pollEntry_msgID _ id⟩
      · rw [pollEntry_msgID]
        exact hfind
      · rw [pollEntry_msgID]
  · intro m hm
    obtain ⟨relay, hfind, hentry⟩ := (hmem m).mp hm
    refine ⟨relay, hfind, ?_⟩
    have hmeta := pollEntry_meta (hv (host relay)).stamped m.msgID
    rw [← hentry] at hmeta
    exact hmeta

/-- Relays that answer, except the one at `down`. -/
def partialNetwork (zone down : Bytes) (ctx : Context) : Network Relays where
  exchange proto addr qname w :=
    if addr = down then (none, w) else (directNetwork zone id ctx).exchange proto addr qname w
  resolveAddr addr w := (some addr, w)

private theorem partialNetwork_lossy (zone down : Bytes) (ctx : Context) :
    Lossy (fun _ => zone) id (fun w => w) (partialNetwork zone down ctx) where
  answers proto addr qname w := by
    by_cases hd : addr = down
    · refine ⟨{ ctx with admitted := false }, ?_, ?_⟩
      · intro m hm
        simp [partialNetwork, hd] at hm
      · simp [partialNetwork, hd, handleRequest]
    · refine ⟨{ ctx with admitted := true }, ?_, ?_⟩
      · intro m hm
        simp only [partialNetwork, if_neg hd, directNetwork] at hm
        exact (Option.some.inj hm).symm
      · simp [partialNetwork, hd, directNetwork]
  resolves addr w := ⟨rfl, fun target ht => (Option.some.inj ht).symm⟩

def firstID : MsgID := ⟨[1, 1, 1, 1, 1, 1, 1, 1], rfl⟩

/-- A relay that has taken one chunk for a mailbox at a given time. -/
def stockedAt (now : Int) : ChunkStore :=
  ((newChunkStore 5).store (newChunk firstID 0 1 [42]) now true).2.setMessageOwner firstID
    (b32 (List.replicate 32 7))

theorem stockedAt_arises {now : Int} (h : 0 < unixMilli now ∧ unixMilli now < 2 ^ 63) :
    Arises (stockedAt now) := by
  refine ⟨5, 100, none, [.store (newChunk firstID 0 1 [42]) now true,
    .setMessageOwner firstID (b32 (List.replicate 32 7))], .idle, ?_, rfl⟩
  intro a ha
  simp only [List.mem_cons, List.not_mem_nil, or_false] at ha
  rcases ha with rfl | rfl
  · exact h
  · trivial

/-- The relay at `B` took the chunk first. -/
def earlyAtB : Relays := fun site => if site = lit "B" then stockedAt 3000000 else stockedAt 9000000

theorem pollRelays_exact_firstDown :
    let digest : Bytes → Digest := fun _ => ⟨List.replicate 32 7, rfl⟩
    let net := partialNetwork (lit "z.org") (lit "A") ⟨true, 0, true, []⟩
    let e := newDNSClientEngine [lit "A", lit "B", lit "C"] (lit "z.org")
    let listed := (e.pollRelays net digest (lit "R") earlyAtB).1
    e.answeringRelays net digest (lit "R") earlyAtB = [lit "B", lit "C"] ∧
    (listed.map PolledMessage.msgID).Nodup ∧ firstID ∈ listed.map PolledMessage.msgID ∧
    ∀ m ∈ listed, m.msgID = firstID → m.timestamp.toInt = 3 := by
  intro digest net e listed
  have harises : ∀ site, Arises (earlyAtB site) := by
    intro site
    unfold earlyAtB
    split <;> exact stockedAt_arises (by decide)
  obtain ⟨hn, hids, hstamps, -⟩ := pollRelays_exact
    (partialNetwork_lossy (lit "z.org") (lit "A") ⟨true, 0, true, []⟩) e digest (lit "R")
    earlyAtB harises
  have hans : e.answeringRelays net digest (lit "R") earlyAtB = [lit "B", lit "C"] := by
    decide +kernel
  refine ⟨hans, hn, (hids firstID).mpr ⟨lit "B", ?_, by decide⟩, ?_⟩
  · rw [hans]
    decide
  · intro m hm hid
    obtain ⟨relay, hfind, hmeta⟩ := hstamps m hm
    have hfirst : [lit "B", lit "C"].find?
        (fun r => Owns (earlyAtB r) (mailboxOf digest (lit "R")) firstID) = some (lit "B") := by decide
    rw [hans, hid] at hfind
    obtain rfl := Option.some.inj (hfirst.symm.trans hfind)
    rw [hid] at hmeta
    exact congrArg Prod.fst hmeta

end VRGram.Client
