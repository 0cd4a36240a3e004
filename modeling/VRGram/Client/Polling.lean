import VRGram.Client.Transport

/-!
# Polling reachable relays

`PollMessages` over relays that answer. Everything it does is a read, so the relays are
the same before and after, and the result is determined by which relays list a message
and which of them can serve all of its chunks.
-/
namespace VRGram.Client

open VRGram.Lib.Maps VRGram.Lib.Strings VRGram.Lib.Dns VRGram.Lib.Machine
open VRGram.Encoding VRGram.Store VRGram.Relay

set_option autoImplicit false

/-! ## Relays store only chunks that they can serve -/

/-- Every stored chunk announces at least one chunk and has a whole recipient hash or none. -/
def WellStored (s : ChunkStore) : Prop :=
  ∀ id i c, s.getChunk id i = some c → c.totalChunks ≠ 0 ∧ c.HashOk

private theorem storeOf_ok {zone : Bytes} {question : List Bytes} {c : Chunk}
    (h : storeOf zone question = some c) : c.totalChunks ≠ 0 ∧ c.HashOk := by
  unfold storeOf at h
  split at h
  · cases h
  · split at h
    · rename_i chunk hq
      obtain rfl := Option.some.inj h
      obtain ⟨labels, _, hclass⟩ := Option.map_eq_some_iff.mp hq
      unfold classify at hclass
      split at hclass
      · split at hclass
        · cases hclass
        · split at hclass
          · cases hclass
          · rename_i decoded hd
            split at hclass
            · cases hclass
            · cases hclass
              exact ⟨by assumption, decodeChunk_hashOk hd⟩
      · cases hclass
    · cases h

private theorem wellStored_accept {s : ChunkStore} (h : WellStored s) {c : Chunk}
    (hc : c.totalChunks ≠ 0 ∧ c.HashOk) (ctx : Context) : WellStored (acceptChunk ctx c s) := by
  intro id i d hd
  rw [acceptChunk_getChunk] at hd
  split at hd
  · obtain rfl := Option.some.inj hd
    exact hc
  · exact h id i d hd

theorem wellStored_request {s : ChunkStore} (h : WellStored s) (zone : Bytes) (ctx : Context)
    (question : List Bytes) : WellStored (handleRequest zone ctx question s).2 := by
  rw [handleRequest_state]
  split
  · cases hs : storeOf zone question with
    | none => exact h
    | some c => exact wellStored_accept h (storeOf_ok hs) ctx
  · exact h

private theorem wellStored_gc {s : ChunkStore} (h : WellStored s) (hint : List MsgID) (now : Int) :
    WellStored (s.gc hint now) := by
  intro id i c hc
  refine h id i c ?_
  obtain ⟨buf, hbuf, hchunk⟩ := Option.bind_eq_some_iff.mp hc
  exact Option.bind_eq_some_iff.mpr ⟨buf, (gc_lookup_eq_some.mp hbuf).1, hchunk⟩

theorem wellStored_step {zone : Bytes} {s t : ChunkStore} {e : Event} (h : WellStored s)
    (hs : relayStep zone s e = some t) : WellStored t := by
  cases e with
  | request ctx question =>
    obtain rfl := Option.some.inj hs
    exact wellStored_request h zone ctx question
  | gc now hint =>
    obtain rfl := Option.some.inj hs
    exact wellStored_gc h hint now

/-- The store of a relay that has run for some time. -/
def Reached (zone : Bytes) (s : ChunkStore) : Prop :=
  ∃ (ttl limit : Int) (sc : Option SequenceCounter) (events : List Event),
    run (relayStep zone) { newChunkStore ttl with maxPerPeer := limit, sequenceCounter := sc } events =
      some s

theorem Reached.wellStored {zone : Bytes} {s : ChunkStore} (h : Reached zone s) : WellStored s := by
  obtain ⟨ttl, limit, sc, events, hr⟩ := h
  have hnew : WellStored { newChunkStore ttl with maxPerPeer := limit, sequenceCounter := sc } := by
    intro id i c hc
    cases hc
  exact run_invariant (fun u e v hu hs => wellStored_step hu hs) hnew hr

/-! ## What a fetch gathers -/

/-- What a relay answers about one chunk. -/
def servedChunk (s : ChunkStore) (id : MsgID) (idx : UInt16) : Except QueryError Chunk :=
  match s.getChunk id idx with
  | none => .error (.rcode .nameError)
  | some c => .ok c

def gatherChunks (s : ChunkStore) (id : MsgID) : Nat → Nat → Except FetchError (List Chunk)
  | 0, _ => .ok []
  | count + 1, i =>
    match servedChunk s id (UInt16.ofNat i) with
    | .error e => .error (.chunk i e)
    | .ok c =>
      match gatherChunks s id count (i + 1) with
      | .error e => .error e
      | .ok cs => .ok (c :: cs)

/-- The message as one relay holds it. -/
def gather (s : ChunkStore) (id : MsgID) : Except FetchError Bytes :=
  match servedChunk s id 0 with
  | .error e => .error (.chunk 0 e)
  | .ok first =>
    match gatherChunks s id (first.totalChunks.toNat - 1) 1 with
    | .error e => .error e
    | .ok rest =>
      match reassembleMessage (first :: rest) with
      | .error e => .error (.reassemble e)
      | .ok data => .ok data

/-- The data of the first relay that holds the whole message. -/
def served (stores : List ChunkStore) (id : MsgID) : Option Bytes :=
  stores.findSome? (fun s => (gather s id).toOption)

theorem servedChunk_ok {s : ChunkStore} {id : MsgID} {idx : UInt16} {c : Chunk}
    (h : servedChunk s id idx = .ok c) : s.getChunk id idx = some c := by
  unfold servedChunk at h
  split at h
  next => cases h
  next c' hget =>
    obtain rfl := Except.ok.inj h
    exact hget

private theorem gatherChunks_ok {s : ChunkStore} {id : MsgID} {count i : Nat} {cs : List Chunk}
    (h : gatherChunks s id count i = .ok cs) :
    cs.length = count ∧ ∀ c ∈ cs, ∃ j, s.getChunk id j = some c := by
  induction count generalizing i cs with
  | zero =>
    obtain rfl := Except.ok.inj h
    exact ⟨rfl, fun c hc => by cases hc⟩
  | succ count ih =>
    rw [gatherChunks] at h
    split at h
    next => cases h
    next c hc =>
      split at h
      next => cases h
      next more hmore =>
        obtain rfl := Except.ok.inj h
        obtain ⟨hlen, hall⟩ := ih hmore
        refine ⟨by rw [List.length_cons, hlen], ?_⟩
        intro d hd
        rcases List.mem_cons.mp hd with rfl | htail
        · exact ⟨_, servedChunk_ok hc⟩
        · exact hall d htail

/-- Gathered data comes from as many stored chunks as the first of them announces. -/
theorem gather_ok {s : ChunkStore} (hs : WellStored s) {id : MsgID} {data : Bytes}
    (h : gather s id = .ok data) :
    ∃ first rest, s.getChunk id 0 = some first ∧ reassembleMessage (first :: rest) = .ok data ∧
      rest.length + 1 = first.totalChunks.toNat ∧
      ∀ c ∈ first :: rest, ∃ j, s.getChunk id j = some c := by
  unfold gather at h
  split at h
  next => cases h
  next first hfirst =>
    split at h
    next => cases h
    next rest hrest =>
      split at h
      next => cases h
      next data' hre =>
        obtain rfl := Except.ok.inj h
        have hget := servedChunk_ok hfirst
        obtain ⟨hlen, hall⟩ := gatherChunks_ok hrest
        have hpos : first.totalChunks.toNat ≠ 0 := by
          intro h0
          exact (hs id 0 first hget).1 (UInt16.toNat.inj h0)
        refine ⟨first, rest, hget, hre, by omega, ?_⟩
        intro c hc
        rcases List.mem_cons.mp hc with rfl | htail
        · exact ⟨0, hget⟩
        · exact hall c htail

theorem served_eq_some {relays : List Bytes} {f : Bytes → ChunkStore} {id : MsgID} {data : Bytes}
    (h : served (relays.map f) id = some data) : ∃ relay ∈ relays, gather (f relay) id = .ok data := by
  obtain ⟨s, hs, hg⟩ := List.exists_of_findSome?_eq_some h
  obtain ⟨relay, hrelay, rfl⟩ := List.mem_map.mp hs
  refine ⟨relay, hrelay, ?_⟩
  cases hgather : gather (f relay) id with
  | error e => rw [hgather] at hg; cases hg
  | ok d => rw [hgather] at hg; rw [Option.some.inj hg]

theorem served_of_gather {relays : List Bytes} (f : Bytes → ChunkStore) {id : MsgID}
    {relay data : Bytes} (hrelay : relay ∈ relays) (h : gather (f relay) id = .ok data) :
    ∃ data', served (relays.map f) id = some data' := by
  apply Option.isSome_iff_exists.mp
  rw [served, List.findSome?_isSome_iff]
  exact ⟨f relay, List.mem_map_of_mem hrelay, by rw [h]; rfl⟩

/-! ## Fetching never panics and changes nothing -/

section

variable {zone : Bytes} {host : Bytes → Bytes} {net : Network Relays}
  (h : Reachable zone host net) (hz : ZoneOk zone) {w : Relays} (hw : ∀ site, WellStored (w site))

include h hz hw

theorem queryChunk_served (addr : Bytes) (id : MsgID) (idx : UInt16) (mode : TransportMode) :
    queryChunk net.exchange addr zone id idx mode w = (servedChunk (w (host addr)) id idx, w) := by
  unfold servedChunk
  split
  next hget => exact queryChunk_absent h hz hget mode
  next c hget => exact queryChunk_stored h hz (hw (host addr) id idx c hget).2 hget mode

private theorem fetchChunks_gather (addr : Bytes) (id : MsgID) (mode : TransportMode)
    (count i : Nat) :
    fetchChunks net addr zone id mode count i w = (gatherChunks (w (host addr)) id count i, w) := by
  induction count generalizing i with
  | zero => rfl
  | succ count ih =>
    rw [fetchChunks, gatherChunks, queryChunk_served h hz hw, ih]
    cases servedChunk (w (host addr)) id (UInt16.ofNat i) with
    | error e => rfl
    | ok c => cases gatherChunks (w (host addr)) id count (i + 1) <;> rfl

theorem fetchAndReassemble_gather (addr : Bytes) (id : MsgID) (mode : TransportMode) :
    fetchAndReassemble net addr zone id mode w = (some (gather (w (host addr)) id), w) := by
  rw [fetchAndReassemble, gather, queryChunk_served h hz hw]
  cases hfirst : servedChunk (w (host addr)) id 0 with
  | error e => rfl
  | ok first =>
    have hpos : first.totalChunks.toNat ≠ 0 := by
      intro h0
      exact (hw (host addr) id 0 first (servedChunk_ok hfirst)).1 (UInt16.toNat.inj h0)
    simp only [if_neg hpos, fetchChunks_gather h hz hw]
    cases gatherChunks (w (host addr)) id (first.totalChunks.toNat - 1) 1 with
    | error e => rfl
    | ok rest =>
      simp only
      cases reassembleMessage (first :: rest) <;> rfl

/-- Over a list of relays the loop ends with the data of the first that has it all. -/
theorem fetchFirst_served (id : MsgID) (mode : TransportMode) (relays : List Bytes)
    (last : Except FetchError Bytes) (hlast : relays = [] → last.toOption = none) :
    ∃ r, fetchFirst net zone id mode relays last w = (some r, w) ∧
      r.toOption = served (relays.map (fun relay => w (host relay))) id := by
  induction relays generalizing last with
  | nil => exact ⟨last, rfl, hlast rfl⟩
  | cons relay rest ih =>
    rw [fetchFirst, fetchAndReassemble_gather h hz hw, List.map_cons, served, List.findSome?_cons]
    cases gather (w (host relay)) id with
    | ok data => exact ⟨.ok data, rfl, rfl⟩
    | error e => exact ih (.error e) (fun _ => rfl)

/-- The messages of a poll are those of the list, without repetition, that are new to the
engine and that some relay holds whole. -/
theorem fetchEach_served (mode : TransportMode) {relays : List Bytes} (hne : relays ≠ [])
    {listed : List PolledMessage} (hn : (listed.map PolledMessage.msgID).Nodup)
    (fetched : GoMap MsgID Bool) :
    ∃ msgs fetched', fetchEach net zone mode relays listed fetched w = (some (msgs, fetched'), w) ∧
      (msgs.map PolledMessage.msgID).Sublist (listed.map PolledMessage.msgID) ∧
      (∀ m, m ∈ msgs ↔ ∃ pm ∈ listed, (fetched.lookup pm.msgID).getD false = false ∧
        ∃ data, served (relays.map (fun relay => w (host relay))) pm.msgID = some data ∧
          m = { pm with data := data }) ∧
      ∀ id, (fetched'.lookup id).getD false = true ↔
        (fetched.lookup id).getD false = true ∨ id ∈ msgs.map PolledMessage.msgID := by
  induction listed generalizing fetched with
  | nil => exact ⟨[], fetched, rfl, List.Sublist.slnil, by simp, by simp⟩
  | cons pm rest ih =>
    rw [List.map_cons, List.nodup_cons] at hn
    have hother : ∀ q ∈ rest, q.msgID ≠ pm.msgID := by
      intro q hq he
      exact hn.1 (he ▸ List.mem_map_of_mem hq)
    by_cases hf : (fetched.lookup pm.msgID).getD false = true
    · obtain ⟨msgs, fetched', hrun, hsub, hmem, hfetched⟩ := ih hn.2 fetched
      refine ⟨msgs, fetched', by simp only [fetchEach, if_pos hf, hrun], hsub.cons _, ?_, hfetched⟩
      intro m
      rw [hmem]
      simp [hf]
    · obtain ⟨r, hr, hserved⟩ := fetchFirst_served h hz hw pm.msgID mode relays
        (.ok []) (fun hnil => absurd hnil hne)
      have hnew : (fetched.lookup pm.msgID).getD false = false := by simpa using hf
      cases r with
      | error e =>
        obtain ⟨msgs, fetched', hrun, hsub, hmem, hfetched⟩ := ih hn.2 fetched
        refine ⟨msgs, fetched', by simp only [fetchEach, if_neg hf, hr, hrun], hsub.cons _, ?_,
          hfetched⟩
        intro m
        rw [hmem]
        simp [← hserved, Except.toOption]
      | ok data =>
        obtain ⟨msgs, fetched', hrun, hsub, hmem, hfetched⟩ := ih hn.2 (fetched.insert pm.msgID true)
        refine ⟨{ pm with data := data } :: msgs, fetched',
          by simp only [fetchEach, if_neg hf, hr, hrun, Option.map_some], hsub.cons_cons _, ?_, ?_⟩
        · intro m
          -- marking this id as fetched hides no later entry
          have hrest : ∀ q ∈ rest, ((fetched.insert pm.msgID true).lookup q.msgID).getD false =
              (fetched.lookup q.msgID).getD false := by
            intro q hq
            rw [lookup_insert_ite, if_neg (hother q hq)]
          rw [List.mem_cons, hmem]
          simp only [List.mem_cons, exists_eq_or_imp, hnew, ← hserved, Except.toOption,
            Option.some.injEq, exists_eq_left', true_and]
          refine or_congr Iff.rfl (exists_congr fun q => and_congr_right fun hq => ?_)
          rw [hrest q hq]
        · intro id
          rw [hfetched, lookup_insert_ite, List.map_cons, List.mem_cons]
          by_cases hid : id = pm.msgID
          · simp [hid]
          · simp [hid]

end

/-! ## Polling -/

section

variable {zone : Bytes} {host : Bytes → Bytes} {net : Network Relays}
  (h : Reachable zone host net) (hz : ZoneOk zone)

include h hz

theorem Reachable.poll {digest : Bytes} (hne : digest ≠ []) (proto : Net) (addr : Bytes)
    (w : Relays) :
    ∃ hint, net.exchange proto addr (questionName [lit "POLL", b32 digest] zone) w =
      (some (.txt (((w (host addr)).listPeerMessages hint (b32 digest)).map
        (pollRecord (w (host addr))))), w) := by
  obtain ⟨ctx, hadm, hex⟩ := h.answers proto addr (questionName [lit "POLL", b32 digest] zone) w
  refine ⟨ctx.hint, ?_⟩
  rw [hex, handleRequest_poll hne hz hadm, Function.update_eq_self]

/-- One relay's answer: the entries of the mailbox, in some order. -/
theorem pollRelayWithMeta_answer {e : DNSClientEngine} (he : e.zone = zone) {digest : Bytes}
    (hne : digest ≠ []) (addr : Bytes) (w : Relays) :
    ∃ hint, e.pollRelayWithMeta net addr (b32 digest) w =
      (.ok (((w (host addr)).listPeerMessages hint (b32 digest)).map (pollEntry (w (host addr)))), w) := by
  obtain ⟨target, hres, hhost⟩ := h.resolves addr w
  obtain ⟨hint, htcp⟩ := h.poll hz hne .tcp target w
  obtain ⟨hint', hudp⟩ := h.poll hz hne .udp target w
  rw [hhost] at htcp hudp
  have hparse := parsePollResponse_records (w (host addr))
  subst he
  cases hmode : e.transportMode with
  | udp =>
    refine ⟨hint', ?_⟩
    simp only [DNSClientEngine.pollRelayWithMeta, hres, pollExchange, hmode, hudp, pollResult,
      Msg.txt, ne_eq, not_true_eq_false, if_false]
    rw [← hparse]
    rfl
  | _ =>
    refine ⟨hint, ?_⟩
    simp only [DNSClientEngine.pollRelayWithMeta, hres, pollExchange, hmode, htcp, accepted,
      pollResult, Msg.txt, beq_self_eq_true, if_true, ne_eq, not_true_eq_false, if_false]
    rw [← hparse]
    rfl

end

theorem mem_addUnseen_ids (known msgs : List PolledMessage) (id : MsgID) :
    id ∈ (addUnseen known msgs).map PolledMessage.msgID ↔
      id ∈ known.map PolledMessage.msgID ∨ id ∈ msgs.map PolledMessage.msgID := by
  induction msgs generalizing known with
  | nil => simp [addUnseen]
  | cons m rest ih =>
    rw [addUnseen, ih]
    split
    · rename_i hm
      simp only [List.map_cons, List.mem_cons]
      constructor
      · intro hc
        rcases hc with hk | hr
        · exact Or.inl hk
        · exact Or.inr (Or.inr hr)
      · intro hc
        rcases hc with hk | rfl | hr
        · exact Or.inl hk
        · exact Or.inl hm
        · exact Or.inr hr
    · simp [or_assoc]

theorem addUnseen_nodup {known : List PolledMessage}
    (hk : (known.map PolledMessage.msgID).Nodup) (msgs : List PolledMessage) :
    ((addUnseen known msgs).map PolledMessage.msgID).Nodup := by
  induction msgs generalizing known with
  | nil => exact hk
  | cons m rest ih =>
    rw [addUnseen]
    apply ih
    split
    · exact hk
    · rename_i hm
      rw [List.map_append, List.nodup_append]
      refine ⟨hk, by simp, ?_⟩
      intro a ha b hb hab
      rw [List.map_singleton, List.mem_singleton] at hb
      subst hab
      rw [hb] at ha
      exact hm ha

end VRGram.Client
