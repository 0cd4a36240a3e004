import VRGram.Client.Holdings
import VRGram.Client.Listing

/-!
# What a poll of answering relays returns

When every relay answers, the messages that `PollMessages` returns are determined by what
the relays hold and by what the engine has fetched before. The order in which the relays
list the ids only orders the result. Of a message that was cut into chunks a relay that holds some
of them offers the whole payload or nothing.
-/
namespace VRGram.Client

open VRGram.Lib.Maps VRGram.Lib.Strings VRGram.Lib.Dns
open VRGram.Encoding VRGram.Store VRGram.Relay

set_option autoImplicit false

/-- The engine has marked the id as fetched. -/
def DNSClientEngine.hasFetched (e : DNSClientEngine) (id : MsgID) : Bool :=
  (e.fetched.lookup id).getD false

/-- What the relays offer a recipient under an id: the stamps of the first relay that lists
it and the data of the first that holds it whole. -/
def DNSClientEngine.offered (e : DNSClientEngine) (sha256 : Bytes → Digest) (host : Bytes → Bytes)
    (recipientPubkey : Bytes) (w : Relays) (id : MsgID) : Option PolledMessage :=
  if recipientPubkey = [] then none
  else
    match e.discoverActiveRelays.find?
        (fun r => Owns (w (host r)) (mailboxOf sha256 recipientPubkey) id) with
    | none => none
    | some first =>
      (served (e.discoverActiveRelays.map (fun relay => w (host relay))) id).map
        (fun data => { pollEntry (w (host first)) id with data := data })

/-- What is offered is the data of some relay, for a named recipient. -/
theorem offered_source {e : DNSClientEngine} {sha256 : Bytes → Digest} {host : Bytes → Bytes}
    {recipient : Bytes} {w : Relays} {id : MsgID} {m : PolledMessage}
    (h : e.offered sha256 host recipient w id = some m) :
    m.msgID = id ∧ recipient ≠ [] ∧
      ∃ relay ∈ e.discoverActiveRelays, gather (w (host relay)) id = .ok m.data := by
  unfold DNSClientEngine.offered at h
  split at h
  · cases h
  next hrec =>
    split at h
    next => cases h
    next first hfirst =>
      obtain ⟨data, hserved, rfl⟩ := Option.map_eq_some_iff.mp h
      exact ⟨pollEntry_msgID (w (host first)) id, hrec, served_eq_some hserved⟩

/-- What is offered depends on the configuration of the engine only. -/
theorem offered_congr (e : DNSClientEngine) (fetched : GoMap MsgID Bool) :
    ({ e with fetched := fetched } : DNSClientEngine).offered = e.offered := rfl

theorem Reachable.lossy {zone : Bytes} {host : Bytes → Bytes} {net : Network Relays}
    (h : Reachable zone host net) : Lossy (fun _ => zone) host (fun w => w) net where
  answers proto addr qname w := by
    obtain ⟨ctx, -, hex⟩ := h.answers proto addr qname w
    refine ⟨ctx, ?_, by rw [hex]⟩
    intro m hm
    rw [hex] at hm
    exact (Option.some.inj hm).symm
  resolves addr w := by
    obtain ⟨target, hres, hhost⟩ := h.resolves addr w
    rw [hres]
    refine ⟨rfl, ?_⟩
    intro target' ht
    obtain rfl := Option.some.inj ht
    exact hhost

/-- What the relays offer is an entry of the list of a poll, with the data that they serve under
its id. -/
private theorem offered_iff_listed {e : DNSClientEngine} {sha256 : Bytes → Digest}
    {host : Bytes → Bytes} {recipient : Bytes} (hrec : recipient ≠ []) {w : Relays}
    {listed : List PolledMessage}
    (hlisted : ∀ pm, pm ∈ listed ↔ ∃ first, e.discoverActiveRelays.find?
        (fun r => Owns (w (host r)) (mailboxOf sha256 recipient) pm.msgID) = some first ∧
      pm = pollEntry (w (host first)) pm.msgID)
    (m : PolledMessage) :
    e.offered sha256 host recipient w m.msgID = some m ↔
      ∃ pm ∈ listed, ∃ data,
        served (e.discoverActiveRelays.map (fun relay => w (host relay))) pm.msgID = some data ∧
        m = { pm with data := data } := by
  simp only [DNSClientEngine.offered, if_neg hrec]
  constructor
  · intro ho
    split at ho
    next => cases ho
    next first hfirst =>
      obtain ⟨data, hserved, hm⟩ := Option.map_eq_some_iff.mp ho
      have hid := pollEntry_msgID (w (host first)) m.msgID
      refine ⟨pollEntry (w (host first)) m.msgID, (hlisted _).mpr ⟨first, ?_, ?_⟩, data, ?_, hm.symm⟩
      · rw [hid]
        exact hfirst
      · rw [hid]
      · rw [hid]
        exact hserved
  · rintro ⟨pm, hpm, data, hserved, rfl⟩
    obtain ⟨first, hfirst, hentry⟩ := (hlisted pm).mp hpm
    simp only [hfirst, hserved, Option.map_some, ← hentry]

section

variable {zone : Bytes} {host : Bytes → Bytes} {net : Network Relays}
  (h : Reachable zone host net) (hz : ZoneOk zone) {e : DNSClientEngine} (he : e.zone = zone)

include h hz he

/-- No relay is left out, and nothing changes on the way. -/
theorem pollEach_reachable {digest : Bytes} (hne : digest ≠ []) (relays : List Bytes) (w : Relays) :
    e.answering net (b32 digest) relays w = relays ∧
      ∀ known, (e.pollEach net (b32 digest) relays known w).2 = w := by
  induction relays with
  | nil => exact ⟨rfl, fun _ => rfl⟩
  | cons relay rest ih =>
    obtain ⟨hint, hans⟩ := pollRelayWithMeta_answer h hz he hne relay w
    refine ⟨?_, fun known => ?_⟩
    · simp only [DNSClientEngine.answering, hans, ih.1]
    · simp only [DNSClientEngine.pollEach, hans, ih.2]

/-- `PollMessages` over answering relays returns exactly what they offer and the engine has
not fetched, each message once, and marks what it returns. -/
theorem pollMessages_offers {w : Relays} (hw : ∀ site, WellStored (w site))
    (sha256 : Bytes → Digest) (recipient : Bytes) :
    ∃ msgs fetched',
      (e.pollMessages net sha256 recipient w).1 = some (.ok msgs, { e with fetched := fetched' }) ∧
      (msgs.map PolledMessage.msgID).Nodup ∧
      (∀ m, m ∈ msgs ↔
        e.hasFetched m.msgID = false ∧ e.offered sha256 host recipient w m.msgID = some m) ∧
      ∀ id, ({ e with fetched := fetched' } : DNSClientEngine).hasFetched id = true ↔
        e.hasFetched id = true ∨ id ∈ msgs.map PolledMessage.msgID := by
  by_cases hrec : recipient = []
  · refine ⟨[], e.fetched, ?_, by simp, ?_, by simp [DNSClientEngine.hasFetched]⟩
    · simp [DNSClientEngine.pollMessages, DNSClientEngine.pollRelays, hrec]
    · simp [DNSClientEngine.offered, hrec]
  obtain ⟨hanswering, hstill⟩ := pollEach_reachable h hz he (digest_ne_nil (sha256 recipient))
    e.discoverActiveRelays w
  have hworld : (e.pollRelays net sha256 recipient w).2 = w := by
    rw [DNSClientEngine.pollRelays, if_neg hrec]
    exact hstill []
  have hall : e.answeringRelays net sha256 recipient w = e.discoverActiveRelays := by
    rw [DNSClientEngine.answeringRelays, if_neg hrec]
    exact hanswering
  obtain ⟨hn, hlisted⟩ := pollRelays_spec h.lossy e sha256 recipient w
  rw [hall] at hlisted
  have hoffer := offered_iff_listed hrec hlisted
  by_cases hnone : (e.pollRelays net sha256 recipient w).1 = []
  · refine ⟨[], e.fetched, by simp [DNSClientEngine.pollMessages, hnone], by simp, ?_,
      by simp [DNSClientEngine.hasFetched]⟩
    intro m
    rw [hoffer, hnone]
    simp
  have hrelays : e.discoverActiveRelays ≠ [] := by
    intro hnil
    obtain ⟨m, hm⟩ := List.exists_mem_of_ne_nil _ hnone
    obtain ⟨first, hfirst, -⟩ := (hlisted m).mp hm
    rw [hnil] at hfirst
    cases hfirst
  obtain ⟨msgs, fetched', hrun, hsub, hmem, hfetched⟩ :=
    fetchEach_served h hz hw e.transportMode hrelays hn e.fetched
  subst he
  refine ⟨msgs, fetched', ?_, hn.sublist hsub, ?_, hfetched⟩
  · simp only [DNSClientEngine.pollMessages, if_neg hnone, if_neg hrelays, hworld, hrun,
      Option.map_some]
  · intro m
    rw [hmem, hoffer]
    constructor
    · rintro ⟨pm, hpm, hnew, data, hserved, rfl⟩
      exact ⟨hnew, pm, hpm, data, hserved, rfl⟩
    · rintro ⟨hnew, pm, hpm, data, hserved, rfl⟩
      exact ⟨pm, hpm, hnew, data, hserved, rfl⟩

end

/-! ## What a relay serves of a parcel -/

section Serving

variable {p : Parcel} (hsmall : p.n ≤ 65535) {s : ChunkStore} {got : List Nat}
  (h : Carries p s got)

include hsmall h

theorem servedChunk_carries {i : Nat} (hi : i < p.n) {c : Chunk}
    (hserved : servedChunk s p.msgID (UInt16.ofNat i) = .ok c) : c = p.chunk i := by
  have hget := servedChunk_ok hserved
  have hidx : (UInt16.ofNat i).toNat = i := Parcel.chunk_idx hsmall hi
  rw [h.slots, hidx] at hget
  split at hget
  · exact (Option.some.inj hget).symm
  · cases hget

private theorem gatherChunks_carries {count i : Nat} (hle : i + count ≤ p.n) {cs : List Chunk}
    (hgather : gatherChunks s p.msgID count i = .ok cs) :
    cs = (List.range' i count).map p.chunk := by
  induction count generalizing i cs with
  | zero =>
    obtain rfl := Except.ok.inj hgather
    rfl
  | succ count ih =>
    rw [gatherChunks] at hgather
    split at hgather
    next => cases hgather
    next c hc =>
      split at hgather
      next => cases hgather
      next more hmore =>
        obtain rfl := Except.ok.inj hgather
        rw [servedChunk_carries hsmall h (by omega) hc, ih (by omega) hmore, List.range'_succ,
          List.map_cons]

/-- A relay that holds anything of the parcel never serves another payload under its id. -/
theorem gather_carries {data : Bytes} (hgather : gather s p.msgID = .ok data) :
    data = p.payload := by
  have hpos := p.pos
  rw [gather] at hgather
  split at hgather
  next => cases hgather
  next first hfirst =>
    obtain rfl := servedChunk_carries (i := 0) hsmall h hpos hfirst
    rw [Parcel.chunk_total hsmall] at hgather
    split at hgather
    next => cases hgather
    next rest hrest =>
      obtain rfl := gatherChunks_carries hsmall h (by omega) hrest
      rw [← p.chunks_eq_cons, reassemble_parcel hsmall] at hgather
      exact (Except.ok.inj hgather).symm

end Serving

section Offering

variable {p : Parcel} (hsmall : p.n ≤ 65535) {w : Relays} {got : Bytes → List Nat}
  (h : Holdings p w got) {e : DNSClientEngine} {sha256 : Bytes → Digest} {host : Bytes → Bytes}
  {recipient : Bytes}

include hsmall h

/-- Whatever the relays offer under the id of the parcel is the parcel. -/
theorem offered_carries {m : PolledMessage}
    (ho : e.offered sha256 host recipient w p.msgID = some m) :
    m.msgID = p.msgID ∧ m.data = p.payload := by
  obtain ⟨hid, -, relay, -, hgather⟩ := offered_source ho
  exact ⟨hid, gather_carries hsmall (h (host relay)) hgather⟩

/-- A parcel that one of the relays holds whole is offered to its recipient. -/
theorem offered_complete {zone : Bytes} (hz : ZoneOk zone) (hw : ∀ site, WellStored (w site))
    (hrec : recipient ≠ []) (hhash : p.hash = (sha256 recipient).val) {relay : Bytes}
    (hrelay : relay ∈ e.discoverActiveRelays) (hall : ∀ i < p.n, i ∈ got (host relay)) :
    ∃ m, e.offered sha256 host recipient w p.msgID = some m := by
  have howns : Owns (w (host relay)) (mailboxOf sha256 recipient) p.msgID := by
    have hgot : got (host relay) ≠ [] := List.ne_nil_of_mem (hall 0 p.pos)
    have hne : p.hash ≠ [] := by
      rw [hhash]
      exact digest_ne_nil _
    rw [Owns, (h (host relay)).owner, if_neg (by simp [hgot, hne]), hhash]
    rfl
  have hfound : (e.discoverActiveRelays.find?
      (fun r => Owns (w (host r)) (mailboxOf sha256 recipient) p.msgID)).isSome := by
    rw [List.find?_isSome]
    exact ⟨relay, hrelay, decide_eq_true howns⟩
  obtain ⟨first, hfirst⟩ := Option.isSome_iff_exists.mp hfound
  -- the relay serves the payload, as it does over any network
  have hreach := directNetwork_reachable zone host ⟨true, 0, true, []⟩
  have hfetch := fetchAndReassemble_stored hreach hz hsmall
    (carries_all hsmall (h (host relay)) hall) .auto
  rw [fetchAndReassemble_gather hreach hz hw, Prod.mk.injEq, Option.some.injEq] at hfetch
  obtain ⟨data, hserved⟩ := served_of_gather (fun r => w (host r)) hrelay hfetch.1
  rw [DNSClientEngine.offered, if_neg hrec, hfirst]
  exact ⟨_, by rw [hserved]; rfl⟩

end Offering

end VRGram.Client
