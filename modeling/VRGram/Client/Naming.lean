import VRGram.Client.Engine
import VRGram.Relay.Server

/-!
# Question names and what relays take them for

`SendChunk` and `pollRelayWithMeta` put three kinds of requests into one space of names.
Each name reaches the relay's dispatch as the labels it was built from, and no two kinds
overlap.
-/
namespace VRGram.Client

open VRGram.Lib.Strings VRGram.Lib.Dns VRGram.Encoding VRGram.Relay

set_option autoImplicit false

/-! ## The names that a call asks for -/

section Recording

variable {σ : Type}

/-- An exchange that also keeps the names it was asked for. -/
def recording (ex : Exchange σ) : Exchange (σ × List Bytes) := noting (fun _ qname => [qname]) ex

def recordingNetwork (net : Network σ) : Network (σ × List Bytes) :=
  notingNetwork (fun _ qname => [qname]) (fun _ => []) net

/-- Every name asked so far is `name`. -/
def OnlyAsked (name : Bytes) (w : σ × List Bytes) : Prop := ∀ q ∈ w.2, q = name

theorem onlyAsked_recording {name : Bytes} {w : σ × List Bytes} (h : OnlyAsked name w)
    (ex : Exchange σ) (proto : Net) (addr : Bytes) :
    OnlyAsked name (recording ex proto addr name w).2 := by
  intro q hq
  rcases List.mem_append.mp hq with hold | hnew
  · exact h q hold
  · exact List.mem_singleton.mp hnew

private theorem sendChunk_asks (ex : Exchange σ) (addr zone : Bytes) (chunk : Chunk)
    (mode : TransportMode) (w : σ) :
    OnlyAsked (questionName chunk.bodyLabels zone)
      (sendChunk (recording ex) addr zone chunk mode (w, [])).2 := by
  refine (sendChunk_spec (recording ex) addr zone chunk mode (w, [])
    (OnlyAsked (questionName chunk.bodyLabels zone)) ?_ ?_).1
  · intro proto v hv
    exact onlyAsked_recording hv ex proto addr
  · intro q hq
    cases hq

private theorem pollRelayWithMeta_asks (net : Network σ) (e : DNSClientEngine) (addr peerID : Bytes)
    (w : σ) :
    OnlyAsked (questionName [lit "POLL", peerID] e.zone)
      (e.pollRelayWithMeta (recordingNetwork net) addr peerID (w, [])).2 := by
  have hstart : OnlyAsked (questionName [lit "POLL", peerID] e.zone)
      ((recordingNetwork net).resolveAddr addr (w, [])).2 := by
    intro q hq
    cases hq
  have hask : ∀ proto target (v : σ × List Bytes),
      OnlyAsked (questionName [lit "POLL", peerID] e.zone) v →
      OnlyAsked (questionName [lit "POLL", peerID] e.zone)
        ((recordingNetwork net).exchange proto target (questionName [lit "POLL", peerID] e.zone) v).2 :=
    fun proto target v hv => onlyAsked_recording hv net.exchange proto target
  simp only [DNSClientEngine.pollRelayWithMeta]
  cases ((recordingNetwork net).resolveAddr addr (w, [])).1 with
  | none => exact hstart
  | some target =>
    have hfirst := hask .tcp target _ hstart
    cases e.transportMode with
    | tcp => exact hfirst
    | udp => exact hask .udp target _ hstart
    | auto =>
      simp only [pollExchange]
      split
      · exact hfirst
      · have hsecond := hask .udp target _ hfirst
        split
        · exact hsecond
        · exact hask .tcp target _ hsecond

end Recording

/-! ## Zones in their plain form -/

/-- A zone without backslashes is closed by a real dot. -/
theorem zoneOk_of_noBackslash {zone : Bytes} (h : backslash ∉ zone) : ZoneOk zone := by
  unfold ZoneOk fqdn
  split
  · assumption
  · rw [isFqdn_concat]
    cases hr : zone.reverse with
    | nil => rfl
    | cons c rest =>
      have hc : c ≠ backslash := by
        intro he
        apply h
        rw [← List.mem_reverse, hr, he]
        exact List.mem_cons_self
      simp [hc]

/-- A zone that does not end in a dot is the same with and without the handler's cleaning. -/
theorem zoneClean_of_noDot {zone : Bytes} (h : zone.getLast? ≠ some dot) : zoneClean zone = zone := by
  have hlit : lit "." = [dot] := by decide
  have hopen : isFqdn zone = false := by
    rcases List.eq_nil_or_concat zone with rfl | ⟨init, c, rfl⟩
    · rfl
    · rw [List.concat_eq_append] at h ⊢
      have hc : c ≠ dot := by simpa using h
      rw [isFqdn_concat]
      simp [hc]
  rw [zoneClean, fqdn, if_neg (by simp [hopen]), hlit, trimSuffix_append]

/-! ## The wire format -/

/-- Splitting leaves a string whole exactly when it has no separator. -/
theorem split_eq_self_iff {sep : UInt8} {s : Bytes} : split sep s = [s] ↔ sep ∉ s := by
  constructor
  · intro h hmem
    obtain ⟨front, rest, rfl⟩ := List.append_of_mem hmem
    rw [split_append_split] at h
    have hfront := List.length_pos_iff.mpr (split_ne_nil sep front)
    have hrest := List.length_pos_iff.mpr (split_ne_nil sep rest)
    have hlen := congrArg List.length h
    rw [List.length_append, List.length_singleton] at hlen
    omega
  · exact split_of_notMem

/-- A POLL for an arbitrary string asks for the string's own labels, so it is a POLL for
that peer exactly when the string has no dot. -/
theorem classify_pollName {zone : Bytes} (hne : zone ≠ []) (hz : ZoneOk zone) (peerID : Bytes) :
    (questionLabels zone (questionName [lit "POLL", peerID] zone)).map (classify zone) =
      some (.poll (split dot peerID)) := by
  have hpoll : dot ∉ lit "POLL" := by decide
  have hjoin : join dot [lit "POLL", peerID] = lit "POLL" ++ dot :: peerID := by
    simp [join, List.intercalate]
  rw [questionName, join_concat (by simp), hjoin, questionLabels_front _ hne hz, split_append hpoll,
    Option.map_some, classify, if_pos rfl]

/-- The codec and the dispatch of the relay, for every zone in plain form. A chunk decodes
from its labels; the name that `SendChunk` asks for arrives as those labels and is taken
for a store of that very chunk or, without a chunk count, for a query. The name that
`pollRelayWithMeta` asks for is a POLL for the mailbox; with another string it is a POLL
for that string exactly when the string has no dot. Decoding is stable under writing the
chunk anew. -/
theorem wire_names_dispatched (zone : Bytes) (hne : zone ≠ []) (hback : backslash ∉ zone)
    (hend : zone.getLast? ≠ some dot) :
    (∀ c : Chunk, c.recipientHash = [] ∨ c.recipientHash.length = 32 →
      decodeChunkFromLabels (c.encodeToLabels zone) zone = .ok c ∧
      (∃ labels, questionLabels zone (fqdn (join dot (c.encodeToLabels zone))) = some labels ∧
        labels ++ [zoneClean zone] = c.encodeToLabels zone ∧
        classify zone labels = if c.totalChunks = 0 then .fetch c else .store c) ∧
      ∀ (σ : Type) (ex : Exchange σ) (addr : Bytes) (mode : TransportMode) (w : σ),
        ∀ qname ∈ (sendChunk (recording ex) addr zone c mode (w, [])).2.2,
          qname = fqdn (join dot (c.encodeToLabels zone))) ∧
    (∀ peerID, (questionLabels zone (questionName [lit "POLL", peerID] zone)).map (classify zone) =
        some (.poll [peerID]) ↔ dot ∉ peerID) ∧
    (∀ (sha256 : Bytes → Digest) (recipient : Bytes),
      (questionLabels zone (questionName [lit "POLL", mailboxOf sha256 recipient] zone)).map
        (classify zone) = some (.poll [mailboxOf sha256 recipient])) ∧
    (∀ (σ : Type) (net : Network σ) (e : DNSClientEngine) (addr peerID : Bytes) (w : σ),
      e.zone = zone →
      ∀ qname ∈ (e.pollRelayWithMeta (recordingNetwork net) addr peerID (w, [])).2.2,
        qname = questionName [lit "POLL", peerID] zone) ∧
    ∀ (labels : List Bytes) (c : Chunk), decodeChunkFromLabels labels zone = .ok c →
      decodeChunkFromLabels (c.encodeToLabels zone) zone = .ok c := by
  have hz := zoneOk_of_noBackslash hback
  refine ⟨?_, ?_, ?_, ?_, fun labels c h => decode_reencode h⟩
  · intro c hc
    refine ⟨decode_encodeToLabels hc zone, ⟨c.bodyLabels, ?_, ?_, classify_bodyLabels hc zone⟩, ?_⟩
    · exact questionLabels_questionName hz (plain_bodyLabels c)
    · rw [zoneClean_of_noDot hend, Chunk.encodeToLabels]
    · intro σ ex addr mode w qname hq
      exact sendChunk_asks ex addr zone c mode w qname hq
  · intro peerID
    rw [classify_pollName hne hz, Option.some.injEq, Query.poll.injEq, split_eq_self_iff]
  · intro sha256 recipient
    have hdot : dot ∉ mailboxOf sha256 recipient := Lib.Base32Hex.notMem_encode (by decide) _
    rw [classify_pollName hne hz, split_of_notMem hdot]
  · intro σ net e addr peerID w he qname hq
    subst he
    exact pollRelayWithMeta_asks net e addr peerID w qname hq

theorem wire_names_dispatched_emptyPayload :
    let zone := lit "msg.local-domain"
    let c : Chunk := { newChunk ⟨List.replicate 8 1, rfl⟩ 3 7 [] with recipientHash := List.replicate 32 9 }
    zone ≠ [] ∧ backslash ∉ zone ∧ zone.getLast? ≠ some dot ∧ c.recipientHash.length = 32 ∧
    decodeChunkFromLabels (c.encodeToLabels zone) zone = .ok c := by
  intro zone c
  refine ⟨by decide, by decide, by decide, by decide, ?_⟩
  exact ((wire_names_dispatched zone (by decide) (by decide) (by decide)).1 c (Or.inr (by decide))).1

/-! ## How long the names get -/

/-- The zone that `relayd` uses when none is given. -/
def defaultZone : Bytes := lit "msg.local-domain"

/-- The query name of a chunk for a recipient is legal up to 95 octets of payload: its labels
always are, and its length is 98 more than the encoded payload and its labels. -/
theorem chunkName_legal_iff {c : Chunk} (h : c.recipientHash.length = 32) :
    LegalName (join dot (c.encodeToLabels defaultZone)) ↔ c.payload.length ≤ 95 := by
  obtain ⟨hcount, hsum⟩ := bodyLabels_extent h
  have hb := b32_length c.payload
  have hzone : defaultZone.length = 16 := by decide
  have hlen := join_length dot (show c.encodeToLabels defaultZone ≠ [] by simp [Chunk.encodeToLabels])
  simp only [Chunk.encodeToLabels, List.map_append, List.sum_append, List.length_append,
    List.map_singleton, List.sum_singleton, List.length_singleton, hcount, hsum, hzone] at hlen
  have hlabels : ∀ l ∈ split dot (join dot (c.encodeToLabels defaultZone)),
      1 ≤ l.length ∧ l.length ≤ 63 := by
    intro l hl
    have hplain := plain_bodyLabels c
    rw [Chunk.encodeToLabels, join_concat hplain.ne_nil, split_append_split,
      split_join hplain.no_dot hplain.ne_nil, List.mem_append] at hl
    rcases hl with hbody | hz
    · have hne := bodyLabels_all_ne_nil c l hbody
      exact ⟨List.length_pos_iff.mpr hne, bodyLabels_length_le (Or.inr h) l hbody⟩
    · have hparts : ∀ l ∈ split dot defaultZone, 1 ≤ l.length ∧ l.length ≤ 63 := by decide
      exact hparts l hz
  rw [LegalName]
  simp only [Chunk.encodeToLabels] at hlen hlabels ⊢
  constructor
  · rintro ⟨-, htext⟩
    omega
  · intro hp
    exact ⟨hlabels, by omega⟩

/-- The clamp of `SetChunkSize`. -/
theorem setChunkSize_toInt (e : DNSClientEngine) (size : Int64) :
    (e.setChunkSize size).chunkSize.toInt = max 32 (min 200 size.toInt) := by
  have h32 : (32 : Int64).toInt = 32 := by decide
  have h200 : (200 : Int64).toInt = 200 := by decide
  simp only [DNSClientEngine.setChunkSize, gt_iff_lt, Int64.lt_iff_toInt_lt, h32, h200]
  split
  · rw [if_neg (by rw [h32]; omega), h32]
    omega
  · split
    · rw [h200]
      omega
    · omega

private theorem setChunkSize_sizeNat (e : DNSClientEngine) (size : Int64) :
    (sizeNat (e.setChunkSize size).chunkSize : Int) = max 32 (min 200 size.toInt) := by
  have hclamp := setChunkSize_toInt e size
  have h0 : (0 : Int64).toInt = 0 := by decide
  rw [← sizeNat_toInt, chunkSizeOf, if_neg, hclamp]
  rw [Int64.le_iff_toInt_le, hclamp, h0]
  omega

/-- The chunks of a message all have legal names at the size that `SetChunkSize` leaves
exactly when the size or the message is at most 95, or the message is so long that the
chunk count overflows and no chunk is made. -/
theorem chunkNames_legal_iff (sha256 : Bytes → Digest) (e : DNSClientEngine) (size : Int64)
    (msgID : MsgID) (payload : Bytes) (hlen : payload.length < 2 ^ 63) (recipient : Bytes)
    (hrec : recipient ≠ []) :
    (∀ chunks, chunkMessage sha256 msgID payload (e.setChunkSize size).chunkSize recipient =
        some chunks →
      ∀ c ∈ chunks, LegalName (join dot (c.encodeToLabels defaultZone))) ↔
    size ≤ 95 ∨ payload.length ≤ 95 ∨
      2 ^ 63 < payload.length + sizeNat (e.setChunkSize size).chunkSize := by
  have hhash : (recipientHashOf sha256 recipient).length = 32 := by
    rw [recipientHashOf, if_neg hrec]
    exact (sha256 recipient).property
  have hsize := setChunkSize_sizeNat e size
  have h95 : (95 : Int64).toInt = 95 := by decide
  rw [Int64.le_iff_toInt_le, h95]
  constructor
  · intro hall
    by_contra hcon
    push Not at hcon
    obtain ⟨hbig, hlong, hfit⟩ := hcon
    have hsized : 96 ≤ sizeNat (e.setChunkSize size).chunkSize := by omega
    -- the first chunk takes as much of the message as the size allows
    obtain ⟨chunks, hchunks, hcount⟩ := chunkMessage_fits sha256 msgID (e.setChunkSize size).chunkSize
      recipient hlen (by omega)
    have hpos : 0 < chunks.length := by
      rw [hcount]
      exact Nat.div_pos (by omega) (by omega)
    obtain ⟨-, -, heq⟩ := chunkMessage_eq hlen hchunks (List.length_pos_iff.mp hpos)
    have hmem : wholeChunk msgID payload (sizeNat (e.setChunkSize size).chunkSize) chunks.length
        (recipientHashOf sha256 recipient) 0 ∈ chunks := by
      rw [heq, List.length_map, List.length_range]
      exact List.mem_map_of_mem (List.mem_range.mpr hpos)
    have hfirst := (chunkName_legal_iff hhash).mp (hall chunks hchunks _ hmem)
    rw [wholeChunk_payload, piece, Nat.zero_mul, List.drop_zero, List.length_take] at hfirst
    omega
  · intro hcond chunks hchunks c hc
    have hne : chunks ≠ [] := List.ne_nil_of_mem hc
    obtain ⟨hcovers, htight, heq⟩ := chunkMessage_eq hlen hchunks hne
    rw [heq] at hc
    obtain ⟨i, hi, rfl⟩ := List.mem_map.mp hc
    rw [chunkName_legal_iff hhash, wholeChunk_payload, piece, List.length_take, List.length_drop]
    rcases hcond with hsmall | hshort | hover
    · omega
    · omega
    · -- a chunk count that overflows makes no chunk
      have hpos : 0 < chunkCount payload.length (e.setChunkSize size).chunkSize := by
        rw [← chunkMessage_count hchunks]
        exact List.length_pos_iff.mpr hne
      have hfit := (chunkTotal_nat hlen _ hpos).1
      omega

theorem chunkNames_legal_iff_ninetySix :
    let e := newDNSClientEngine [] defaultZone
    let digest : Bytes → Digest := fun _ => ⟨List.replicate 32 7, rfl⟩
    ¬ ∀ chunks, chunkMessage digest ⟨List.replicate 8 1, rfl⟩ (List.replicate 96 0)
        (e.setChunkSize 96).chunkSize (lit "R") = some chunks →
      ∀ c ∈ chunks, LegalName (join dot (c.encodeToLabels defaultZone)) := by
  intro e digest
  rw [chunkNames_legal_iff digest e 96 ⟨List.replicate 8 1, rfl⟩ (List.replicate 96 0) (by decide)
    (lit "R") (by decide)]
  decide

/-- With the size at its cap a message of 96 octets is one chunk, whose name is too long. -/
theorem cappedSize_illegal :
    let e := (newDNSClientEngine [] defaultZone).setChunkSize 200
    let digest : Bytes → Digest := fun _ => ⟨List.replicate 32 7, rfl⟩
    ∃ chunks, chunkMessage digest ⟨List.replicate 8 1, rfl⟩ (List.replicate 96 0) e.chunkSize
        (lit "R") = some chunks ∧
      ∃ c ∈ chunks, ¬ LegalName (join dot (c.encodeToLabels defaultZone)) := by
  refine ⟨_, rfl, ?_⟩
  refine ⟨_, List.mem_map_of_mem (a := 0) (List.mem_range.mpr (by decide)), ?_⟩
  rw [chunkName_legal_iff (by decide)]
  decide

end VRGram.Client
