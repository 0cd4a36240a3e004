import Mathlib.Data.List.Induction
import Mathlib.Tactic.IntervalCases
import VRGram.Client.SendParallel

/-!
# The relays that are configured and the relays in use

The engine keeps the start-up list beside the list that `AddRelay` and `RemoveRelay` edit.
`GetRelayStatus` reports the second; `SendMessage` and `PollRelays` ask
`discoverActiveRelays`, which prefers the first. An edit reads the list and writes it back
under separate locks.
-/
namespace VRGram.Client

open VRGram.Lib.Maps VRGram.Lib.Strings VRGram.Lib.Dns VRGram.Lib.Machine
open VRGram.Encoding VRGram.Store VRGram.Relay

set_option autoImplicit false

/-! ## Editing and reporting the list -/

def DNSClientEngine.getRelays (e : DNSClientEngine) : List Bytes := e.relays

def DNSClientEngine.setRelays (e : DNSClientEngine) (relays : List Bytes) : DNSClientEngine :=
  { e with relays := relays }

inductive RelayEdit where
  | add (address : Bytes)
  | remove (address : Bytes)
  deriving DecidableEq

def RelayEdit.address : RelayEdit → Bytes
  | .add address => address
  | .remove address => address

/-- What `AddRelay` and `RemoveRelay` make of the list they have read. -/
def RelayEdit.apply : RelayEdit → List Bytes → List Bytes
  | .add address, relays => relays ++ [address]
  | .remove address, relays => relays.filter (fun r => r ≠ address)

def DNSClientEngine.edit (e : DNSClientEngine) (edit : RelayEdit) : DNSClientEngine :=
  e.setRelays (edit.apply e.getRelays)

inductive NetworkMode where
  | normal
  | blackout
  deriving DecidableEq

structure RelayStatus where
  address : Bytes
  reachable : Bool
  latencyMs : Int32
  lastError : Bytes
  blackoutMode : Bool
  deriving DecidableEq

def DNSClientEngine.getRelayStatus (e : DNSClientEngine) (mode : NetworkMode) : List RelayStatus :=
  e.getRelays.map (fun r => ⟨r, mode = .normal, 0, [], mode = .blackout⟩)

/-- The edit has the effect it asks for. -/
def RelayEdit.Effective : RelayEdit → List Bytes → Prop
  | .add address, relays => address ∈ relays
  | .remove address, relays => address ∉ relays

instance (edit : RelayEdit) (relays : List Bytes) : Decidable (edit.Effective relays) :=
  match edit with
  | .add address => inferInstanceAs (Decidable (address ∈ relays))
  | .remove address => inferInstanceAs (Decidable (address ∉ relays))

theorem RelayEdit.mem_apply (edit : RelayEdit) (relays : List Bytes) (a : Bytes) :
    a ∈ edit.apply relays ↔
      if edit.address = a then edit = .add a else a ∈ relays := by
  cases edit with
  | add b =>
    by_cases hb : b = a
    · simp [RelayEdit.apply, RelayEdit.address, hb]
    · simp [RelayEdit.apply, RelayEdit.address, hb, Ne.symm hb]
  | remove b =>
    by_cases hb : b = a
    · simp [RelayEdit.apply, RelayEdit.address, hb]
    · simp [RelayEdit.apply, RelayEdit.address, hb, Ne.symm hb]

/-! ## Who is contacted -/

section Contacts

variable {σ : Type}

/-- An exchange that also keeps the addresses it was made with. -/
def contacting (ex : Exchange σ) : Exchange (σ × List Bytes) := noting (fun addr _ => [addr]) ex

/-- A network that keeps the relays it was asked to resolve. -/
def contactingNetwork (net : Network σ) : Network (σ × List Bytes) :=
  notingNetwork (fun _ _ => []) (fun addr => [addr]) net

/-- The relays that one call of `PollRelays` turns to. -/
def DNSClientEngine.polled (e : DNSClientEngine) (net : Network σ) (sha256 : Bytes → Digest)
    (recipientPubkey : Bytes) (w : σ) : List Bytes :=
  (e.pollRelays (contactingNetwork net) sha256 recipientPubkey (w, [])).2.2

private theorem pollExchange_contacts (net : Network σ) (mode : TransportMode) (addr qname : Bytes)
    (w : σ × List Bytes) : (pollExchange (contactingNetwork net) mode addr qname w).2.2 = w.2 := by
  have hkept : ∀ proto (v : σ × List Bytes),
      ((contactingNetwork net).exchange proto addr qname v).2.2 = v.2 :=
    fun _ v => List.append_nil v.2
  cases mode with
  | tcp => exact hkept .tcp w
  | udp => exact hkept .udp w
  | auto =>
    simp only [pollExchange]
    split_ifs <;> simp only [hkept]

private theorem pollRelayWithMeta_contacts (net : Network σ) (e : DNSClientEngine)
    (addr peerID : Bytes) (w : σ × List Bytes) :
    (e.pollRelayWithMeta (contactingNetwork net) addr peerID w).2.2 = w.2 ++ [addr] := by
  unfold DNSClientEngine.pollRelayWithMeta
  cases h : ((contactingNetwork net).resolveAddr addr w).1 with
  | none =>
    simp only [h]
    rfl
  | some target =>
    simp only [h, pollExchange_contacts]
    rfl

private theorem pollEach_contacts (net : Network σ) (e : DNSClientEngine) (peerID : Bytes)
    (relays : List Bytes) (known : List PolledMessage) (w : σ × List Bytes) :
    (e.pollEach (contactingNetwork net) peerID relays known w).2.2 = w.2 ++ relays := by
  induction relays generalizing known w with
  | nil => simp [DNSClientEngine.pollEach]
  | cons relay rest ih =>
    have hlog := pollRelayWithMeta_contacts net e relay peerID w
    unfold DNSClientEngine.pollEach
    cases h : (e.pollRelayWithMeta (contactingNetwork net) relay peerID w).1 with
    | error err => simp only [h, ih, hlog, List.append_assoc, List.singleton_append]
    | ok msgs => simp only [h, ih, hlog, List.append_assoc, List.singleton_append]

/-- Whatever the network answers, `PollRelays` turns to every active relay in turn. -/
theorem polled_eq_active (e : DNSClientEngine) (net : Network σ) (sha256 : Bytes → Digest)
    {recipientPubkey : Bytes} (h : recipientPubkey ≠ []) (w : σ) :
    e.polled net sha256 recipientPubkey w = e.discoverActiveRelays := by
  rw [DNSClientEngine.polled, DNSClientEngine.pollRelays, if_neg h, pollEach_contacts]
  rfl

end Contacts

/-! ### Sending -/

section Sending

variable {σ : Type}

def maxRetries : Nat := 3

inductive RetryError where
  | cancelled
  | allRelaysFailed
  deriving DecidableEq

/-- The two loops of `sendWithRetry`, over the relays of all attempts; the context is
found alive `checks` times. -/
def tryEach (ex : Exchange σ) (zone : Bytes) (chunk : Chunk) (mode : TransportMode) :
    List Bytes → Nat → σ → Except RetryError Nat × σ
  | [], _, w => (.error .allRelaysFailed, w)
  | _ :: _, 0, w => (.error .cancelled, w)
  | relay :: rest, checks + 1, w =>
    let sent := sendChunk ex relay zone chunk mode w
    match sent.1 with
    | .ok _ => (.ok checks, sent.2)
    | .error _ => tryEach ex zone chunk mode rest checks sent.2

def DNSClientEngine.sendWithRetry (e : DNSClientEngine) (ex : Exchange σ) (chunk : Chunk)
    (checks : Nat) (w : σ) : Except RetryError Nat × σ :=
  tryEach ex e.zone chunk e.transportMode (List.replicate maxRetries e.getRelays).flatten checks w

/-- `SendMessage` when no relay is active: chunk after chunk, until one fails. -/
def DNSClientEngine.sendOneByOne (e : DNSClientEngine) (ex : Exchange σ) :
    List Chunk → Nat → σ → Except RetryError Nat × σ
  | [], checks, w => (.ok checks, w)
  | chunk :: rest, checks, w =>
    let sent := e.sendWithRetry ex chunk checks w
    match sent.1 with
    | .ok left => e.sendOneByOne ex rest left sent.2
    | .error err => (.error err, sent.2)

end Sending

/-- A worker of the call gets to send to the relay in some run. -/
def Call.SendsTo (call : Call) (w : Relays) (relay : Bytes) : Prop :=
  ∃ acts k mode fates s t wk, run call.step (call.start w) acts = some s ∧
    call.step s (.send k mode fates) = some t ∧ s.workers[k]? = some wk ∧ wk.relay = relay

/-- The chunks may be sent to the relay. -/
def DNSClientEngine.SendsChunksTo (e : DNSClientEngine) (host : Bytes → Bytes) (chunks : List Chunk)
    (w : Relays) (relay : Bytes) : Prop :=
  if e.discoverActiveRelays.length > 0 then
    Call.SendsTo ⟨e.zone, host, chunks, e.discoverActiveRelays⟩ w relay
  else
    ∃ checks fates, relay ∈ (e.sendOneByOne (contacting (fatedExchange e.zone host)) chunks checks
      ((w, fates), [])).2.2

/-- `SendMessage` may send to the relay. -/
def DNSClientEngine.SendsTo (e : DNSClientEngine) (sha256 : Bytes → Digest) (host : Bytes → Bytes)
    (msgID : MsgID) (plaintext recipientPubkey : Bytes) (w : Relays) (relay : Bytes) : Prop :=
  ∃ chunks, chunkMessage sha256 msgID plaintext e.chunkSize recipientPubkey = some chunks ∧
    e.SendsChunksTo host chunks w relay

private theorem staffed_run {call : Call} {w : Relays} {acts : List Act} {s : Sending}
    (h : run call.step (call.start w) acts = some s) : Staffed call s :=
  run_invariant (fun _ _ _ => staffed_step) (staffed_start call w) h

theorem withWorker_eq {s : Sending} {k : Nat} {wk : Worker} (hk : s.workers[k]? = some wk)
    (f : Worker → Option Sending) : s.withWorker k wk.phase f = f wk := by
  simp only [Sending.withWorker, hk, if_true]

theorem held_start (call : Call) (w : Relays) : (call.start w).held = 0 := by
  rw [Sending.held, List.countP_eq_zero]
  intro wk hwk
  have hphase := (mem_call_workers.mp hwk).2.2
  simp [hphase]

/-- As long as there is a chunk, every relay of the call can be sent to and no other. -/
theorem call_sendsTo_iff {call : Call} (hne : call.chunks ≠ []) (w : Relays) (relay : Bytes) :
    call.SendsTo w relay ↔ relay ∈ call.relays := by
  constructor
  · rintro ⟨acts, k, mode, fates, s, t, wk, hrun, -, hk, rfl⟩
    exact ((staffed_run hrun).2 wk (List.mem_of_getElem? hk)).2
  · intro hrelay
    have hpos : 0 < call.chunks.length := List.length_pos_iff.mpr hne
    have hmem : (⟨0, relay, .waiting⟩ : Worker) ∈ call.workers :=
      mem_call_workers.mpr ⟨hpos, hrelay, rfl⟩
    obtain ⟨k, hk⟩ := List.mem_iff_getElem?.mp hmem
    have hlt : k < call.workers.length := (List.getElem?_eq_some_iff.mp hk).1
    have hset : ∀ (s : Sending) (wk : Worker) (phase : Phase), k < s.workers.length →
        (s.setPhase k wk phase).workers[k]? = some { wk with phase := phase } := by
      intro s wk phase hs
      simp [Sending.setPhase, hs]
    let waiting : Worker := ⟨0, relay, .waiting⟩
    let holding : Worker := ⟨0, relay, .holding⟩
    let s₁ := (call.start w).setPhase k waiting .holding
    let s₂ := s₁.setPhase k holding .sending
    have hk₁ : s₁.workers[k]? = some holding := hset _ waiting .holding hlt
    have hlt₁ : k < s₁.workers.length := (List.getElem?_eq_some_iff.mp hk₁).1
    have hk₂ : s₂.workers[k]? = some ⟨0, relay, .sending⟩ := hset _ holding .sending hlt₁
    have hacquire : call.step (call.start w) (.acquire k) = some s₁ := by
      show (call.start w).withWorker k waiting.phase _ = _
      rw [withWorker_eq hk, held_start, if_pos (by decide)]
    have hproceed : call.step s₁ (.proceed k) = some s₂ := by
      show s₁.withWorker k holding.phase _ = _
      rw [withWorker_eq hk₁]
      rfl
    obtain ⟨chunk, hchunk⟩ : ∃ chunk, call.chunks[0]? = some chunk :=
      ⟨call.chunks[0], List.getElem?_eq_getElem hpos⟩
    have hsend : ∃ t, call.step s₂ (.send k .tcp []) = some t := by
      show ∃ t, s₂.withWorker k (Worker.mk 0 relay .sending).phase _ = some t
      rw [withWorker_eq hk₂, hchunk]
      exact ⟨_, rfl⟩
    obtain ⟨t, ht⟩ := hsend
    refine ⟨[.acquire k, .proceed k], k, .tcp, [], s₂, t, _, ?_, ht, hk₂, rfl⟩
    exact run_cons.mpr ⟨s₁, hacquire, run_cons.mpr ⟨s₂, hproceed, rfl⟩⟩

private theorem sendOneByOne_nowhere {σ : Type} {e : DNSClientEngine} (h : e.relays = [])
    (ex : Exchange σ) (chunks : List Chunk) (checks : Nat) (w : σ) :
    (e.sendOneByOne ex chunks checks w).2 = w := by
  cases chunks with
  | nil => rfl
  | cons chunk rest =>
    have hnone : e.sendWithRetry ex chunk checks w = (.error .allRelaysFailed, w) := by
      rw [DNSClientEngine.sendWithRetry, DNSClientEngine.getRelays, h]
      rfl
    rw [DNSClientEngine.sendOneByOne, hnone]

private theorem sendsChunksTo_iff (e : DNSClientEngine) (host : Bytes → Bytes) {chunks : List Chunk}
    (hne : chunks ≠ []) (w : Relays) (relay : Bytes) :
    e.SendsChunksTo host chunks w relay ↔ relay ∈ e.discoverActiveRelays := by
  unfold DNSClientEngine.SendsChunksTo
  split_ifs with hactive
  · exact call_sendsTo_iff (show (Call.mk e.zone host chunks e.discoverActiveRelays).chunks ≠ []
      from hne) w relay
  · have hnone : e.discoverActiveRelays = [] := List.eq_nil_of_length_eq_zero (by omega)
    have hrelays : e.relays = [] := by
      unfold DNSClientEngine.discoverActiveRelays at hnone
      split_ifs at hnone with hfallback
      · rw [hnone] at hfallback
        cases hfallback
      · exact hnone
    constructor
    · rintro ⟨checks, fates, hmem⟩
      rw [sendOneByOne_nowhere hrelays] at hmem
      cases hmem
    · intro hmem
      rw [hnone] at hmem
      cases hmem

/-- `SendMessage` sends to the active relays. -/
theorem sendsTo_iff {e : DNSClientEngine} {sha256 : Bytes → Digest} {msgID : MsgID}
    {plaintext recipientPubkey : Bytes} {chunks : List Chunk}
    (h : chunkMessage sha256 msgID plaintext e.chunkSize recipientPubkey = some chunks)
    (hne : chunks ≠ []) (host : Bytes → Bytes) (w : Relays) (relay : Bytes) :
    e.SendsTo sha256 host msgID plaintext recipientPubkey w relay ↔
      relay ∈ e.discoverActiveRelays := by
  rw [← sendsChunksTo_iff e host hne w relay]
  constructor
  · rintro ⟨chunks', hchunks', hsends⟩
    obtain rfl : chunks = chunks' := Option.some.inj (h.symm.trans hchunks')
    exact hsends
  · exact fun hsends => ⟨chunks, h, hsends⟩

/-! ## The set in use and the set reported -/

def DNSClientEngine.editAll (e : DNSClientEngine) (edits : List RelayEdit) : DNSClientEngine :=
  edits.foldl DNSClientEngine.edit e

/-- The last edit that names the address. -/
def lastEdit (edits : List RelayEdit) (a : Bytes) : Option RelayEdit :=
  edits.reverse.find? (fun edit => edit.address = a)

private theorem lastEdit_concat (edits : List RelayEdit) (edit : RelayEdit) (a : Bytes) :
    lastEdit (edits ++ [edit]) a = if edit.address = a then some edit else lastEdit edits a := by
  by_cases ha : edit.address = a <;> simp [lastEdit, ha]

theorem lastEdit_address {edits : List RelayEdit} {a : Bytes} {edit : RelayEdit}
    (h : lastEdit edits a = some edit) : edit.address = a := by
  simpa using List.find?_some h

private theorem editAll_fallbackRelays (e : DNSClientEngine) (edits : List RelayEdit) :
    (e.editAll edits).fallbackRelays = e.fallbackRelays := by
  induction edits generalizing e with
  | nil => rfl
  | cons edit rest ih => exact ih (e.edit edit)

/-- The last edit of an address decides whether it is listed. -/
theorem mem_editAll (e : DNSClientEngine) (edits : List RelayEdit) (a : Bytes) :
    a ∈ (e.editAll edits).relays ↔
      match lastEdit edits a with
      | some edit => edit = .add a
      | none => a ∈ e.relays := by
  induction edits using List.reverseRecOn with
  | nil => rfl
  | append_singleton edits edit ih =>
    have hlast : (e.editAll (edits ++ [edit])).relays = edit.apply (e.editAll edits).relays := by
      rw [DNSClientEngine.editAll, List.foldl_append]
      rfl
    rw [hlast, RelayEdit.mem_apply, lastEdit_concat]
    by_cases ha : edit.address = a
    · rw [if_pos ha, if_pos ha]
    · rw [if_neg ha, if_neg ha]
      exact ih

/-- Taken together the edits keep the start-up set: the last edit of an address adds it if
the start-up list has it and removes it if not. -/
def Restores (startup : List Bytes) (edits : List RelayEdit) : Prop :=
  ∀ a, ∀ edit, lastEdit edits a = some edit → edit.Effective startup

private theorem restores_iff (startup : List Bytes) (zone : Bytes) (edits : List RelayEdit) :
    Restores startup edits ↔
      ∀ a, a ∈ startup ↔ a ∈ ((newDNSClientEngine startup zone).editAll edits).relays := by
  refine forall_congr' (fun a => ?_)
  rw [mem_editAll]
  cases h : lastEdit edits a with
  | none => simp [newDNSClientEngine]
  | some edit =>
    have ha := lastEdit_address h
    cases edit with
    | add b =>
      obtain rfl : b = a := ha
      simp [RelayEdit.Effective]
    | remove b =>
      obtain rfl : b = a := ha
      simp [RelayEdit.Effective]

/-- The relays that are sent to and polled are the ones reported, exactly if the engine
started without relays or the edits since have kept the start-up set. -/
theorem relays_in_use_iff {σ : Type} (startup : List Bytes) (zone : Bytes) (edits : List RelayEdit)
    (mode : NetworkMode) (net : Network σ) (sha256 : Bytes → Digest) (host : Bytes → Bytes)
    (msgID : MsgID) (plaintext recipientPubkey : Bytes) (hrecipient : recipientPubkey ≠ [])
    (chunks : List Chunk) (hne : chunks ≠ [])
    (hchunks : chunkMessage sha256 msgID plaintext
      ((newDNSClientEngine startup zone).editAll edits).chunkSize recipientPubkey = some chunks)
    (relays : Relays) (w : σ) :
    let e := (newDNSClientEngine startup zone).editAll edits
    let reported := (e.getRelayStatus mode).map RelayStatus.address
    (∀ relay,
        (e.SendsTo sha256 host msgID plaintext recipientPubkey relays relay ↔ relay ∈ reported) ∧
        (relay ∈ e.polled net sha256 recipientPubkey w ↔ relay ∈ reported)) ↔
      startup = [] ∨ Restores startup edits := by
  intro e reported
  have hreported : reported = e.relays := by
    show (e.relays.map _).map _ = e.relays
    rw [List.map_map]
    exact List.map_id' _
  have hfallback : e.fallbackRelays = startup :=
    editAll_fallbackRelays (newDNSClientEngine startup zone) edits
  have huse : (∀ relay,
      (e.SendsTo sha256 host msgID plaintext recipientPubkey relays relay ↔ relay ∈ reported) ∧
      (relay ∈ e.polled net sha256 recipientPubkey w ↔ relay ∈ reported)) ↔
      ∀ relay, relay ∈ e.discoverActiveRelays ↔ relay ∈ e.relays := by
    refine forall_congr' (fun relay => ?_)
    rw [sendsTo_iff hchunks hne, polled_eq_active e net sha256 hrecipient, hreported, and_self]
  rw [huse]
  by_cases hstart : startup = []
  · have hactive : e.discoverActiveRelays = e.relays := by
      rw [DNSClientEngine.discoverActiveRelays, hfallback, hstart]
      rfl
    rw [hactive]
    exact iff_of_true (fun _ => Iff.rfl) (Or.inl hstart)
  · have hactive : e.discoverActiveRelays = startup := by
      rw [DNSClientEngine.discoverActiveRelays, hfallback,
        if_pos (List.length_pos_iff.mpr hstart)]
    rw [hactive, restores_iff startup zone edits]
    exact ⟨Or.inr, fun h => h.resolve_left hstart⟩

theorem relays_in_use_iff_removedAndAdded :
    let digest : Bytes → Digest := fun _ => ⟨List.replicate 32 7, rfl⟩
    let net := directNetwork (lit "z.org") id ⟨true, 0, true, []⟩
    let e := (newDNSClientEngine [lit "A", lit "B"] (lit "z.org")).editAll
      [.remove (lit "A"), .add (lit "A")]
    let reported := (e.getRelayStatus .normal).map RelayStatus.address
    ∀ relay,
      (e.SendsTo digest id ⟨List.replicate 8 1, rfl⟩ [10, 20, 30] (lit "R")
        (fun _ => newChunkStore 5) relay ↔ relay ∈ reported) ∧
      (relay ∈ e.polled net digest (lit "R") (fun _ => newChunkStore 5) ↔ relay ∈ reported) := by
  intro digest net e reported
  refine (relays_in_use_iff [lit "A", lit "B"] (lit "z.org") [.remove (lit "A"), .add (lit "A")]
    .normal net digest id ⟨List.replicate 8 1, rfl⟩ [10, 20, 30] (lit "R") (by decide) _ ?_ rfl
    (fun _ => newChunkStore 5) (fun _ => newChunkStore 5)).mpr (Or.inr ?_)
  · decide
  · intro a edit h
    have hmem := List.mem_of_find?_eq_some h
    have ha := lastEdit_address h
    simp only [List.reverse_cons, List.reverse_nil, List.nil_append, List.cons_append,
      List.mem_cons, List.not_mem_nil, or_false] at hmem
    rcases hmem with rfl | rfl
    · decide
    · obtain rfl : lit "A" = a := ha
      cases h

/-- After `RemoveRelay` of the only start-up relay and `AddRelay` of another, messages
still go to the removed relay and none goes to the added one. -/
theorem removedRelay_in_use :
    let digest : Bytes → Digest := fun _ => ⟨List.replicate 32 7, rfl⟩
    let net := directNetwork (lit "z.org") id ⟨true, 0, true, []⟩
    let e := (newDNSClientEngine [lit "A"] (lit "z.org")).editAll
      [.remove (lit "A"), .add (lit "B")]
    let sends := e.SendsTo digest id ⟨List.replicate 8 1, rfl⟩ [10, 20, 30] (lit "R")
      (fun _ => newChunkStore 5)
    (e.getRelayStatus .normal).map RelayStatus.address = [lit "B"] ∧
      e.polled net digest (lit "R") (fun _ => newChunkStore 5) = [lit "A"] ∧
      sends (lit "A") ∧ ¬ sends (lit "B") := by
  intro digest net e sends
  obtain ⟨chunks, hchunks, hcount⟩ := chunkMessage_fits digest ⟨List.replicate 8 1, rfl⟩
    e.chunkSize (lit "R") (show [10, 20, 30].length < 2 ^ 63 by decide) (by decide)
  have hne : chunks ≠ [] := by
    rintro rfl
    exact absurd hcount (by decide)
  have hsends : ∀ relay, sends relay ↔ relay ∈ e.discoverActiveRelays :=
    sendsTo_iff hchunks hne id (fun _ => newChunkStore 5)
  refine ⟨rfl, polled_eq_active e net digest (by decide) _, ?_, ?_⟩
  · rw [hsends]
    decide
  · rw [hsends]
    decide

/-! ## Concurrent edits -/

/-- A call that has read the list holds its copy until it writes. -/
inductive EditPhase where
  | called
  | holding (relays : List Bytes)
  | returned

structure Editing where
  engine : DNSClientEngine
  phases : Nat → EditPhase

/-- The steps of call `k`: `GetRelays` and `SetRelays`, each under its own lock. -/
inductive EditAct where
  | read (k : Nat)
  | write (k : Nat)
  deriving DecidableEq

def Editing.start (e : DNSClientEngine) : Editing := ⟨e, fun _ => .called⟩

def editStep (calls : List RelayEdit) (s : Editing) : EditAct → Option Editing
  | .read k =>
    match calls[k]?, s.phases k with
    | some _, .called =>
      some { s with phases := Function.update s.phases k (.holding s.engine.getRelays) }
    | _, _ => none
  | .write k =>
    match calls[k]?, s.phases k with
    | some edit, .holding relays =>
      some ⟨s.engine.setRelays (edit.apply relays), Function.update s.phases k .returned⟩
    | _, _ => none

private theorem editStep_cases {calls : List RelayEdit} {s t : Editing} {a : EditAct}
    (h : editStep calls s a = some t) :
    (∃ k, a = .read k ∧
      t = { s with phases := Function.update s.phases k (.holding s.engine.getRelays) }) ∨
    (∃ k edit relays, a = .write k ∧ calls[k]? = some edit ∧ s.phases k = .holding relays ∧
      t = ⟨s.engine.setRelays (edit.apply relays), Function.update s.phases k .returned⟩) := by
  cases a with
  | read k =>
    cases hc : calls[k]? with
    | none => simp only [editStep, hc, reduceCtorEq] at h
    | some edit =>
      cases hp : s.phases k with
      | called =>
        simp only [editStep, hc, hp, Option.some.injEq] at h
        exact Or.inl ⟨k, rfl, h.symm⟩
      | _ => simp only [editStep, hc, hp, reduceCtorEq] at h
  | write k =>
    cases hc : calls[k]? with
    | none => simp only [editStep, hc, reduceCtorEq] at h
    | some edit =>
      cases hp : s.phases k with
      | holding relays =>
        simp only [editStep, hc, hp, Option.some.injEq] at h
        exact Or.inr ⟨k, edit, relays, rfl, hc, hp, h.symm⟩
      | _ => simp only [editStep, hc, hp, reduceCtorEq] at h

/-- Which calls the engine's list has come through, and for each call those that the list it
has read had come through. -/
structure Provenance where
  current : List Nat
  seen : Nat → List Nat

def Provenance.step (p : Provenance) : EditAct → Provenance
  | .read k => { p with seen := Function.update p.seen k p.current }
  | .write k => { p with current := k :: p.seen k }

/-- The call that wrote last, the call whose list it had read, and so on back to the start. -/
def survivors (schedule : List EditAct) : List Nat :=
  (schedule.foldl Provenance.step ⟨[], fun _ => []⟩).current

/-- An edit shows in the list if its call is among those carried, or if it asks for nothing new. -/
def Carries (calls : List RelayEdit) (start : List Bytes) (carried : List Nat)
    (relays : List Bytes) : Prop :=
  ∀ k edit, calls[k]? = some edit → (edit.Effective relays ↔ k ∈ carried ∨ edit.Effective start)

private theorem effective_apply_self (edit : RelayEdit) (relays : List Bytes) :
    edit.Effective (edit.apply relays) := by
  cases edit with
  | add a => exact ((RelayEdit.add a).mem_apply relays a).mpr (by simp [RelayEdit.address])
  | remove a =>
    intro h
    have := ((RelayEdit.remove a).mem_apply relays a).mp h
    simp [RelayEdit.address] at this

private theorem effective_apply_of_ne {edit other : RelayEdit} (h : edit.address ≠ other.address)
    (relays : List Bytes) : other.Effective (edit.apply relays) ↔ other.Effective relays := by
  have hmem := edit.mem_apply relays other.address
  rw [if_neg h] at hmem
  cases other with
  | add a => exact hmem
  | remove a => exact not_congr hmem

theorem Carries.write {calls : List RelayEdit} {start relays : List Bytes} {carried : List Nat}
    (hdistinct : (calls.map RelayEdit.address).Nodup) (h : Carries calls start carried relays)
    {k : Nat} {edit : RelayEdit} (hk : calls[k]? = some edit) :
    Carries calls start (k :: carried) (edit.apply relays) := by
  intro j other hj
  by_cases hjk : j = k
  · subst hjk
    obtain rfl : edit = other := Option.some.inj (hk.symm.trans hj)
    exact iff_of_true (effective_apply_self edit relays) (Or.inl List.mem_cons_self)
  · have hne : edit.address ≠ other.address := by
      intro he
      obtain ⟨hlt, -⟩ := List.getElem?_eq_some_iff.mp hj
      refine hjk ((List.getElem?_inj (by simpa using hlt) hdistinct).mp ?_)
      rw [List.getElem?_map, List.getElem?_map, hj, hk, Option.map_some, Option.map_some, he]
    rw [effective_apply_of_ne hne, h j other hj, List.mem_cons, or_iff_right hjk]

/-- The copies that calls hold carry what their provenance says, as the engine's list does. -/
structure Traced (calls : List RelayEdit) (start : List Bytes) (s : Editing) (p : Provenance) :
    Prop where
  list : Carries calls start p.current s.engine.getRelays
  copies : ∀ k relays, s.phases k = .holding relays → Carries calls start (p.seen k) relays

theorem Traced.step {calls : List RelayEdit} {start : List Bytes} {s t : Editing} {p : Provenance}
    {a : EditAct} (hdistinct : (calls.map RelayEdit.address).Nodup)
    (h : Traced calls start s p) (hst : editStep calls s a = some t) :
    Traced calls start t (p.step a) := by
  rcases editStep_cases hst with ⟨k, rfl, rfl⟩ | ⟨k, edit, relays, rfl, hk, hp, rfl⟩
  · refine ⟨h.list, ?_⟩
    intro j relays hj
    by_cases hjk : j = k
    · subst hjk
      simp only [Function.update_self, EditPhase.holding.injEq] at hj
      simp only [Provenance.step, Function.update_self]
      exact hj ▸ h.list
    · simp only [Function.update_of_ne hjk] at hj
      simp only [Provenance.step, Function.update_of_ne hjk]
      exact h.copies j relays hj
  · refine ⟨(h.copies k relays hp).write hdistinct hk, ?_⟩
    intro j copy hj
    by_cases hjk : j = k
    · subst hjk
      simp only [Function.update_self, reduceCtorEq] at hj
    · simp only [Function.update_of_ne hjk] at hj
      exact h.copies j copy hj

/-- Every edit takes effect in an interleaving exactly if each call that asks for a change is
the last to write, or wrote the list that such a call had read. -/
theorem relay_updates_kept_iff (e : DNSClientEngine) (calls : List RelayEdit)
    (hdistinct : (calls.map RelayEdit.address).Nodup) (schedule : List EditAct) (s : Editing)
    (hrun : run (editStep calls) (Editing.start e) schedule = some s) :
    (∀ edit ∈ calls, edit.Effective s.engine.getRelays) ↔
      ∀ k edit, calls[k]? = some edit →
        k ∈ survivors schedule ∨ edit.Effective e.getRelays := by
  have hstart : Traced calls e.getRelays (Editing.start e) ⟨[], fun _ => []⟩ := by
    refine ⟨?_, fun _ _ h => nomatch h⟩
    intro k edit _
    rw [or_iff_right List.not_mem_nil]
    rfl
  have hcarries : Carries calls e.getRelays (survivors schedule) s.engine.getRelays :=
    (run_history (fun _ _ _ _ h hst => h.step hdistinct hst) hstart hrun).list
  constructor
  · intro h k edit hk
    exact (hcarries k edit hk).mp (h edit (List.mem_of_getElem? hk))
  · intro h edit hmem
    obtain ⟨k, hk⟩ := List.mem_iff_getElem?.mp hmem
    exact (hcarries k edit hk).mpr (h k edit hk)

theorem relay_updates_kept_iff_inTurn :
    let e := newDNSClientEngine [lit "A"] (lit "z.org")
    ∃ s, run (editStep [.remove (lit "A"), .add (lit "B")]) (Editing.start e)
        [.read 1, .write 1, .read 0, .write 0] = some s ∧
      ∀ edit ∈ [RelayEdit.remove (lit "A"), .add (lit "B")],
        edit.Effective s.engine.getRelays := by
  intro e
  refine ⟨_, rfl, (relay_updates_kept_iff e _ (by decide)
    [.read 1, .write 1, .read 0, .write 0] _ rfl).mpr ?_⟩
  intro k edit hk
  have hlt : k < 2 := (List.getElem?_eq_some_iff.mp hk).1
  refine Or.inl ?_
  interval_cases k <;> decide

/-- Two calls read the empty list; the second to write erases what the first has added. -/
theorem concurrentAdd_lost :
    let calls := [RelayEdit.add (lit "A"), .add (lit "B")]
    ∃ s, run (editStep calls) (Editing.start (newDNSClientEngine [] (lit "z.org")))
        [.read 0, .read 1, .write 0, .write 1] = some s ∧
      (calls.map RelayEdit.address).Nodup ∧ (s.phases 0, s.phases 1) = (.returned, .returned) ∧
      s.engine.getRelays = [lit "B"] :=
  ⟨_, rfl, by decide, rfl, rfl⟩

end VRGram.Client
