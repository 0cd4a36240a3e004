import VRGram.Client.Dns
import VRGram.Store.Sequence

/-!
# The client engine: polling and fetching

`PollRelays`, `PollMessages` and `fetchAndReassemble` of `DNSClientEngine`. Resolving a
relay's host name is part of the network. Fetching can panic: a first chunk that
claims no chunks makes an empty slice, whose element zero is then assigned.
-/
namespace VRGram.Client

open VRGram.Lib.Maps VRGram.Lib.Strings VRGram.Lib.Dns VRGram.Encoding VRGram.Store

set_option autoImplicit false

structure PolledMessage where
  msgID : MsgID
  data : Bytes
  timestamp : Int64
  sequence : UInt64
  deriving DecidableEq

structure DNSClientEngine where
  relays : List Bytes
  fallbackRelays : List Bytes
  zone : Bytes
  fetched : GoMap MsgID Bool
  transportMode : TransportMode
  chunkSize : Int64

def defaultChunkSize : Int64 := 75

def newDNSClientEngine (fallbackRelays : List Bytes) (zone : Bytes) : DNSClientEngine where
  relays := fallbackRelays
  fallbackRelays := fallbackRelays
  zone := zone
  fetched := ∅
  transportMode := .auto
  chunkSize := defaultChunkSize

def DNSClientEngine.setChunkSize (e : DNSClientEngine) (size : Int64) : DNSClientEngine :=
  let size := if size < 32 then 32 else size
  let size := if size > 200 then 200 else size
  { e with chunkSize := size }

def DNSClientEngine.discoverActiveRelays (e : DNSClientEngine) : List Bytes :=
  if e.fallbackRelays.length > 0 then e.fallbackRelays else e.relays

/-- Exchanges, and the resolver that turns a relay's address into the one to dial. -/
structure Network (σ : Type) where
  exchange : Exchange σ
  resolveAddr : Bytes → σ → Option Bytes × σ

/-- An exchange that also notes something of the address and the name of each question. -/
def noting {σ : Type} (note : Bytes → Bytes → List Bytes) (ex : Exchange σ) :
    Exchange (σ × List Bytes) := fun proto addr qname w =>
  ((ex proto addr qname w.1).1, (ex proto addr qname w.1).2, w.2 ++ note addr qname)

/-- The same for a network, which also notes something of each address that it resolves. -/
def notingNetwork {σ : Type} (asked : Bytes → Bytes → List Bytes) (resolved : Bytes → List Bytes)
    (net : Network σ) : Network (σ × List Bytes) where
  exchange := noting asked net.exchange
  resolveAddr addr w :=
    ((net.resolveAddr addr w.1).1, (net.resolveAddr addr w.1).2, w.2 ++ resolved addr)

inductive PollError where
  | resolve
  | exchange
  | rcode (code : Rcode)
  deriving DecidableEq

inductive FetchError where
  | chunk (i : Nat) (e : QueryError)
  | reassemble (e : ReassembleError)
  deriving DecidableEq

inductive EngineError where
  | noRelays
  deriving DecidableEq

/-! ## Parsing POLL answers -/

/-- The eight bytes of a base32 field, if it is one. -/
def word64Of (field : Bytes) : Option Word64 :=
  match unb32 field with
  | some b => if h : b.length = 8 then some ⟨b, h⟩ else none
  | none => none

/-- `parsePollRecord`; `none` is the nil result. -/
def parsePollRecord (record : Bytes) : Option PolledMessage :=
  match splitN 58 3 record with
  | first :: rest =>
    (word64Of first).map (fun id =>
      match rest with
      | [ts, seq] =>
        { msgID := id
          data := []
          timestamp := ((word64Of ts).map (fun w => (uint64 w).toInt64)).getD 0
          sequence := ((word64Of seq).map uint64).getD 0 }
      | _ => { msgID := id, data := [], timestamp := 0, sequence := 0 })
  | [] => none

/-- The strings of a record, none for a record that is not TXT. -/
def txtStrings : RR → List Bytes
  | .txt strings => strings
  | .other => []

def parsePollResponseWithMeta (resp : Msg) : List PolledMessage :=
  (resp.answer.flatMap txtStrings).filterMap parsePollRecord

/-- The old parser: message ids only, records with anything after them are skipped. -/
def parsePollResponse (resp : Msg) : List MsgID :=
  (resp.answer.flatMap txtStrings).filterMap word64Of

section

variable {σ : Type} (net : Network σ)

/-! ## Polling -/

/-- The outcome of the last exchange that a poll makes. -/
def pollResult : Option Msg → Except PollError (List PolledMessage)
  | none => .error .exchange
  | some m =>
    if m.rcode ≠ .success then .error (.rcode m.rcode) else .ok (parsePollResponseWithMeta m)

/-- The exchanges of a poll after the address has been resolved. -/
def pollExchange (mode : TransportMode) (addr qname : Bytes) (w : σ) :
    Except PollError (List PolledMessage) × σ :=
  match mode with
  | .tcp =>
    let first := net.exchange .tcp addr qname w
    (pollResult first.1, first.2)
  | .udp =>
    let first := net.exchange .udp addr qname w
    (pollResult first.1, first.2)
  | .auto =>
    let first := net.exchange .tcp addr qname w
    if accepted first.1 then (pollResult first.1, first.2)
    else
      let second := net.exchange .udp addr qname first.2
      if accepted second.1 then (pollResult second.1, second.2)
      else
        let third := net.exchange .tcp addr qname second.2
        (pollResult third.1, third.2)

def DNSClientEngine.pollRelayWithMeta (e : DNSClientEngine) (addr peerID : Bytes) (w : σ) :
    Except PollError (List PolledMessage) × σ :=
  let resolved := net.resolveAddr addr w
  match resolved.1 with
  | none => (.error .resolve, resolved.2)
  | some target =>
    pollExchange net e.transportMode target (questionName [lit "POLL", peerID] e.zone) resolved.2

/-- The inner loop of `PollRelays`: append what has not been seen. -/
def addUnseen (known : List PolledMessage) : List PolledMessage → List PolledMessage
  | [] => known
  | m :: rest =>
    addUnseen (if m.msgID ∈ known.map PolledMessage.msgID then known else known ++ [m]) rest

/-- The outer loop of `PollRelays`; a relay that fails is skipped. -/
def DNSClientEngine.pollEach (e : DNSClientEngine) (peerID : Bytes) :
    List Bytes → List PolledMessage → σ → List PolledMessage × σ
  | [], known, w => (known, w)
  | relay :: rest, known, w =>
    let polled := e.pollRelayWithMeta net relay peerID w
    match polled.1 with
    | .error _ => e.pollEach peerID rest known polled.2
    | .ok msgs => e.pollEach peerID rest (addUnseen known msgs) polled.2

variable (sha256 : Bytes → Digest)

/-- The mailbox name of a recipient. -/
def mailboxOf (recipientPubkey : Bytes) : Bytes := b32 (sha256 recipientPubkey).val

def DNSClientEngine.pollRelays (e : DNSClientEngine) (recipientPubkey : Bytes) (w : σ) :
    List PolledMessage × σ :=
  if recipientPubkey = [] then ([], w)
  else e.pollEach net (mailboxOf sha256 recipientPubkey) e.discoverActiveRelays [] w

/-! ## Fetching -/

/-- The loop of `fetchAndReassemble` for the chunks `i, i+1, …, i+count-1`. -/
def fetchChunks (addr zone : Bytes) (msgID : MsgID) (mode : TransportMode) :
    Nat → Nat → σ → Except FetchError (List Chunk) × σ
  | 0, _, w => (.ok [], w)
  | count + 1, i, w =>
    let got := queryChunk net.exchange addr zone msgID (UInt16.ofNat i) mode w
    match got.1 with
    | .error e => (.error (.chunk i e), got.2)
    | .ok c =>
      let more := fetchChunks addr zone msgID mode count (i + 1) got.2
      match more.1 with
      | .error e => (.error e, more.2)
      | .ok cs => (.ok (c :: cs), more.2)

/-- `none` is the panic on a first chunk with `TotalChunks == 0`. -/
def fetchAndReassemble (addr zone : Bytes) (msgID : MsgID) (mode : TransportMode) (w : σ) :
    Option (Except FetchError Bytes) × σ :=
  let head := queryChunk net.exchange addr zone msgID 0 mode w
  match head.1 with
  | .error e => (some (.error (.chunk 0 e)), head.2)
  | .ok firstChunk =>
    let total := firstChunk.totalChunks.toNat
    if total = 0 then (none, head.2)
    else
      let more := fetchChunks net addr zone msgID mode (total - 1) 1 head.2
      match more.1 with
      | .error e => (some (.error e), more.2)
      | .ok rest =>
        match reassembleMessage (firstChunk :: rest) with
        | .error e => (some (.error (.reassemble e)), more.2)
        | .ok data => (some (.ok data), more.2)

/-- The loop over relays for one message: the first success, or the last error. -/
def fetchFirst (zone : Bytes) (msgID : MsgID) (mode : TransportMode) :
    List Bytes → Except FetchError Bytes → σ → Option (Except FetchError Bytes) × σ
  | [], last, w => (some last, w)
  | relay :: rest, _, w =>
    let got := fetchAndReassemble net relay zone msgID mode w
    match got.1 with
    | none => (none, got.2)
    | some (.ok data) => (some (.ok data), got.2)
    | some (.error e) => fetchFirst zone msgID mode rest (.error e) got.2

/-- The loop of `PollMessages` over the listed messages. -/
def fetchEach (zone : Bytes) (mode : TransportMode) (relays : List Bytes) :
    List PolledMessage → GoMap MsgID Bool → σ → Option (List PolledMessage × GoMap MsgID Bool) × σ
  | [], fetched, w => (some ([], fetched), w)
  | pm :: rest, fetched, w =>
    if (fetched.lookup pm.msgID).getD false then fetchEach zone mode relays rest fetched w
    else
      let got := fetchFirst net zone pm.msgID mode relays (.ok []) w
      match got.1 with
      | none => (none, got.2)
      | some (.error _) => fetchEach zone mode relays rest fetched got.2
      | some (.ok data) =>
        let more := fetchEach zone mode relays rest (fetched.insert pm.msgID true) got.2
        (more.1.map (fun r => ({ pm with data := data } :: r.1, r.2)), more.2)

/-- `PollMessages`: the messages or an error, with the engine afterwards; `none` is a panic. -/
def DNSClientEngine.pollMessages (e : DNSClientEngine) (recipientPubkey : Bytes) (w : σ) :
    Option (Except EngineError (List PolledMessage) × DNSClientEngine) × σ :=
  let polled := e.pollRelays net sha256 recipientPubkey w
  if polled.1 = [] then (some (.ok [], e), polled.2)
  else if e.discoverActiveRelays = [] then (some (.error .noRelays, e), polled.2)
  else
    let got := fetchEach net e.zone e.transportMode e.discoverActiveRelays polled.1 e.fetched polled.2
    (got.1.map (fun r => (.ok r.1, { e with fetched := r.2 })), got.2)

end

end VRGram.Client
