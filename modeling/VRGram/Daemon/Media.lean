import VRGram.Daemon.Receive
import VRGram.Daemon.Send
import VRGram.Lib.Json
import VRGram.Lib.Machine
import VRGram.Media.Transfer

/-!
# Media transfers

`SendMedia`, `SendMediaStream`, `GetMediaStatus`, `CancelSend` and a pass of
`cleanupTransfers`. The two senders are machines: each step ends with at most one critical
section on the transfers, so a call by another party falls between two steps. What a
sender meets (the clock, the relays, the temporary file, the media server, the stream) is
in the event that moves it.

A sender's pointer to its transfer is modelled by the transfer's id. An entry leaves the
map only through a cleanup, and a write through the pointer is then seen by nobody.
-/
namespace VRGram.Client

open VRGram.Lib VRGram.Lib.Maps VRGram.Lib.Strings VRGram.Crypto VRGram.Encoding

set_option autoImplicit false

/-! ## The transfers -/

inductive TransferStatus where
  | queued
  | sending
  | complete
  | failed
  | cancelled
  deriving DecidableEq

/-- The errors of the handlers and of the transfers, one for each message. -/
inductive MediaError where
  | noRelays
  | noRelaysForUpload
  | upload
  | marshal
  | notBase64
  | invalidPeerPubkey
  | crypto (e : CryptoError)
  | engine
  | recv
  | createTemp
  | fileTooLarge
  | noData
  | readTemp
  | sendAndClose
  | transferNotFound
  | alreadyFinished
  deriving DecidableEq

structure MediaTransfer where
  status : TransferStatus
  progress : Int32
  chunksSent : Int32
  error : Option MediaError
  /-- In nanoseconds. -/
  created : Int
  deriving DecidableEq

def MediaTransfer.fail (e : MediaError) (t : MediaTransfer) : MediaTransfer :=
  { t with status := .failed, error := some e }

def MediaTransfer.complete (t : MediaTransfer) : MediaTransfer :=
  { t with status := .complete, progress := 100 }

/-- The daemon as far as media transfers read and write it. The last three fields are its
history: what was given to `engine.SendMessage` for which transfer, the files the media
server took, and the ids under which transfers were registered. -/
structure MediaState where
  transfers : GoMap Bytes MediaTransfer
  transferStore : Option Media.TransferStore
  handed : List (Bytes × Outgoing)
  uploads : List Bytes
  registered : List Bytes

/-- The metadata messages for one transfer, so far. -/
def MediaState.handedFor (s : MediaState) (id : Bytes) : List Outgoing :=
  (s.handed.filter (fun h => h.1 = id)).map Prod.snd

@[simps]
def MediaState.register (s : MediaState) (id : Bytes) (created : Int) : MediaState :=
  { s with
    transfers := s.transfers.insert id ⟨.queued, 0, 0, none, created⟩
    registered := s.registered ++ [id] }

/-- A write to the transfer, if the map still has it. -/
def MediaState.modify (s : MediaState) (id : Bytes) (f : MediaTransfer → MediaTransfer) :
    MediaState :=
  match s.transfers.lookup id with
  | none => s
  | some t => { s with transfers := s.transfers.insert id (f t) }

@[simps]
def MediaState.createEntry (s : MediaState) (entry : Media.TransferEntry) : MediaState :=
  { s with transferStore := s.transferStore.map (fun store => store.create entry) }

@[simps]
def MediaState.updateEntry (s : MediaState) (id : Bytes) (status : Media.TransferStatus)
    (progress chunksSent : Int32) : MediaState :=
  { s with
    transferStore := s.transferStore.map
      (fun store => store.update id status progress chunksSent) }

/-- The persisted entry, if the store is open. -/
def MediaState.entry (s : MediaState) (id : Bytes) : Option Media.TransferEntry :=
  s.transferStore.bind (fun store => store.get id)

/-- The failure exits of `SendMediaStream` write both records. -/
def MediaState.failBoth (s : MediaState) (id : Bytes) (e : MediaError) (chunkCount : Int32) :
    MediaState :=
  (s.modify id (MediaTransfer.fail e)).updateEntry id .failed 0 chunkCount

@[simps]
def MediaState.handOver (s : MediaState) (id : Bytes) (out : Outgoing) : MediaState :=
  { s with handed := s.handed ++ [(id, out)] }

/-! ## The calls beside the senders -/

inductive ProtoStatus where
  | queued
  | sending
  | complete
  | failed
  deriving DecidableEq

def TransferStatus.toProto : TransferStatus → ProtoStatus
  | queued => .queued
  | sending => .sending
  | complete => .complete
  | failed | cancelled => .failed

structure MediaStatusResponse where
  messageId : Bytes
  status : ProtoStatus
  progressPct : Int32
  error : Option MediaError
  deriving DecidableEq

def MediaState.getMediaStatus (s : MediaState) (messageId : Bytes) :
    Except MediaError MediaStatusResponse :=
  match s.transfers.lookup messageId with
  | none => .error .transferNotFound
  | some t => .ok ⟨messageId, t.status.toProto, t.progress, t.error⟩

def MediaState.cancelSend (s : MediaState) (messageId : Bytes) : Except MediaError MediaState :=
  match s.transfers.lookup messageId with
  | none => .error .transferNotFound
  | some t =>
    if t.status = .complete ∨ t.status = .failed then .error .alreadyFinished
    else .ok { s with transfers := s.transfers.insert messageId { t with status := .cancelled } }

/-- In a terminal state for more than an hour. -/
def MediaTransfer.expired (now : Int) (t : MediaTransfer) : Bool :=
  (t.status = .complete || t.status = .failed || t.status = .cancelled) &&
    now - t.created > 3600 * 10 ^ 9

/-- One pass of the loop, which ranges over the map in an order of its own. -/
def MediaState.cleanupTransfers (s : MediaState) (now : Int) (hint : List Bytes) : MediaState :=
  { s with
    transfers := (rangeOrder hint s.transfers).foldl (fun m id =>
      match m.lookup id with
      | none => m
      | some t => if t.expired now then m.erase id else m) s.transfers }

/-! ## Sealing the metadata -/

/-- What both senders use: the primitives, the identity and `json.Marshal` of a media
message. -/
structure MediaContext where
  primitives : Primitives
  identity : KeyPair
  marshal : Media.MediaMessage → Option Bytes

/-- The ciphertext and the nonce of the metadata; both senders have this sequence. -/
def MediaContext.sealMeta (ctx : MediaContext) (info : Media.MediaMessage) (peerPubkey : Bytes)
    (nonce : Nonce) : Except MediaError (Bytes × Bytes) :=
  match ctx.marshal info with
  | none => .error .marshal
  | some metaBytes =>
    match Base64Std.decodeString peerPubkey with
    | none => .error .notBase64
    | some pubkey =>
      match sharedSecret ctx.primitives ctx.identity.privateKey pubkey with
      | .error e => .error (.crypto e)
      | .ok secret =>
        match encryptMessage ctx.primitives secret metaBytes nonce with
        | .error e => .error (.crypto e)
        | .ok sealed => .ok sealed

structure SendMediaResponse where
  messageId : Bytes
  estimatedSeconds : Int32
  transport : Bytes
  deriving DecidableEq

/-! ## `SendMedia` -/

structure SendMediaRequest where
  peerPubkey : Bytes
  mediaData : Bytes
  filename : Bytes
  mimeType : Bytes
  deriving DecidableEq

inductive SendMediaPc where
  | start
  | registered (msgID : Bytes)
  | uploading (msgID : Bytes)
  | confirming (msgID : Bytes) (info : Media.MediaMessage)
  | handed (msgID : Bytes)
  | returned (result : Except MediaError SendMediaResponse)

inductive SendMediaEvent where
  | register (unixNano created : Int)
  | getRelays (relays : List Bytes)
  | sendChunks (x : Media.Exchange)
  | confirm (unixMilli : Int) (nonce : Nonce)
  | engine (accepted : Bool)

def SendMediaRequest.response (req : SendMediaRequest) (msgID : Bytes) : SendMediaResponse :=
  ⟨msgID, Media.estimateSeconds (Int64.ofNat req.mediaData.length) true, lit "tcp"⟩

def SendMediaRequest.chunkEstimate (req : SendMediaRequest) : Int32 :=
  (Int64.ofNat req.mediaData.length / (256 * 1024)).toInt32 + 1

def sendMediaStep (ctx : MediaContext) (req : SendMediaRequest) (s : MediaState) :
    SendMediaPc → SendMediaEvent → Option (MediaState × SendMediaPc)
  | .start, .register unixNano created =>
    let msgID := hexInt unixNano
    some (s.register msgID created, .registered msgID)
  | .registered msgID, .getRelays relays =>
    match relays with
    | [] => some (s.modify msgID (MediaTransfer.fail .noRelaysForUpload),
        .returned (.error .noRelays))
    | _ :: _ => some (s.modify msgID (fun t => { t with status := .sending, progress := 10 }),
        .uploading msgID)
  | .uploading msgID, .sendChunks x =>
    match Media.sendChunks ctx.primitives x req.mediaData req.filename req.mimeType .file with
    | none => some (s.modify msgID (MediaTransfer.fail .upload), .returned (.error .upload))
    | some info =>
      let s := { s with uploads := s.uploads ++ [req.mediaData] }
      some (s.modify msgID (fun t => { t with progress := 50 }), .confirming msgID info)
  | .confirming msgID info, .confirm unixMilli nonce =>
    let info := { info with timestamp := unixMilli, messageID := msgID }
    match ctx.sealMeta info req.peerPubkey nonce with
    | .error e => some (s.modify msgID (MediaTransfer.fail e), .returned (.error e))
    | .ok (ciphertext, nonce) =>
      some (s.handOver msgID ⟨nonce ++ ciphertext, req.peerPubkey⟩, .handed msgID)
  | .handed msgID, .engine accepted =>
    if accepted then
      some ((s.modify msgID MediaTransfer.complete).updateEntry msgID .complete 100
        req.chunkEstimate, .returned (.ok (req.response msgID)))
    else some (s.modify msgID (MediaTransfer.fail .engine), .returned (.error .engine))
  | _, _ => none

/-! ## `SendMediaStream` -/

structure MediaUploadChunk where
  transferId : Bytes
  data : Bytes
  deriving DecidableEq

structure UploadHeader where
  peerPubkey : Bytes
  fileName : Bytes
  mimeType : Bytes
  deriving DecidableEq

def headerNames : List Bytes := [lit "peer_pubkey", lit "file_name", lit "mime_type"]

def headerOf (data : Bytes) : Option UploadHeader := do
  let ms ← Json.unmarshal data
  let peerPubkey ← Json.stringField headerNames ms (lit "peer_pubkey")
  let fileName ← Json.stringField headerNames ms (lit "file_name")
  let mimeType ← Json.stringField headerNames ms (lit "mime_type")
  return ⟨peerPubkey, fileName, mimeType⟩

/-- The variables of the handler. -/
structure StreamVars where
  transferID : Bytes
  /-- The contents of the temporary file. -/
  tempFile : Option Bytes
  totalSize : Int64
  peerPubkey : Bytes
  fileName : Bytes
  mimeType : Bytes
  chunkCount : Int32
  deriving DecidableEq

def StreamVars.initial : StreamVars := ⟨[], none, 0, [], [], [], 0⟩

/-- A received chunk with what its handling meets: the clock, whether a temporary file can
be created, and how many bytes of the data the file takes. -/
structure Receipt where
  chunk : MediaUploadChunk
  created : Int
  unixMilli : Int
  tempCreated : Bool
  written : Nat
  deriving DecidableEq

inductive StreamPc where
  | receiving (v : StreamVars)
  | assembled (v : StreamVars) (file : Bytes)
  | uploaded (v : StreamVars) (info : Media.MediaMessage)
  | handed (v : StreamVars)
  | returned (result : Except MediaError SendMediaResponse)

inductive StreamEvent where
  | recv (r : Receipt)
  | recvEOF
  | recvError
  | upload (readable : Bool) (relays : List Bytes) (x : Media.Exchange) (closes : Bool)
  | confirm (unixMilli : Int) (nonce : Nonce)
  | close (closes : Bool)

/-- `tempFile.Write`; its error is ignored, the bytes it took are counted. -/
def StreamVars.write (v : StreamVars) (data : Bytes) (written : Nat) : StreamVars :=
  match v.tempFile with
  | none => v
  | some file =>
    let taken := data.take written
    { v with tempFile := some (file ++ taken), totalSize := v.totalSize + Int64.ofNat taken.length }

def StreamVars.readHeader (v : StreamVars) (chunk : MediaUploadChunk) : StreamVars :=
  let v := { v with transferID := chunk.transferId }
  match headerOf chunk.data with
  | none => v
  | some h => { v with peerPubkey := h.peerPubkey, fileName := h.fileName, mimeType := h.mimeType }

/-- The variables after a chunk that is taken for a header. -/
def StreamVars.header (v : StreamVars) (r : Receipt) : StreamVars :=
  let v := { v.readHeader r.chunk with tempFile := some [] }
  let v := if v.peerPubkey = [] then v.write r.chunk.data r.written else v
  { v with chunkCount := v.chunkCount + 1 }

/-- The variables after a chunk that is taken for data. -/
def StreamVars.append (v : StreamVars) (r : Receipt) : StreamVars :=
  let v := v.write r.chunk.data r.written
  { v with chunkCount := v.chunkCount + 1 }

/-- The two records that a header starts. -/
def MediaState.track (s : MediaState) (v : StreamVars) (r : Receipt) : MediaState :=
  let v := v.readHeader r.chunk
  (s.register v.transferID r.created).createEntry {
    id := v.transferID
    peerPubkey := v.peerPubkey
    fileName := v.fileName
    mimeType := v.mimeType
    status := .queued
    progress := 0
    chunksSent := 0
    createdAt := r.unixMilli }

def StreamVars.progress (v : StreamVars) (t : MediaTransfer) : MediaTransfer :=
  { t with status := .sending, progress := v.chunkCount * 100 / 1000, chunksSent := v.chunkCount }

/-- `SendAndClose`, which ends the call with its own error. -/
def StreamVars.sendAndClose (v : StreamVars) (closes : Bool) :
    Except MediaError SendMediaResponse :=
  if closes then .ok ⟨v.transferID, Media.estimateSeconds v.totalSize true, lit "tcp"⟩
  else .error .sendAndClose

/-- The error that is returned for one that the transfer keeps. -/
def MediaError.ofStream : MediaError → MediaError
  | .notBase64 => .invalidPeerPubkey
  | e => e

def streamStep (ctx : MediaContext) (s : MediaState) :
    StreamPc → StreamEvent → Option (MediaState × StreamPc)
  | .receiving v, .recv r =>
    if v.transferID = [] then
      if r.tempCreated then some (s.track v r, .receiving (v.header r))
      else some (s, .returned (.error .createTemp))
    else if (v.append r).totalSize > Int64.ofNat Media.mediaMaxHardCap then
      some (s, .returned (.error .fileTooLarge))
    else some (s.modify v.transferID (v.append r).progress, .receiving (v.append r))
  | .receiving v, .recvEOF =>
    match v.tempFile with
    | none => some (s, .returned (.error .noData))
    | some file => some (s, .assembled v file)
  | .receiving v, .recvError =>
    if v.transferID = [] then some (s, .returned (.error .recv))
    else some (s.failBoth v.transferID .recv v.chunkCount, .returned (.error .recv))
  | .assembled v file, .upload readable relays x closes =>
    if readable = false then some (s, .returned (.error .readTemp))
    else if v.peerPubkey = [] then
      some (s.updateEntry v.transferID .complete 100 v.chunkCount,
        .returned (v.sendAndClose closes))
    else
      match relays with
      | [] => some (s.failBoth v.transferID .noRelaysForUpload v.chunkCount,
          .returned (.error .noRelaysForUpload))
      | _ :: _ =>
        match Media.sendChunks ctx.primitives x file v.fileName v.mimeType .file with
        | none => some (s.failBoth v.transferID .upload v.chunkCount, .returned (.error .upload))
        | some info =>
          let s := { s with uploads := s.uploads ++ [file] }
          some (s.updateEntry v.transferID .confirming 90 v.chunkCount, .uploaded v info)
  | .uploaded v info, .confirm unixMilli nonce =>
    let info := { info with timestamp := unixMilli, messageID := v.transferID }
    match ctx.sealMeta info v.peerPubkey nonce with
    | .error e => some (s.failBoth v.transferID e v.chunkCount, .returned (.error e.ofStream))
    -- The nonce is dropped, and so is what the engine answers.
    | .ok (ciphertext, _) => some (s.handOver v.transferID ⟨ciphertext, v.peerPubkey⟩, .handed v)
  | .handed v, .close closes =>
    some ((s.modify v.transferID MediaTransfer.complete).updateEntry v.transferID .complete 100
      v.chunkCount, .returned (v.sendAndClose closes))
  | _, _ => none

/-- The handler as a machine on its own. -/
def streamMachine (ctx : MediaContext) (c : MediaState × StreamPc) (e : StreamEvent) :
    Option (MediaState × StreamPc) :=
  streamStep ctx c.1 c.2 e

/-- What a step of `SendMedia` can do. -/
inductive SendMediaStep (ctx : MediaContext) (req : SendMediaRequest) (s : MediaState) :
    SendMediaPc → SendMediaEvent → MediaState → SendMediaPc → Prop
  | register (unixNano created : Int) :
      SendMediaStep ctx req s .start (.register unixNano created)
        (s.register (hexInt unixNano) created) (.registered (hexInt unixNano))
  | noRelays (msgID : Bytes) :
      SendMediaStep ctx req s (.registered msgID) (.getRelays [])
        (s.modify msgID (MediaTransfer.fail .noRelaysForUpload)) (.returned (.error .noRelays))
  | relays (msgID relay : Bytes) (relays : List Bytes) :
      SendMediaStep ctx req s (.registered msgID) (.getRelays (relay :: relays))
        (s.modify msgID (fun t => { t with status := .sending, progress := 10 }))
        (.uploading msgID)
  | notUploaded (msgID : Bytes) (x : Media.Exchange) :
      SendMediaStep ctx req s (.uploading msgID) (.sendChunks x)
        (s.modify msgID (MediaTransfer.fail .upload)) (.returned (.error .upload))
  | uploaded (msgID : Bytes) (x : Media.Exchange) (info : Media.MediaMessage)
      (hx : Media.sendChunks ctx.primitives x req.mediaData req.filename req.mimeType .file =
        some info) :
      SendMediaStep ctx req s (.uploading msgID) (.sendChunks x)
        (MediaState.modify { s with uploads := s.uploads ++ [req.mediaData] } msgID
          (fun t => { t with progress := 50 })) (.confirming msgID info)
  | unsealed (msgID : Bytes) (info : Media.MediaMessage) (unixMilli : Int) (nonce : Nonce)
      (e : MediaError) :
      SendMediaStep ctx req s (.confirming msgID info) (.confirm unixMilli nonce)
        (s.modify msgID (MediaTransfer.fail e)) (.returned (.error e))
  | handed (msgID : Bytes) (info : Media.MediaMessage) (unixMilli : Int) (nonce : Nonce)
      (out : Outgoing) :
      SendMediaStep ctx req s (.confirming msgID info) (.confirm unixMilli nonce)
        (s.handOver msgID out) (.handed msgID)
  | accepted (msgID : Bytes) :
      SendMediaStep ctx req s (.handed msgID) (.engine true)
        ((s.modify msgID MediaTransfer.complete).updateEntry msgID .complete 100
          req.chunkEstimate) (.returned (.ok (req.response msgID)))
  | refused (msgID : Bytes) :
      SendMediaStep ctx req s (.handed msgID) (.engine false)
        (s.modify msgID (MediaTransfer.fail .engine)) (.returned (.error .engine))

theorem sendMediaStep_cases {ctx : MediaContext} {req : SendMediaRequest} {s s' : MediaState}
    {pc pc' : SendMediaPc} {e : SendMediaEvent}
    (h : sendMediaStep ctx req s pc e = some (s', pc')) : SendMediaStep ctx req s pc e s' pc' := by
  cases pc with
  | start =>
    cases e with
    | register unixNano created =>
      cases h
      exact .register unixNano created
    | _ => cases h
  | registered msgID =>
    cases e with
    | getRelays relays =>
      cases relays with
      | nil =>
        cases h
        exact .noRelays msgID
      | cons relay relays =>
        cases h
        exact .relays msgID relay relays
    | _ => cases h
  | uploading msgID =>
    cases e with
    | sendChunks x =>
      simp only [sendMediaStep] at h
      split at h <;> cases h
      · exact .notUploaded msgID x
      · exact .uploaded msgID x _ ‹_›
    | _ => cases h
  | confirming msgID info =>
    cases e with
    | confirm unixMilli nonce =>
      simp only [sendMediaStep] at h
      split at h <;> cases h
      · exact .unsealed msgID info unixMilli nonce _
      · exact .handed msgID info unixMilli nonce _
    | _ => cases h
  | handed msgID =>
    cases e with
    | engine accepted =>
      cases accepted with
      | true =>
        cases h
        exact .accepted msgID
      | false =>
        cases h
        exact .refused msgID
    | _ => cases h
  | returned result => cases e <;> cases h

/-- What a step of `SendMediaStream` can do, one case for each way through it. -/
inductive StreamStep (ctx : MediaContext) (s : MediaState) :
    StreamPc → StreamEvent → MediaState → StreamPc → Prop
  | noTempFile (v : StreamVars) (r : Receipt) (hid : v.transferID = [])
      (htemp : r.tempCreated = false) :
      StreamStep ctx s (.receiving v) (.recv r) s (.returned (.error .createTemp))
  | header (v : StreamVars) (r : Receipt) (hid : v.transferID = []) (htemp : r.tempCreated = true) :
      StreamStep ctx s (.receiving v) (.recv r) (s.track v r) (.receiving (v.header r))
  | tooLarge (v : StreamVars) (r : Receipt) (hid : v.transferID ≠ [])
      (hsize : (v.append r).totalSize > Int64.ofNat Media.mediaMaxHardCap) :
      StreamStep ctx s (.receiving v) (.recv r) s (.returned (.error .fileTooLarge))
  | append (v : StreamVars) (r : Receipt) (hid : v.transferID ≠ [])
      (hsize : ¬ (v.append r).totalSize > Int64.ofNat Media.mediaMaxHardCap) :
      StreamStep ctx s (.receiving v) (.recv r) (s.modify v.transferID (v.append r).progress)
        (.receiving (v.append r))
  | noData (v : StreamVars) (hfile : v.tempFile = none) :
      StreamStep ctx s (.receiving v) .recvEOF s (.returned (.error .noData))
  | assembled (v : StreamVars) (file : Bytes) (hfile : v.tempFile = some file) :
      StreamStep ctx s (.receiving v) .recvEOF s (.assembled v file)
  | lostUnnamed (v : StreamVars) (hid : v.transferID = []) :
      StreamStep ctx s (.receiving v) .recvError s (.returned (.error .recv))
  | lost (v : StreamVars) (hid : v.transferID ≠ []) :
      StreamStep ctx s (.receiving v) .recvError (s.failBoth v.transferID .recv v.chunkCount)
        (.returned (.error .recv))
  | unreadable (v : StreamVars) (file : Bytes) (relays : List Bytes) (x : Media.Exchange)
      (closes : Bool) :
      StreamStep ctx s (.assembled v file) (.upload false relays x closes) s
        (.returned (.error .readTemp))
  | noPeer (v : StreamVars) (file : Bytes) (relays : List Bytes) (x : Media.Exchange)
      (closes : Bool) (hpeer : v.peerPubkey = []) :
      StreamStep ctx s (.assembled v file) (.upload true relays x closes)
        (s.updateEntry v.transferID .complete 100 v.chunkCount) (.returned (v.sendAndClose closes))
  | notUploaded (v : StreamVars) (file : Bytes) (relays : List Bytes) (x : Media.Exchange)
      (closes : Bool) (e : MediaError) (hpeer : v.peerPubkey ≠ []) :
      StreamStep ctx s (.assembled v file) (.upload true relays x closes)
        (s.failBoth v.transferID e v.chunkCount) (.returned (.error e))
  | uploaded (v : StreamVars) (file : Bytes) (relays : List Bytes) (x : Media.Exchange)
      (closes : Bool) (info : Media.MediaMessage) (hpeer : v.peerPubkey ≠ [])
      (hx : Media.sendChunks ctx.primitives x file v.fileName v.mimeType .file = some info) :
      StreamStep ctx s (.assembled v file) (.upload true relays x closes)
        (MediaState.updateEntry { s with uploads := s.uploads ++ [file] } v.transferID .confirming
          90 v.chunkCount) (.uploaded v info)
  | unsealed (v : StreamVars) (info : Media.MediaMessage) (unixMilli : Int) (nonce : Nonce)
      (e : MediaError)
      (hseal : ctx.sealMeta { info with timestamp := unixMilli, messageID := v.transferID }
        v.peerPubkey nonce = .error e) :
      StreamStep ctx s (.uploaded v info) (.confirm unixMilli nonce)
        (s.failBoth v.transferID e v.chunkCount) (.returned (.error e.ofStream))
  | handed (v : StreamVars) (info : Media.MediaMessage) (unixMilli : Int) (nonce : Nonce)
      (ciphertext dropped : Bytes)
      (hseal : ctx.sealMeta { info with timestamp := unixMilli, messageID := v.transferID }
        v.peerPubkey nonce = .ok (ciphertext, dropped)) :
      StreamStep ctx s (.uploaded v info) (.confirm unixMilli nonce)
        (s.handOver v.transferID ⟨ciphertext, v.peerPubkey⟩) (.handed v)
  | closed (v : StreamVars) (closes : Bool) :
      StreamStep ctx s (.handed v) (.close closes)
        ((s.modify v.transferID MediaTransfer.complete).updateEntry v.transferID .complete 100
          v.chunkCount) (.returned (v.sendAndClose closes))

private theorem streamStep_recv {ctx : MediaContext} {s s' : MediaState} {v : StreamVars}
    {r : Receipt}
    {pc' : StreamPc} (h : streamStep ctx s (.receiving v) (.recv r) = some (s', pc')) :
    StreamStep ctx s (.receiving v) (.recv r) s' pc' := by
  rw [streamStep] at h
  split_ifs at h with hid htemp hsize <;> cases h
  · exact .header v r hid htemp
  · exact .noTempFile v r hid (Bool.eq_false_iff.mpr htemp)
  · exact .tooLarge v r hid hsize
  · exact .append v r hid hsize

private theorem streamStep_upload {ctx : MediaContext} {s s' : MediaState} {v : StreamVars}
    {file : Bytes}
    {readable closes : Bool} {relays : List Bytes} {x : Media.Exchange} {pc' : StreamPc}
    (h : streamStep ctx s (.assembled v file) (.upload readable relays x closes) =
      some (s', pc')) :
    StreamStep ctx s (.assembled v file) (.upload readable relays x closes) s' pc' := by
  cases readable with
  | false =>
    cases h
    exact .unreadable v file relays x closes
  | true =>
    simp only [streamStep, Bool.true_eq_false, if_false] at h
    split_ifs at h with hpeer
    · cases h
      exact .noPeer v file relays x closes hpeer
    · cases relays with
      | nil =>
        cases h
        exact .notUploaded v file [] x closes _ hpeer
      | cons relay relays =>
        cases hx : Media.sendChunks ctx.primitives x file v.fileName v.mimeType .file with
        | none =>
          simp only [hx] at h
          cases h
          exact .notUploaded v file _ x closes _ hpeer
        | some info =>
          simp only [hx] at h
          cases h
          exact .uploaded v file _ x closes info hpeer hx

private theorem streamStep_confirm {ctx : MediaContext} {s s' : MediaState} {v : StreamVars}
    {info : Media.MediaMessage} {unixMilli : Int} {nonce : Nonce} {pc' : StreamPc}
    (h : streamStep ctx s (.uploaded v info) (.confirm unixMilli nonce) = some (s', pc')) :
    StreamStep ctx s (.uploaded v info) (.confirm unixMilli nonce) s' pc' := by
  simp only [streamStep] at h
  split at h <;> cases h
  · exact .unsealed v info unixMilli nonce _ ‹_›
  · exact .handed v info unixMilli nonce _ _ ‹_›

/-- Every step is one of the ways above. -/
theorem streamStep_cases {ctx : MediaContext} {s s' : MediaState} {pc pc' : StreamPc}
    {e : StreamEvent} (h : streamStep ctx s pc e = some (s', pc')) :
    StreamStep ctx s pc e s' pc' := by
  cases pc with
  | receiving v =>
    cases e with
    | recv r => exact streamStep_recv h
    | recvEOF =>
      simp only [streamStep] at h
      split at h <;> cases h
      · exact .noData v ‹_›
      · exact .assembled v _ ‹_›
    | recvError =>
      rw [streamStep] at h
      split_ifs at h with hid <;> cases h
      · exact .lostUnnamed v hid
      · exact .lost v hid
    | _ => cases h
  | assembled v file =>
    cases e with
    | upload readable relays x closes => exact streamStep_upload h
    | _ => cases h
  | uploaded v info =>
    cases e with
    | confirm unixMilli nonce => exact streamStep_confirm h
    | _ => cases h
  | handed v =>
    cases e with
    | close closes =>
      cases h
      exact .closed v closes
    | _ => cases h
  | returned result => cases e <;> cases h

/-! ## What the writes leave alone -/

theorem readHeader_transferID (v : StreamVars) (chunk : MediaUploadChunk) :
    (v.readHeader chunk).transferID = chunk.transferId := by
  unfold StreamVars.readHeader
  split <;> rfl

theorem write_eq (v : StreamVars) (data : Bytes) (written : Nat) :
    v.write data written = { v with
      tempFile := v.tempFile.map (fun file => file ++ data.take written)
      totalSize := (v.write data written).totalSize } := by
  unfold StreamVars.write
  cases v with
  | mk transferID tempFile totalSize peerPubkey fileName mimeType chunkCount =>
    cases tempFile <;> rfl

theorem append_transferID (v : StreamVars) (r : Receipt) :
    (v.append r).transferID = v.transferID := by
  rw [StreamVars.append, write_eq]

theorem header_transferID (v : StreamVars) (r : Receipt) :
    (v.header r).transferID = r.chunk.transferId := by
  simp only [StreamVars.header]
  split_ifs
  · rw [write_eq]
    exact readHeader_transferID v r.chunk
  · exact readHeader_transferID v r.chunk

theorem header_tempFile (v : StreamVars) (r : Receipt) : (v.header r).tempFile ≠ none := by
  simp only [StreamVars.header]
  split_ifs
  · rw [write_eq]
    simp
  · simp

theorem append_tempFile (v : StreamVars) (r : Receipt) :
    (v.append r).tempFile = v.tempFile.map (fun file => file ++ r.chunk.data.take r.written) := by
  rw [StreamVars.append, write_eq]

section Frames

variable (s : MediaState) (id j : Bytes) (f : MediaTransfer → MediaTransfer)

theorem lookup_modify :
    (s.modify id f).transfers.lookup j =
      if j = id then (s.transfers.lookup id).map f else s.transfers.lookup j := by
  cases h : s.transfers.lookup id with
  | none =>
    simp only [MediaState.modify, h, Option.map_none]
    split_ifs with hj
    · rw [hj, h]
    · rfl
  | some t => simp only [MediaState.modify, h, Option.map_some, lookup_insert_ite]

@[simp]
theorem modify_transferStore : (s.modify id f).transferStore = s.transferStore := by
  unfold MediaState.modify
  split <;> rfl

@[simp]
theorem modify_handed : (s.modify id f).handed = s.handed := by
  unfold MediaState.modify
  split <;> rfl

@[simp]
theorem modify_uploads : (s.modify id f).uploads = s.uploads := by
  unfold MediaState.modify
  split <;> rfl

@[simp]
theorem modify_registered : (s.modify id f).registered = s.registered := by
  unfold MediaState.modify
  split <;> rfl

end Frames

/-- A cleanup only removes transfers. -/
theorem cleanupTransfers_sub (s : MediaState) (now : Int) (hint : List Bytes) {id : Bytes}
    {t : MediaTransfer} (h : (s.cleanupTransfers now hint).transfers.lookup id = some t) :
    s.transfers.lookup id = some t := by
  revert h
  refine List.foldlRecOn (motive := fun m : GoMap Bytes MediaTransfer =>
    m.lookup id = some t → s.transfers.lookup id = some t) _ _ (fun h => h) ?_
  intro m ih k _ h
  cases hk : m.lookup k with
  | none => exact ih (by simpa only [hk] using h)
  | some t' =>
    simp only [hk] at h
    split_ifs at h with hx
    · exact ih (lookup_erase_eq_some.mp h).2
    · exact ih h

/-! ## Uploads that can be evaluated -/

/-- An upload that the media server does not answer. -/
def unanswered : Media.Exchange := ⟨[], [], 0, none⟩

theorem sendChunks_unanswered (P : Primitives) (fileData fileName mimeType : Bytes)
    (mediaType : Media.MediaType) :
    Media.sendChunks P unanswered fileData fileName mimeType mediaType = none := by
  unfold Media.sendChunks
  split_ifs <;> rfl

/-- An upload that the media server answers with a file id. -/
def answered : Media.Exchange := ⟨[1], [2], 0, some (lit "id")⟩

/-- Nothing transferred yet. -/
def idleMedia : MediaState := ⟨∅, some ⟨∅⟩, [], [], []⟩

/-- Primitives and a marshaller that can be evaluated. -/
def plainContext : MediaContext :=
  ⟨Primitives.transparent, identityOf 1, fun info => some info.messageID⟩

/-- A received chunk that is written completely. -/
def received (transferId data : Bytes) : Receipt := ⟨⟨transferId, data⟩, 0, 0, true, data.length⟩

/-- The header of an upload to the peer of key `2`. -/
def headerData : Bytes :=
  lit "\x7b\"peer_pubkey\":\"" ++ (identityOf 2).pubkeyB64 ++ lit "\"\x7d"

end VRGram.Client
