import VRGram.Daemon.Media
import VRGram.Daemon.Text
import VRGram.Lib.JsonText

/-!
# The format of media metadata

Both media paths seal the same JSON object for the peer. `SendMedia` hands over the nonce
and the ciphertext, as the receiver expects them; `SendMediaStream` hands over the
ciphertext alone.
-/
namespace VRGram.Client

open VRGram.Lib VRGram.Lib.Aead VRGram.Lib.Maps VRGram.Lib.Machine VRGram.Lib.Strings VRGram.Crypto
  VRGram.Encoding

set_option autoImplicit false

/-! ## Media messages as JSON -/

def mediaTypeNumber : Media.MediaType → Nat
  | .text => 0
  | .voice => 1
  | .image => 2
  | .file => 3
  | .video => 4

/-- The tags of `MediaMessage`, in the order of the struct. -/
def mediaKeys : List Bytes :=
  [lit "message_id", lit "timestamp", lit "media_type", lit "file_name", lit "mime_type",
    lit "file_size", lit "file_key_b64", lit "checksum", lit "file_id"]

/-- Every field under its tag. -/
def taggedFields (info : Media.MediaMessage) : List (Bytes × Json.Value) :=
  [(lit "message_id", .string info.messageID),
    (lit "timestamp", .number (decimalInt info.timestamp)),
    (lit "media_type", .number (decimal (mediaTypeNumber info.mediaType))),
    (lit "file_name", .string info.fileName),
    (lit "mime_type", .string info.mimeType),
    (lit "file_size", .number (decimalInt info.fileSize.toInt)),
    (lit "file_key_b64", .string info.fileKeyB64),
    (lit "checksum", .string info.checksum),
    (lit "file_id", .string info.fileID)]

/-- The tags without `omitempty`. -/
def alwaysWritten (key : Bytes) : Bool :=
  key == lit "message_id" || key == lit "timestamp" || key == lit "media_type"

def isEmptyValue : Json.Value → Bool
  | .string s => s.isEmpty
  | .number literal => literal == lit "0"
  | _ => false

/-- The members of the object that `Marshal` renders. -/
def mediaMembers (info : Media.MediaMessage) : List (Bytes × Json.Value) :=
  (taggedFields info).filter (fun m => alwaysWritten m.1 || !isEmptyValue m.2)

/-- The text is an object with the fields of the message, on one line; the three fields
that are always written make it long enough for the receiver to look into. -/
structure Marshals (info : Media.MediaMessage) (text : Bytes) : Prop where
  object : text.head? = some 123
  oneLine : newline ∉ text
  long : 20 < text.length
  members : Json.unmarshal text = some (mediaMembers info)

section

variable {info : Media.MediaMessage} {names : List Bytes} {name : Bytes}

theorem taggedFields_keys (info : Media.MediaMessage) :
    (taggedFields info).map Prod.fst = mediaKeys := rfl

theorem mediaMembers_keys : ∀ m ∈ mediaMembers info, m.1 ∈ mediaKeys := by
  intro m hm
  rw [← taggedFields_keys info]
  exact List.mem_map.mpr ⟨m, (List.mem_filter.mp hm).1, rfl⟩

theorem taggedFields_nodup (info : Media.MediaMessage) :
    ((taggedFields info).map Prod.fst).Nodup := by
  rw [taggedFields_keys]
  decide

/-- A field that no tag selects is left alone. -/
theorem mediaMembers_absent {α : Type} (read : Json.Value → Option α) (zero : α)
    (h : ∀ key ∈ mediaKeys, Json.fieldOf names key ≠ some name) :
    Json.field read zero names (mediaMembers info) name = some zero :=
  Json.field_absent read zero (fun m hm => h m.1 (mediaMembers_keys m hm))

/-- A string field is read back, also if it is empty and was not written. -/
theorem mediaMembers_string {s : Bytes} (hmem : (name, .string s) ∈ taggedFields info)
    (hname : name ∈ names) (honly : ∀ key ∈ mediaKeys, Json.fieldOf names key = some name → key = name) :
    Json.stringField names (mediaMembers info) name = some s := by
  have honly' : ∀ m ∈ mediaMembers info, Json.fieldOf names m.1 = some name → m.1 = name :=
    fun m hm => honly m.1 (mediaMembers_keys m hm)
  by_cases hkept : (alwaysWritten name || !isEmptyValue (.string s)) = true
  · have hnodup : ((mediaMembers info).map Prod.fst).Nodup :=
      (taggedFields_nodup info).sublist (List.filter_sublist.map Prod.fst)
    exact Json.field_of_mem Json.asString [] (List.mem_filter.mpr ⟨hmem, hkept⟩) hnodup hname honly'
      Json.Value.noConfusion
  · have hempty : s = [] := by
      simp only [Bool.or_eq_true, Bool.not_eq_true', not_or, Bool.not_eq_false, isEmptyValue,
        List.isEmpty_iff] at hkept
      exact hkept.2
    rw [hempty]
    refine Json.field_absent Json.asString [] ?_
    intro m hm hsel
    obtain ⟨htagged, hwritten⟩ := List.mem_filter.mp hm
    obtain rfl := List.inj_on_of_nodup_map (taggedFields_nodup info) htagged hmem (honly' m hm hsel)
    exact hkept hwritten

/-! ## What the receiver makes of it -/

/-- What a recipient learns of a message. -/
def sentMeta (info : Media.MediaMessage) : MediaMeta :=
  ⟨info.fileKeyB64, info.mimeType, info.fileName, info.fileID⟩

variable {text : Bytes}

theorem Marshals.no_keyDist (h : Marshals info text) : keyDistOf text = none :=
  keyDistOf_eq_none h.members (mediaMembers_absent _ _ (by decide)) (by decide)

theorem Marshals.no_envelope (h : Marshals info text) : envelopeOf text = none :=
  envelopeOf_eq_none h.members (mediaMembers_absent _ _ (by decide))

theorem Marshals.no_type (h : Marshals info text) {msg : ProfileMsg}
    (hmsg : profileMsgOf text = some msg) : msg.type = [] := by
  simp only [profileMsgOf, Option.bind_eq_bind, Option.bind_eq_some_iff, Option.pure_def,
    Option.some.injEq] at hmsg
  obtain ⟨ms, hms, type, htype, nickname, -, bio, -, fileID, -, key, -, -, -, -, -, rfl⟩ := hmsg
  obtain rfl := Option.some.inj (h.members.symm.trans hms)
  rw [Json.stringField, mediaMembers_absent _ _ (by decide)] at htype
  exact (Option.some.inj htype).symm

theorem Marshals.meta_read (h : Marshals info text) (hkey : info.fileKeyB64 ≠ []) :
    mediaMetaOf text = some (sentMeta info) := by
  have hread : ∀ name s, (name, Json.Value.string s) ∈ taggedFields info → name ∈ mediaNames →
      Json.stringField mediaNames (mediaMembers info) name = some s := by
    intro name s hmem hname
    have honly : ∀ name ∈ mediaNames, ∀ key ∈ mediaKeys,
        Json.fieldOf mediaNames key = some name → key = name := by decide
    exact mediaMembers_string hmem hname (honly name hname)
  simp only [mediaMetaOf, h.members, Option.bind_eq_bind, Option.bind_some,
    hread (lit "file_key_b64") info.fileKeyB64 (by simp [taggedFields]) (by decide),
    hread (lit "mime_type") info.mimeType (by simp [taggedFields]) (by decide),
    hread (lit "file_name") info.fileName (by simp [taggedFields]) (by decide),
    hread (lit "file_id") info.fileID (by simp [taggedFields]) (by decide)]
  simp [guard, hkey, sentMeta]

/-- The receiver takes the text for media metadata, and serves it from its first relay. -/
theorem Marshals.dispatched (P : Primitives) (h : Marshals info text) (hkey : info.fileKeyB64 ≠ [])
    (groups : GoMap Bytes Group) (relays : List Bytes) (fromPeer : Bytes) :
    dispatch P groups relays fromPeer text =
      withRelay relays (fun relay => .media relay (sentMeta info)) := by
  have hjson : looksLikeJson 20 text = true := by
    simp only [looksLikeJson, h.object, beq_self_eq_true, Bool.and_true, decide_eq_true_eq]
    exact h.long
  have hmedia : mediaOrText relays text [] =
      withRelay relays (fun relay => .media relay (sentMeta info)) := by
    simp only [mediaOrText, h.meta_read hkey]
  rw [dispatch_content P groups relays fromPeer h.no_keyDist h.no_envelope, contentOutcome,
    if_pos hjson]
  cases hprofile : profileMsgOf text with
  | none => exact hmedia
  | some msg =>
    have hupdate : msg.type ≠ lit "profile_update" := by
      rw [h.no_type hprofile]
      decide
    have hpic : msg.type ≠ lit "profile_pic" := by
      rw [h.no_type hprofile]
      decide
    simp only [hupdate, hpic, false_and, if_false]
    exact hmedia

end

/-! ## What the two paths hand over -/

inductive MediaPath where
  | sendMedia
  | sendMediaStream
  deriving DecidableEq

/-- `SendMedia` as a machine on its own. -/
def sendMediaMachine (ctx : MediaContext) (req : SendMediaRequest) (c : MediaState × SendMediaPc)
    (e : SendMediaEvent) : Option (MediaState × SendMediaPc) :=
  sendMediaStep ctx req c.1 c.2 e

/-- A call that has uploaded a file of the given name and type gives the metadata to
`engine.SendMessage`. -/
inductive HandsOver (ctx : MediaContext) :
    MediaPath → Bytes → Bytes → Media.MediaMessage → Nonce → Outgoing → Prop
  | sendMedia (req : SendMediaRequest) (s₀ s s' : MediaState) (events : List SendMediaEvent)
      (msgID : Bytes) (uploaded : Media.MediaMessage) (unixMilli : Int) (nonce : Nonce)
      (out : Outgoing)
      (hrun : run (sendMediaMachine ctx req) (s₀, .start) events =
        some (s, .confirming msgID uploaded))
      (hstep : sendMediaStep ctx req s (.confirming msgID uploaded) (.confirm unixMilli nonce) =
        some (s', .handed msgID))
      (hout : s'.handed = s.handed ++ [(msgID, out)]) :
      HandsOver ctx .sendMedia req.filename req.mimeType
        { uploaded with timestamp := unixMilli, messageID := msgID } nonce out
  | sendMediaStream (s₀ s s' : MediaState) (events : List StreamEvent) (v : StreamVars)
      (uploaded : Media.MediaMessage) (unixMilli : Int) (nonce : Nonce) (out : Outgoing)
      (hrun : run (streamMachine ctx) (s₀, .receiving .initial) events =
        some (s, .uploaded v uploaded))
      (hstep : streamStep ctx s (.uploaded v uploaded) (.confirm unixMilli nonce) =
        some (s', .handed v))
      (hout : s'.handed = s.handed ++ [(v.transferID, out)]) :
      HandsOver ctx .sendMediaStream v.fileName v.mimeType
        { uploaded with timestamp := unixMilli, messageID := v.transferID } nonce out

theorem sendChunks_names {P : Primitives} {x : Media.Exchange} {fileData fileName mimeType : Bytes}
    {mediaType : Media.MediaType} {info : Media.MediaMessage}
    (h : Media.sendChunks P x fileData fileName mimeType mediaType = some info) :
    info.fileName = fileName ∧ info.mimeType = mimeType := by
  unfold Media.sendChunks at h
  split at h
  · cases h
  · obtain ⟨fileID, -, rfl⟩ := Option.map_eq_some_iff.mp h
    exact ⟨rfl, rfl⟩

/-- The metadata that `SendMedia` is about to seal has the names of the request. -/
def SendMediaPc.Named (req : SendMediaRequest) : SendMediaPc → Prop
  | .confirming _ info => info.fileName = req.filename ∧ info.mimeType = req.mimeType
  | _ => True

/-- The metadata that `SendMediaStream` is about to seal has the names of the header. -/
def StreamPc.Named : StreamPc → Prop
  | .uploaded v info => info.fileName = v.fileName ∧ info.mimeType = v.mimeType
  | _ => True

private theorem sendMediaStep_named {ctx : MediaContext} {req : SendMediaRequest}
    {s s' : MediaState} {pc pc' : SendMediaPc} {e : SendMediaEvent}
    (h : sendMediaStep ctx req s pc e = some (s', pc')) : pc'.Named req := by
  cases sendMediaStep_cases h with
  | uploaded msgID x info hx => exact sendChunks_names hx
  | _ => trivial

private theorem streamStep_named {ctx : MediaContext} {s s' : MediaState} {pc pc' : StreamPc}
    {e : StreamEvent} (h : streamStep ctx s pc e = some (s', pc')) : pc'.Named := by
  cases streamStep_cases h with
  | uploaded v file relays x closes info hpeer hx => exact sendChunks_names hx
  | _ => trivial

/-- The metadata is that of the file's name and type, as the call has them. -/
theorem HandsOver.names {ctx : MediaContext} {path : MediaPath} {fileName mimeType : Bytes}
    {info : Media.MediaMessage} {nonce : Nonce} {out : Outgoing}
    (h : HandsOver ctx path fileName mimeType info nonce out) :
    info.fileName = fileName ∧ info.mimeType = mimeType := by
  cases h with
  | sendMedia req s₀ s s' events msgID uploaded unixMilli nonce out hrun hstep hout =>
    have hnamed : SendMediaPc.Named req (.confirming msgID uploaded) :=
      run_invariant (fun c e c' (_ : c.2.Named req) hs => sendMediaStep_named hs)
        (show SendMediaPc.Named req .start from trivial) hrun
    exact hnamed
  | sendMediaStream s₀ s s' events v uploaded unixMilli nonce out hrun hstep hout =>
    have hnamed : StreamPc.Named (.uploaded v uploaded) :=
      run_invariant (fun c e c' (_ : c.2.Named) hs => streamStep_named hs)
        (show StreamPc.Named (.receiving .initial) from trivial) hrun
    exact hnamed

theorem sealMeta_ok {ctx : MediaContext} {info : Media.MediaMessage} {peerPubkey : Bytes}
    {nonce : Nonce} {ciphertext returned : Bytes}
    (h : ctx.sealMeta info peerPubkey nonce = .ok (ciphertext, returned)) :
    ∃ text pubkey secret, ctx.marshal info = some text ∧
      Base64Std.decodeString peerPubkey = some pubkey ∧
      sharedSecret ctx.primitives ctx.identity.privateKey pubkey = .ok secret ∧
      ciphertext = ctx.primitives.xchacha.sealWith secret nonce.val text ∧ returned = nonce.val := by
  unfold MediaContext.sealMeta at h
  split at h
  next => cases h
  next text htext =>
    split at h
    next => cases h
    next pubkey hpub =>
      split at h
      next => cases h
      next secret hsecret =>
        rw [encryptMessage_ok ctx.primitives (sharedSecret_length ctx.primitives hsecret)] at h
        obtain ⟨rfl, rfl⟩ := Prod.mk.inj (Except.ok.inj h)
        exact ⟨text, pubkey, secret, htext, hpub, hsecret, rfl, rfl⟩

/-- What stands before the ciphertext in a payload. -/
def MediaPath.front (nonce : Nonce) : MediaPath → Bytes
  | .sendMedia => nonce.val
  | .sendMediaStream => []

theorem handOver_last {s : MediaState} {id : Bytes} {out out' : Outgoing}
    (h : (s.handOver id out).handed = s.handed ++ [(id, out')]) : out = out' := by
  have hlast := List.append_cancel_left h
  exact (Prod.mk.inj (List.cons.inj hlast).1).2

theorem HandsOver.payload {ctx : MediaContext} {path : MediaPath} {fileName mimeType : Bytes}
    {info : Media.MediaMessage} {nonce : Nonce} {out : Outgoing}
    (h : HandsOver ctx path fileName mimeType info nonce out) :
    ∃ text pubkey secret, ctx.marshal info = some text ∧
      Base64Std.decodeString out.recipient = some pubkey ∧
      sharedSecret ctx.primitives ctx.identity.privateKey pubkey = .ok secret ∧
      out.payload = path.front nonce ++ ctx.primitives.xchacha.sealWith secret nonce.val text := by
  cases h with
  | sendMedia req s₀ s s' events msgID uploaded unixMilli nonce out hrun hstep hout =>
    simp only [sendMediaStep] at hstep
    split at hstep
    next => cases hstep
    next ciphertext returned hseal =>
      obtain ⟨text, pubkey, secret, htext, hpub, hsecret, rfl, rfl⟩ := sealMeta_ok hseal
      cases hstep
      obtain rfl := handOver_last hout
      exact ⟨text, pubkey, secret, htext, hpub, hsecret, rfl⟩
  | sendMediaStream s₀ s s' events v uploaded unixMilli nonce out hrun hstep hout =>
    simp only [streamStep] at hstep
    split at hstep
    next => cases hstep
    next ciphertext returned hseal =>
      obtain ⟨text, pubkey, secret, htext, hpub, hsecret, rfl, rfl⟩ := sealMeta_ok hseal
      cases hstep
      obtain rfl := handOver_last hout
      exact ⟨text, pubkey, secret, htext, hpub, hsecret, rfl⟩

/-! ## What the recipient recognises -/

/-- The daemon takes the message for the metadata `info` of a media file. -/
def Recognises (P : Primitives) (d : Daemon) (env : Surroundings) (pm : PolledMessage)
    (info : MediaMeta) : Prop :=
  ∃ identity relay, d.identity = some identity ∧
    (d.processMessage P identity env pm).outcome = .media relay info

theorem recognises_iff {P : Primitives} {d : Daemon} {identity : KeyPair}
    (hid : d.identity = some identity) (env : Surroundings) (pm : PolledMessage)
    (info : MediaMeta) : Recognises P d env pm info ↔
      ∃ relay, (d.processMessage P identity env pm).outcome = .media relay info := by
  simp only [Recognises, hid, Option.some.injEq, exists_and_left, exists_eq_left']

private theorem withRelay_media_iff (relays : List Bytes) (info : MediaMeta) :
    (∃ relay, withRelay relays (fun relay => .media relay info) = .media relay info) ↔
      relays ≠ [] := by
  cases relays with
  | nil => simp [withRelay]
  | cons relay rest => simp [withRelay]

/-- Metadata that a call hands over, delivered unchanged to the recipient it was sealed for,
is recognised with the values that were sent exactly if it comes from `SendMedia`, and the
recipient has a relay to fetch the file from. No two messages are sealed under one nonce,
and nothing opens but what was sealed. -/
theorem media_recognised_iff (ctx : MediaContext) (path : MediaPath) (fileName mimeType : Bytes)
    (info : Media.MediaMessage) (nonce : Nonce) (out : Outgoing)
    (hhands : HandsOver ctx path fileName mimeType info nonce out)
    (hmarshal : ∀ text, ctx.marshal info = some text → Marshals info text)
    (hkey : info.fileKeyB64 ≠ []) (b : Daemon) (kb : KeyPair) (hid : b.identity = some kb)
    (ha : KeyPair.Valid ctx.primitives ctx.identity) (hb : KeyPair.Valid ctx.primitives kb)
    (hrecipient : Base64Std.decodeString out.recipient = some kb.publicKey)
    (hknows : ∃ known ∈ b.peers, Base64Std.decodeString known = some ctx.identity.publicKey)
    (env : Surroundings) (pm : PolledMessage) (hpm : pm.data = out.payload) (calls : List SealCall)
    (hauth : b.Unforged ctx.primitives kb calls pm.data)
    (hfresh : ∀ call ∈ calls, call.nonce = pm.data.take nonceLength →
      ctx.marshal info = some call.plaintext) :
    Recognises ctx.primitives b env pm ⟨info.fileKeyB64, mimeType, fileName, info.fileID⟩ ↔
      path = .sendMedia ∧ env.relays ≠ [] := by
  obtain ⟨rfl, rfl⟩ := hhands.names
  obtain ⟨text, pubkey, secret, htext, hpub, hsecret, hpayload⟩ := hhands.payload
  obtain rfl := Option.some.inj (hpub.symm.trans hrecipient)
  have hmarshals := hmarshal text htext
  have hcall : ∀ call ∈ calls, call.nonce = pm.data.take nonceLength → call.plaintext = text :=
    fun call hc hn => Option.some.inj ((hfresh call hc hn).symm.trans htext)
  rw [recognises_iff hid]
  cases path with
  | sendMedia =>
    have hraw : pm.data = nonce.val ++ ctx.primitives.xchacha.sealWith secret nonce.val text :=
      hpm.trans hpayload
    have htake : pm.data.take nonceLength = nonce.val := by
      rw [hraw, List.take_left' nonce.property]
    have hlong : nonceLength ≤ pm.data.length := by
      rw [hraw, List.length_append, nonce.property]
      omega
    obtain ⟨pubkeyStr, hopen⟩ := openWithPeers_sealed ha hb hknows hsecret hraw hauth
      (fun call hc hn => hcall call hc (hn.trans htake.symm)) env.peerHint
    have hunsigned : ∀ signed, parseSignedPayload ctx.primitives text = .ok signed →
        signed.senderX25519Pubkey = [] := by
      intro signed hsigned
      rw [parseSignedPayload, splitN_of_notMem hmarshals.oneLine] at hsigned
      cases hsigned
    have hne : text ≠ [] := by
      have hl := hmarshals.long
      intro hnil
      rw [hnil] at hl
      cases hl
    rw [processMessage_unsigned ctx.primitives kb b env pm hlong hopen hunsigned hne,
      hmarshals.dispatched ctx.primitives hkey]
    simp only [true_and]
    exact withRelay_media_iff env.relays (sentMeta info)
  | sendMediaStream =>
    have hshut : b.Shut ctx.primitives kb pm.data := by
      apply hauth.shut
      intro call hc hn
      rw [hcall call hc hn, hpm, hpayload, List.length_append, ctx.primitives.xchacha.sealWith_length]
      simp only [MediaPath.front, List.length_nil, tagLength, nonceLength]
      omega
    rw [(hshut.processMessage env).1]
    refine iff_of_false ?_ (fun h => MediaPath.noConfusion h.1)
    intro h
    obtain ⟨relay, h⟩ := h
    cases h

/-! ## One file on both paths -/

/-- The members of a message whose strings are printable and whose fields are all set. -/
def renderedMembers (info : Media.MediaMessage) : List (Bytes × Json.Item) :=
  [(lit "message_id", .text info.messageID), (lit "timestamp", .nat info.timestamp.toNat),
    (lit "media_type", .nat (mediaTypeNumber info.mediaType)), (lit "file_name", .text info.fileName),
    (lit "mime_type", .text info.mimeType), (lit "file_size", .nat info.fileSize.toInt.toNat),
    (lit "file_key_b64", .text info.fileKeyB64), (lit "checksum", .text info.checksum),
    (lit "file_id", .text info.fileID)]

def renderedContext : MediaContext :=
  ⟨Primitives.transparent, identityOf 1, fun info => some (Json.renderObject (renderedMembers info))⟩

/-- The metadata of a file of one byte. -/
def oneByteInfo : Media.MediaMessage where
  messageID := lit "5"
  timestamp := 3
  mediaType := .file
  fileName := lit "a.txt"
  mimeType := lit "text/plain"
  fileSize := 1
  fileKeyB64 := Base64Std.encodeToString [2]
  checksum := lit "sha256:" ++ hexEncode (Primitives.transparent.sha256 [7]).val
  fileID := lit "id"

def oneByteText : Bytes := Json.renderObject (renderedMembers oneByteInfo)

set_option maxRecDepth 2000 in
private theorem oneByteText_marshals : Marshals oneByteInfo oneByteText where
  object := rfl
  oneLine := by decide +kernel
  long := by decide +kernel
  members := by
    rw [oneByteText, Json.unmarshal_render _ (by decide +kernel)]
    rfl

def oneByteCiphertext : Bytes :=
  Primitives.transparent.xchacha.sealWith (blend (keyOf 1) (keyOf 2)) someNonce.val oneByteText

/-- The metadata as the media server's answer leaves it. -/
def oneByteUploaded : Media.MediaMessage :=
  { oneByteInfo with timestamp := 0, messageID := hexEncode [1] }

private theorem sendMedia_hands : HandsOver renderedContext .sendMedia (lit "a.txt")
    (lit "text/plain") oneByteInfo someNonce
    ⟨someNonce.val ++ oneByteCiphertext, (identityOf 2).pubkeyB64⟩ :=
  .sendMedia ⟨(identityOf 2).pubkeyB64, [7], lit "a.txt", lit "text/plain"⟩ idleMedia _ _
    [.register 5 0, .getRelays [lit "relay"], .sendChunks answered] (lit "5") oneByteUploaded 3
    someNonce _ rfl rfl rfl

/-- Daemon 2's surroundings, with a relay to fetch files from. -/
def withOneRelay : Surroundings := { quiet with relays := [lit "relay"] }

theorem media_recognised_iff_sendMedia :
    Recognises .transparent (knowing 2 [1]) withOneRelay
      (polledAs (someNonce.val ++ oneByteCiphertext))
      ⟨Base64Std.encodeToString [2], lit "text/plain", lit "a.txt", lit "id"⟩ := by
  have hmarshal : ∀ text, renderedContext.marshal oneByteInfo = some text →
      Marshals oneByteInfo text := by
    intro text htext
    exact Option.some.inj htext ▸ oneByteText_marshals
  have hfresh : ∀ call ∈ [(⟨blend (keyOf 1) (keyOf 2), someNonce.val, oneByteText⟩ : SealCall)],
      call.nonce = (someNonce.val ++ oneByteCiphertext).take nonceLength →
        renderedContext.marshal oneByteInfo = some call.plaintext := by
    intro call hcall _
    rw [List.mem_singleton.mp hcall]
    rfl
  exact (media_recognised_iff renderedContext .sendMedia _ _ _ _ _ sendMedia_hands hmarshal
    (by decide) (knowing 2 [1]) (identityOf 2) rfl (identityOf_valid 1) (identityOf_valid 2)
    (Base64Std.decodeString_encode _)
    ⟨(identityOf 1).pubkeyB64, by decide +kernel, Base64Std.decodeString_encode _⟩ withOneRelay
    (polledAs (someNonce.val ++ oneByteCiphertext)) rfl _ (framed_unforged oneByteText)
    hfresh).mpr ⟨rfl, List.cons_ne_nil _ _⟩

def streamHeader : Bytes :=
  lit "\x7b\"peer_pubkey\":\"" ++ (identityOf 2).pubkeyB64 ++
    lit "\",\"file_name\":\"a.txt\",\"mime_type\":\"text/plain\"\x7d"

private theorem sendMediaStream_hands : HandsOver renderedContext .sendMediaStream (lit "a.txt")
    (lit "text/plain") oneByteInfo someNonce ⟨oneByteCiphertext, (identityOf 2).pubkeyB64⟩ :=
  .sendMediaStream idleMedia _ _ [.recv (received (lit "5") streamHeader),
      .recv (received (lit "5") [7]), .recvEOF, .upload true [lit "relay"] answered true]
    ⟨lit "5", some [7], 1, (identityOf 2).pubkeyB64, lit "a.txt", lit "text/plain", 2⟩
    oneByteUploaded 3 someNonce _ rfl rfl rfl

/-- The same file, streamed to the same peer. -/
theorem streamedMedia_dropped : ∃ out, HandsOver renderedContext .sendMediaStream (lit "a.txt")
      (lit "text/plain") oneByteInfo someNonce out ∧ out.recipient = (identityOf 2).pubkeyB64 ∧
    (identityOf 1).pubkeyB64 ∈ (knowing 2 [1]).peers ∧
    ((knowing 2 [1]).processMessage .transparent (identityOf 2) withOneRelay
      (polledAs out.payload)).outcome = .dropped ∧
    ¬ Recognises .transparent (knowing 2 [1]) withOneRelay (polledAs out.payload)
      ⟨Base64Std.encodeToString [2], lit "text/plain", lit "a.txt", lit "id"⟩ := by
  have hdropped : ((knowing 2 [1]).processMessage .transparent (identityOf 2) withOneRelay
      (polledAs oneByteCiphertext)).outcome = .dropped := by decide +kernel
  refine ⟨_, sendMediaStream_hands, rfl, by decide +kernel, hdropped, ?_⟩
  rw [recognises_iff rfl, hdropped]
  intro h
  obtain ⟨relay, h⟩ := h
  cases h

end VRGram.Client
