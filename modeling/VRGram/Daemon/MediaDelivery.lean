import VRGram.Daemon.MediaMarshal
import VRGram.Relay.MediaDownloads

/-!
# A file from one daemon to another

`SendMedia` encrypts a file under a key of its own, uploads it to the relay's media server and
seals the key, with the id under which the server has the file, for the peer. The peer asks its
relay's media server for the id, opens what it gets with the key and saves it.
-/
namespace VRGram.Client

open VRGram.Lib VRGram.Lib.Aead VRGram.Lib.Maps VRGram.Lib.Machine VRGram.Lib.OpenFiles
  VRGram.Lib.Strings VRGram.Lib.Utf8 VRGram.Crypto VRGram.Encoding
open VRGram.Relay (MediaConfig MediaServer MediaEvent Response)
open VRGram.Relay.MediaServer (Stored)

set_option autoImplicit false

/-! ## What the sender seals -/

/-- The parts of an upload: what it draws, the file, and what goes to the media server. -/
structure FileUpload where
  cipher : Media.FileCipher
  draw : Media.FileDraw
  fileData : Bytes
  encrypted : Bytes
  sealed : Media.encryptFile cipher draw.fileKey draw.nonce fileData = some encrypted

/-- What `SendChunks` returns after the answer, and `SendMedia` completes. -/
structure Describes (P : Primitives) (u : FileUpload) (resp : Response) (fileName mimeType : Bytes)
    (info : Media.MediaMessage) : Prop where
  sent : ∃ msgID timestamp uploaded, Media.sendChunks P
      ⟨msgID, u.draw.fileKey, timestamp, Media.uploadAnswer resp⟩ u.fileData fileName mimeType .file =
        some uploaded ∧
    ∃ unixMilli, info = { uploaded with timestamp := unixMilli, messageID := hexEncode msgID }

theorem Describes.fields {P : Primitives} {u : FileUpload} {resp : Response}
    {fileName mimeType : Bytes} {info : Media.MediaMessage}
    (h : Describes P u resp fileName mimeType info) :
    (∃ b, info.messageID = hexEncode b) ∧ info.fileName = fileName ∧ info.mimeType = mimeType ∧
      info.fileKeyB64 = Base64Std.encodeToString u.draw.fileKey ∧
      (∃ b, info.checksum = lit "sha256:" ++ hexEncode b) ∧
      Media.uploadAnswer resp = some info.fileID := by
  obtain ⟨msgID, timestamp, uploaded, hsent, unixMilli, rfl⟩ := h.sent
  unfold Media.sendChunks at hsent
  split_ifs at hsent
  obtain ⟨fileID, hanswer, rfl⟩ := Option.map_eq_some_iff.mp hsent
  exact ⟨⟨msgID, rfl⟩, rfl, rfl, rfl, ⟨_, rfl⟩, hanswer⟩

theorem Describes.utf8 {P : Primitives} {u : FileUpload} {resp : Response}
    {fileName mimeType : Bytes} {info : Media.MediaMessage}
    (h : Describes P u resp fileName mimeType info) (hfile : WellFormed fileName)
    (hmime : WellFormed mimeType) (hid : WellFormed info.fileID) : Utf8Message info := by
  obtain ⟨⟨b, hmessage⟩, hname, htype, hkey, ⟨c, hchecksum⟩, -⟩ := h.fields
  have hhex : Json.Printable (lit "sha256:" ++ hexEncode c) := by
    have hfront : Json.Printable (lit "sha256:") := by decide +kernel
    exact List.forall_mem_append.mpr ⟨hfront, Hex.printable_hexEncode c⟩
  refine ⟨?_, hname ▸ hfile, htype ▸ hmime, ?_, ?_, hid⟩
  · rw [hmessage]
    exact (Hex.printable_hexEncode b).wellFormed
  · rw [hkey]
    exact (Json.printable_base64 _).wellFormed
  · rw [hchecksum]
    exact hhex.wellFormed

/-! ## What the recipient saves -/

/-- The files that stand for a received file: its sidecar and its body. -/
structure SavedAs (d : Daemon) (path fileName mimeType status body : Bytes) : Prop where
  body : d.files.lookup path = some (.raw body)
  sidecar : ∃ fields, d.files.lookup (path ++ lit ".meta") = some (.json fields) ∧
    (lit "filename", fileName) ∈ fields ∧ (lit "mime", mimeType) ∈ fields ∧
    (lit "status", status) ∈ fields

def mediaFilePath (d : Daemon) (pm : PolledMessage) (mimeType : Bytes) : Bytes :=
  d.fileIn (lit "media_received") (hexEncode pm.msgID.val ++ extensionOf mimeType)

theorem lookup_twoFiles (files : GoMap Bytes FileContent) (path body : Bytes)
    (fields : List (Bytes × Bytes)) :
    ((files.insert (path ++ lit ".meta") (.json fields)).insert path (.raw body)).lookup path =
        some (.raw body) ∧
      ((files.insert (path ++ lit ".meta") (.json fields)).insert path (.raw body)).lookup
        (path ++ lit ".meta") = some (.json fields) := by
  have hne : path ++ lit ".meta" ≠ path := by
    intro h
    have hlen := congrArg List.length h
    rw [List.length_append] at hlen
    have hpos : 0 < (lit ".meta").length := by decide
    omega
  constructor
  · rw [lookup_insert_ite, if_pos rfl]
  · rw [lookup_insert_ite, if_neg hne, lookup_insert_ite, if_pos rfl]

private theorem saveMedia_saved (d : Daemon) {env : Surroundings} (pm : PolledMessage)
    (fromPeer relay : Bytes) (m : MediaMeta) (hwritable : ∀ path, env.writable path = true) :
    let fetched := if m.fileID = [] then none else fetchMedia env relay m.fileID m.fileKeyB64
    SavedAs (d.saveMedia env pm fromPeer relay m) (mediaFilePath d pm m.mimeType) m.fileName
      m.mimeType (if fetched = none then lit "failed" else lit "complete") (fetched.getD []) := by
  intro fetched
  unfold Daemon.saveMedia
  change SavedAs (((d.writeFile env _ _).writeFile env _ (.raw (fetched.getD [])))) _ _ _ _ _
  simp only [Daemon.writeFile, hwritable, if_true]
  generalize hpath : d.fileIn (lit "media_received") _ = path
  have hsame : mediaFilePath d pm m.mimeType = path := hpath
  rw [hsame]
  refine ⟨(lookup_twoFiles d.files path _ _).1, _, (lookup_twoFiles d.files path _ _).2, ?_, ?_, ?_⟩
  · exact List.mem_of_getElem? (i := 0) rfl
  · exact List.mem_of_getElem? (i := 1) rfl
  · exact List.mem_of_getElem? (i := 4) rfl

/-- What is fetched from an honest server is the file that was uploaded, or nothing. -/
theorem fetchMedia_serves {u : FileUpload} (hdata : u.fileData ≠ []) {env : Surroundings}
    {relay fileID : Bytes} {resp : Response} (hserves : Relay.MediaServer.Serves u.encrypted resp)
    (hdownload : env.download relay fileID = Media.downloadAnswer resp)
    (hdecrypt : env.decryptFile = Media.decryptFile u.cipher) :
    fetchMedia env relay fileID (Base64Std.encodeToString u.draw.fileKey) =
      (Media.downloadAnswer resp).map (fun _ => u.fileData) := by
  unfold fetchMedia
  rw [hdownload]
  unfold Media.downloadAnswer
  split_ifs with hstatus hlen
  · rfl
  · obtain ⟨hall, hprefix⟩ := hserves.part (not_not.mp hstatus)
    obtain hbody := hprefix.eq_of_length (hlen.trans hall)
    have hkey : (Base64Std.decode (Base64Std.encodeToString u.draw.fileKey)).1 = u.draw.fileKey := by
      rw [Base64Std.decode_encode]
    dsimp only
    rw [hdecrypt, hkey, hbody, Media.decryptFile_encryptFile u.cipher u.draw u.sealed,
      Option.bind_some, nilIfEmpty, if_neg hdata]
    rfl
  · rfl

/-! ## From daemon to daemon -/

/-- The metadata is sealed for the recipient and delivered unchanged. No two messages are sealed
under one nonce, and nothing opens but what was sealed. -/
structure MetaDelivered (ctx : MediaContext) (info : Media.MediaMessage) (b : Daemon) (kb : KeyPair)
    (pm : PolledMessage) (calls : List SealCall) : Prop where
  payload : ∃ recipient nonce ciphertext returned,
    ctx.sealMeta info recipient nonce = .ok (ciphertext, returned) ∧
      Base64Std.decodeString recipient = some kb.publicKey ∧ pm.data = returned ++ ciphertext
  sender : KeyPair.Valid ctx.primitives ctx.identity
  recipient : KeyPair.Valid ctx.primitives kb
  knows : ∃ known ∈ b.peers, Base64Std.decodeString known = some ctx.identity.publicKey
  unforged : b.Unforged ctx.primitives kb calls pm.data
  once : ∀ call ∈ calls, call.nonce = pm.data.take nonceLength →
    ctx.marshal info = some call.plaintext

/-- Delivered metadata makes the recipient fetch the file from its first relay and save it. -/
theorem MetaDelivered.processed {ctx : MediaContext} {info : Media.MediaMessage} {b : Daemon}
    {kb : KeyPair} {pm : PolledMessage} {calls : List SealCall}
    (h : MetaDelivered ctx info b kb pm calls)
    (hmarshal : ∀ text, ctx.marshal info = some text → Marshals info text)
    (hkey : info.fileKeyB64 ≠ []) {env : Surroundings} {relay : Bytes} {rest : List Bytes}
    (hrelays : env.relays = relay :: rest) :
    ∃ fromPeer, (b.processMessage ctx.primitives kb env pm).daemon =
      b.saveMedia env pm fromPeer relay (sentMeta info) := by
  obtain ⟨recipient, nonce, ciphertext, returned, hseal, hrecipient, hpm⟩ := h.payload
  obtain ⟨text, pubkey, secret, htext, hpub, hsecret, rfl, rfl⟩ := sealMeta_ok hseal
  obtain rfl := Option.some.inj (hpub.symm.trans hrecipient)
  have hmarshals := hmarshal text htext
  have htake : pm.data.take nonceLength = nonce.val := by
    rw [hpm, List.take_left' nonce.property]
  have hlong : nonceLength ≤ pm.data.length := by
    rw [hpm, List.length_append, nonce.property]
    omega
  obtain ⟨pubkeyStr, hopen⟩ := openWithPeers_sealed h.sender h.recipient h.knows hsecret hpm h.unforged
    (fun call hc hn => Option.some.inj ((h.once call hc (hn.trans htake.symm)).symm.trans htext))
    env.peerHint
  have hunsigned : ∀ signed, parseSignedPayload ctx.primitives text = .ok signed →
      signed.senderX25519Pubkey = [] := by
    intro signed hsigned
    rw [parseSignedPayload, splitN_of_notMem hmarshals.oneLine] at hsigned
    cases hsigned
  have hne : text ≠ [] := by
    have hl := hmarshals.long
    intro hnil
    rw [hnil] at hl
    cases hl
  have hpeer : b.byPeer ctx.primitives kb env pm.data =
      ⟨.peer pubkeyStr, pubkeyStr, some text⟩ := by
    simp only [Daemon.byPeer, hopen]
    rw [attributeSender_fallback ctx.primitives hunsigned, nilIfEmpty, if_neg hne]
  refine ⟨pubkeyStr, ?_⟩
  rw [processMessage_opened ctx.primitives hlong hpeer, hmarshals.dispatched ctx.primitives hkey,
    hrelays]
  rfl

/-- What the recipient of the metadata saves: what it has fetched, or a placeholder. -/
theorem MetaDelivered.saved {ctx : MediaContext}
    (hmarshal : ctx.marshal = fun info => some (marshalMedia info)) {u : FileUpload}
    {resp : Response} {fileName mimeType : Bytes} (hfile : WellFormed fileName)
    (hmime : WellFormed mimeType) {info : Media.MediaMessage}
    (hinfo : Describes ctx.primitives u resp fileName mimeType info) (hid : WellFormed info.fileID)
    {b : Daemon} {kb : KeyPair} {env : Surroundings} {pm : PolledMessage} {calls : List SealCall}
    (h : MetaDelivered ctx info b kb pm calls) {relay : Bytes} {rest : List Bytes}
    (hrelays : env.relays = relay :: rest) (hwritable : ∀ path, env.writable path = true) :
    let fetched := if info.fileID = [] then none
      else fetchMedia env relay info.fileID (Base64Std.encodeToString u.draw.fileKey)
    SavedAs (b.processMessage ctx.primitives kb env pm).daemon (mediaFilePath b pm mimeType)
      fileName mimeType (if fetched = none then lit "failed" else lit "complete")
      (fetched.getD []) := by
  obtain ⟨-, hname, htype, hkey, -, -⟩ := hinfo.fields
  have hmarshals : ∀ text, ctx.marshal info = some text → Marshals info text := by
    intro text htext
    rw [hmarshal] at htext
    exact Option.some.inj htext ▸ marshals_marshalMedia (hinfo.utf8 hfile hmime hid)
  have hkeyne : info.fileKeyB64 ≠ [] := by
    rw [hkey]
    intro hnil
    have hlen := Base64Std.encode_length u.draw.fileKey
    rw [hnil, u.draw.fileKey_length] at hlen
    cases hlen
  obtain ⟨fromPeer, hprocessed⟩ := h.processed hmarshals hkeyne hrelays
  have hsaved := saveMedia_saved b pm fromPeer relay (sentMeta info) hwritable
  rw [hprocessed, ← hname, ← htype, ← hkey]
  exact hsaved

/-- A file that was uploaded with success, and whose metadata was delivered, is saved by the
recipient byte for byte, under its name and type, or as a failed placeholder if the answer to its
download is not complete: the server never answers that there is no such file, whatever else it
does meanwhile, for as long as the file is left alone. -/
theorem media_end_to_end (ctx : MediaContext)
    (hmarshal : ctx.marshal = fun info => some (marshalMedia info)) (u : FileUpload)
    (hdata : u.fileData ≠ []) (fileName mimeType : Bytes) (hfile : WellFormed fileName)
    (hmime : WellFormed mimeType) (cfg : MediaConfig) (disk : Disk Bytes)
    (before after : List MediaEvent) (s t : MediaServer) (name : Bytes) (id : Nat)
    (hstored : Stored cfg disk before s name (id, u.encrypted)) (info : Media.MediaMessage)
    (hinfo : Describes ctx.primitives u (Relay.uploadResponse name) fileName mimeType info)
    (b : Daemon) (kb : KeyPair) (env : Surroundings) (pm : PolledMessage) (calls : List SealCall)
    (hdelivered : MetaDelivered ctx info b kb pm calls) (relay : Bytes) (rest : List Bytes)
    (hrelays : env.relays = relay :: rest) (hwritable : ∀ path, env.writable path = true)
    (hdecrypt : env.decryptFile = Media.decryptFile u.cipher)
    (hafter : run (MediaServer.step cfg) s after = some t) (hc : t.Collisionless cfg)
    (hquiet : Meets (MediaServer.step cfg) (MediaServer.Undisturbed cfg name) s after) (j : Nat)
    (hj : s.Fresh j) (hasked : (j, info.fileID) ∈ t.asked) (resp : Response)
    (hresp : (j, resp) ∈ t.answers)
    (hdownload : env.download relay info.fileID = Media.downloadAnswer resp) :
    resp.status ≠ 404 ∧
      SavedAs (b.processMessage ctx.primitives kb env pm).daemon (mediaFilePath b pm mimeType)
        fileName mimeType
        (if Media.downloadAnswer resp = none then lit "failed" else lit "complete")
        (if Media.downloadAnswer resp = none then [] else u.fileData) := by
  have hanswer := hinfo.fields.2.2.2.2.2
  have hprintable : Json.Printable name := by
    rw [hstored.name_eq]
    exact Hex.printable_hexEncode _
  rw [Media.uploadAnswer_uploadResponse hprintable] at hanswer
  have hid : name = info.fileID := Option.some.inj hanswer
  have hserves := hstored.serves hafter hc hquiet hj (hid ▸ hasked) hresp
  have hidne : info.fileID ≠ [] := by
    rw [← hid, hstored.name_eq]
    intro hnil
    have hlen := Hex.hexEncode_length (cfg.sha256 u.encrypted).val
    rw [show hexEncode (cfg.sha256 u.encrypted).val = [] from hnil,
      (cfg.sha256 u.encrypted).property] at hlen
    cases hlen
  have hsaved := hdelivered.saved hmarshal hfile hmime hinfo (hid ▸ hprintable.wellFormed) hrelays
    hwritable
  simp only [if_neg hidne, fetchMedia_serves hdata hserves hdownload hdecrypt] at hsaved
  refine ⟨hserves.found, ?_⟩
  cases hgot : Media.downloadAnswer resp with
  | none => simpa only [hgot, Option.map_none, Option.getD_none, if_true] using hsaved
  | some got =>
    simpa only [hgot, Option.map_some, Option.getD_some, reduceCtorEq, if_false] using hsaved

/-- A file of one byte, under a key and a nonce. -/
def oneByteFile : FileUpload where
  cipher := keyTagged 16
  draw := ⟨List.replicate 32 2, List.replicate 12 3, rfl, rfl⟩
  fileData := [7]
  encrypted := (keyTagged 16).sealFramed (List.replicate 32 2) (List.replicate 12 3) [7]
  sealed := rfl

def oneByteID : Bytes := Relay.fileID Relay.guardedConfig oneByteFile.encrypted

def oneByteStored : List MediaEvent :=
  [.request 1 (Relay.uploadOf oneByteFile.encrypted), .create 1 5, .write 1 29 5, .close 1]

def oneByteFetched : List MediaEvent :=
  [.request 2 (.download (lit "/download/" ++ oneByteID) (lit "token")), .openFile 2 true,
    .read 2 29, .reply 2]

def marshallingContext : MediaContext :=
  ⟨.transparent, identityOf 1, fun info => some (marshalMedia info)⟩

def oneByteMeta : Media.MediaMessage where
  messageID := hexEncode [5]
  timestamp := 3
  mediaType := .file
  fileName := lit "a.txt"
  mimeType := lit "text/plain"
  fileSize := 1
  fileKeyB64 := Base64Std.encodeToString (List.replicate 32 2)
  checksum := lit "sha256:" ++ hexEncode (Primitives.transparent.sha256 [7]).val
  fileID := oneByteID

def oneByteSealed : Bytes :=
  Primitives.transparent.xchacha.sealWith (blend (keyOf 1) (keyOf 2)) someNonce.val
    (marshalMedia oneByteMeta)

/-- Daemon 2's surroundings: its relay serves the file. -/
def fetchingOneByte : Surroundings :=
  { quiet with
    relays := [lit "relay"]
    download := fun _ _ => some oneByteFile.encrypted
    decryptFile := Media.decryptFile (keyTagged 16)
    writable := fun _ => true }

theorem oneByte_describes : Describes .transparent oneByteFile (Relay.uploadResponse oneByteID)
    (lit "a.txt") (lit "text/plain") oneByteMeta := by
  have hanswer : Media.uploadAnswer (Relay.uploadResponse oneByteID) = some oneByteID :=
    Media.uploadAnswer_uploadResponse (Hex.printable_hexEncode _)
  refine ⟨[5], 0, { oneByteMeta with timestamp := 0 }, ?_, 3, rfl⟩
  rw [hanswer]
  rfl

theorem oneByte_delivered : MetaDelivered marshallingContext oneByteMeta (knowing 2 [1])
    (identityOf 2) (polledAs (someNonce.val ++ oneByteSealed))
    [⟨blend (keyOf 1) (keyOf 2), someNonce.val, marshalMedia oneByteMeta⟩] where
  payload := ⟨(identityOf 2).pubkeyB64, someNonce, oneByteSealed, someNonce.val, by
    rw [MediaContext.sealMeta]
    rfl, Base64Std.decodeString_encode _, rfl⟩
  sender := identityOf_valid 1
  recipient := identityOf_valid 2
  knows := ⟨(identityOf 1).pubkeyB64, by decide +kernel, Base64Std.decodeString_encode _⟩
  unforged := framed_unforged (marshalMedia oneByteMeta)
  once := by
    intro call hcall _
    rw [List.mem_singleton.mp hcall]
    rfl

theorem media_end_to_end_oneByte :
    SavedAs ((knowing 2 [1]).processMessage .transparent (identityOf 2) fetchingOneByte
        (polledAs (someNonce.val ++ oneByteSealed))).daemon
      (mediaFilePath (knowing 2 [1]) (polledAs (someNonce.val ++ oneByteSealed)) (lit "text/plain"))
      (lit "a.txt") (lit "text/plain") (lit "complete") [7] := by
  have hstored : Stored Relay.guardedConfig .empty oneByteStored _ oneByteID
      (1, oneByteFile.encrypted) :=
    ⟨rfl, ⟨0, rfl, rfl⟩, by decide +kernel, fun _ => Relay.Cleaner.noConfusion⟩
  exact (media_end_to_end marshallingContext rfl oneByteFile (by decide) (lit "a.txt")
    (lit "text/plain") (by decide) (by decide) Relay.guardedConfig .empty oneByteStored
    oneByteFetched _ _ oneByteID 1 hstored oneByteMeta oneByte_describes (knowing 2 [1])
    (identityOf 2) fetchingOneByte _ _ oneByte_delivered (lit "relay") [] rfl (fun _ => rfl) rfl rfl
    (by decide +kernel)
    ⟨trivial, fun _ _ => ⟨trivial, fun _ _ => ⟨trivial, fun _ _ => ⟨trivial, fun _ _ =>
      trivial⟩⟩⟩⟩ 2 (by decide +kernel) (by decide +kernel)
    ⟨200, oneByteFile.encrypted, 29⟩ (by decide +kernel) rfl).2

/-- Whatever the relay serves under the file's id, the recipient saves the file that was sent, or
a failed placeholder. The relay does not have the file's key, so nothing opens with it but what
the sender has sealed. -/
theorem media_intact (ctx : MediaContext)
    (hmarshal : ctx.marshal = fun info => some (marshalMedia info)) (u : FileUpload)
    (resp : Response) (fileName mimeType : Bytes) (hfile : WellFormed fileName)
    (hmime : WellFormed mimeType) (info : Media.MediaMessage)
    (hinfo : Describes ctx.primitives u resp fileName mimeType info) (hid : WellFormed info.fileID)
    (b : Daemon) (kb : KeyPair) (env : Surroundings) (pm : PolledMessage) (calls : List SealCall)
    (hdelivered : MetaDelivered ctx info b kb pm calls) (relay : Bytes) (rest : List Bytes)
    (hrelays : env.relays = relay :: rest) (hwritable : ∀ path, env.writable path = true)
    (hdecrypt : env.decryptFile = Media.decryptFile u.cipher)
    (hsecret : ∀ served, env.download relay info.fileID = some served →
      u.cipher.OpensOnly (fun key => key = u.draw.fileKey)
        [⟨u.draw.fileKey, u.draw.nonce, u.fileData⟩] (served.take Media.gcmNonceSize)
        (served.drop Media.gcmNonceSize)) :
    ∃ status body, SavedAs (b.processMessage ctx.primitives kb env pm).daemon
        (mediaFilePath b pm mimeType) fileName mimeType status body ∧
      ((status = lit "complete" ∧ body = u.fileData) ∨ (status = lit "failed" ∧ body = [])) := by
  refine ⟨_, _, hdelivered.saved hmarshal hfile hmime hinfo hid hrelays hwritable, ?_⟩
  cases hfetched : (if info.fileID = [] then none
      else fetchMedia env relay info.fileID (Base64Std.encodeToString u.draw.fileKey)) with
  | none => exact Or.inr ⟨if_pos rfl, rfl⟩
  | some data =>
    refine Or.inl ⟨if_neg (Option.some_ne_none data), ?_⟩
    split_ifs at hfetched
    unfold fetchMedia at hfetched
    split at hfetched
    next => cases hfetched
    next served hserved =>
      have hkey : (Base64Std.decode (Base64Std.encodeToString u.draw.fileKey)).1 =
          u.draw.fileKey := by
        rw [Base64Std.decode_encode]
      obtain ⟨plain, hplain, hnil⟩ := Option.bind_eq_some_iff.mp hfetched
      rw [hdecrypt, hkey, Media.decryptFile, if_pos u.draw.isAesKey, Cipher.openFramed] at hplain
      split_ifs at hplain
      have hcall := hsecret served hserved _ _ rfl hplain
      have hsame : plain = u.fileData := by
        injection List.mem_singleton.mp hcall
      unfold nilIfEmpty at hnil
      split_ifs at hnil
      exact (Option.some.inj hnil).symm.trans hsame

theorem media_intact_oneByte : ∃ status body,
    SavedAs ((knowing 2 [1]).processMessage .transparent (identityOf 2) fetchingOneByte
        (polledAs (someNonce.val ++ oneByteSealed))).daemon
      (mediaFilePath (knowing 2 [1]) (polledAs (someNonce.val ++ oneByteSealed)) (lit "text/plain"))
      (lit "a.txt") (lit "text/plain") status body ∧
      ((status = lit "complete" ∧ body = [7]) ∨ (status = lit "failed" ∧ body = [])) := by
  refine media_intact marshallingContext rfl oneByteFile (Relay.uploadResponse oneByteID)
    (lit "a.txt") (lit "text/plain") (by decide) (by decide) oneByteMeta oneByte_describes
    (Hex.printable_hexEncode _).wellFormed (knowing 2 [1]) (identityOf 2) fetchingOneByte _ _
    oneByte_delivered (lit "relay") [] rfl (fun _ => rfl) rfl ?_
  intro served hserved key p hkey hopen
  obtain rfl := Option.some.inj hserved
  obtain rfl := hkey
  have hplain : (keyTagged 16).openWith (List.replicate 32 2) (List.replicate 12 3)
      ((keyTagged 16).sealWith (List.replicate 32 2) (List.replicate 12 3) [7]) = some p := hopen
  rw [Cipher.openWith_sealWith] at hplain
  obtain rfl := Option.some.inj hplain
  exact List.mem_singleton_self _

end VRGram.Client
