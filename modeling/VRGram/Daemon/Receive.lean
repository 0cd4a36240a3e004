import VRGram.Client.Engine
import VRGram.Daemon.Groups
import VRGram.Lib.Json
import VRGram.Lib.Machine
import VRGram.Lib.Paths

/-!
# Receiving: `Daemon.PollMessages`

A polled message is framed as a nonce and a ciphertext, opened with the first peer
whose shared secret fits or else with a pending hello key, attributed to a sender, and
then dispatched on its content. A message is handled in one step. `Open` returns a nil
slice for an empty plaintext, and nil is how the code says that nothing was opened.
-/
namespace VRGram.Client

open VRGram.Lib VRGram.Lib.Maps VRGram.Lib.Strings VRGram.Crypto

set_option autoImplicit false

/-- What the handling of one message finds around it: the clock, the order of the two
map loops, the relays, the media server, AES-GCM, and the paths that can be written. -/
structure Surroundings where
  now : Int
  peerHint : List Bytes
  helloHint : List Bytes
  relays : List Bytes
  download : Bytes → Bytes → Option Bytes
  decryptFile : Bytes → Bytes → Option Bytes
  writable : Bytes → Bool

structure ReceivedMessage where
  messageId : Bytes
  plaintext : Bytes
  fromPeer : Bytes
  groupId : Bytes
  serverTimestampMs : UInt64
  sequenceNumber : UInt64
  deriving DecidableEq

/-- Whose key opened a message. -/
inductive Via where
  | nobody
  | peer (pubkeyStr : Bytes)
  | hello
  deriving DecidableEq

/-- The variables `decrypted` and `fromPeer`, and whose key set them. -/
structure Opening where
  via : Via
  fromPeer : Bytes
  decrypted : Option Bytes
  deriving DecidableEq

/-- The slice that opening a ciphertext returns: nil when it is empty. -/
def nilIfEmpty (b : Bytes) : Option Bytes := if b = [] then none else some b

/-! ## Opening -/

section

variable (P : Primitives)

/-- The body of the loop over the peers, up to decryption. -/
def openWithPeer (privateKey raw pubkeyStr : Bytes) : Option Bytes :=
  match Base64Std.decodeString pubkeyStr with
  | none => none
  | some pubkey =>
    match sharedSecret P privateKey pubkey with
    | .error _ => none
    | .ok secret =>
      (decryptMessage P secret (raw.take nonceLength) (raw.drop nonceLength)).toOption

/-- The first peer in the order of the loop whose secret opens the message. -/
def openWithPeers (privateKey raw : Bytes) (order : List Bytes) : Option (Bytes × Bytes) :=
  order.findSome? (fun pubkeyStr =>
    (openWithPeer P privateKey raw pubkeyStr).map (fun plaintext => (pubkeyStr, plaintext)))

/-- The sender is read from the payload; the signature flag is only logged. -/
def attributeSender (pubkeyStr plaintext : Bytes) : Opening :=
  match parseSignedPayload P plaintext with
  | .error _ => ⟨.peer pubkeyStr, pubkeyStr, nilIfEmpty plaintext⟩
  | .ok signed =>
    if signed.senderX25519Pubkey = [] then ⟨.peer pubkeyStr, pubkeyStr, nilIfEmpty plaintext⟩
    else ⟨.peer pubkeyStr, signed.senderX25519Pubkey, some signed.plaintext⟩

def helloNames : List Bytes := [lit "type", lit "pubkey", lit "nickname"]

/-- The public key and nickname of a hello. -/
def helloOf (plaintext : Bytes) : Option (Bytes × Bytes) := do
  let ms ← Json.unmarshal plaintext
  let type ← Json.stringField helloNames ms (lit "type")
  let pubkey ← Json.stringField helloNames ms (lit "pubkey")
  let nickname ← Json.stringField helloNames ms (lit "nickname")
  if type = lit "hello" ∧ pubkey ≠ [] then
    some (pubkey, if nickname = [] then lit "Unknown" else nickname)
  else none

theorem helloOf_type {plaintext : Bytes} {hello : Bytes × Bytes}
    (h : helloOf plaintext = some hello) : ∃ ms, Json.unmarshal plaintext = some ms ∧
      Json.stringField helloNames ms (lit "type") = some (lit "hello") := by
  simp only [helloOf, Option.bind_eq_bind, Option.bind_eq_some_iff] at h
  obtain ⟨ms, hms, type, htype, pubkey, -, nickname, -, h⟩ := h
  by_cases hc : type = lit "hello" ∧ pubkey ≠ []
  · exact ⟨ms, hms, hc.1 ▸ htype⟩
  · rw [if_neg hc] at h
    cases h

/-- Nanoseconds after which a pending hello is forgotten. -/
def helloLifetime : Int := 24 * 60 * 60 * 1000000000

/-- A peer that a hello adds: the nonce of the invitation that it answers, and when. -/
structure Addition where
  nonce : Bytes
  pubkey : Bytes
  nickname : Bytes
  time : Int
  deriving DecidableEq

/-- One round of the loop over the pending hellos, which has no break: the state after it, and the
peer that it has added. -/
def helloRound (now : Int) (raw : Bytes) (s : Daemon × Opening) (nonceHex : Bytes) :
    (Daemon × Opening) × Option Addition :=
  match s.1.pendingHellos.lookup nonceHex with
  | none => (s, none)
  | some entry =>
    if now - entry.createdAt > helloLifetime then
      (({ s.1 with pendingHellos := s.1.pendingHellos.erase nonceHex }, s.2), none)
    else
      match decryptHello P (deriveHelloKey P entry.nonce) raw with
      | .error _ => (s, none)
      | .ok plaintext =>
        match helloOf plaintext with
        | none => (s, none)
        | some (pubkey, nick) =>
          (({ s.1 with
              peers := s.1.peers.insert pubkey ⟨nick, pubkey⟩
              pendingHellos := s.1.pendingHellos.erase nonceHex },
            ⟨.hello, pubkey, some plaintext⟩), some ⟨entry.nonce, pubkey, nick, now⟩)

def helloStep (now : Int) (raw : Bytes) (s : Daemon × Opening) (nonceHex : Bytes) :
    Daemon × Opening :=
  (helloRound P now raw s nonceHex).1

def helloAdds (now : Int) (raw : Bytes) (s : Daemon × Opening) (nonceHex : Bytes) :
    Option Addition :=
  (helloRound P now raw s nonceHex).2

def Daemon.tryHellos (d : Daemon) (env : Surroundings) (raw : Bytes) (opening : Opening) :
    Daemon × Opening :=
  (rangeOrder env.helloHint d.pendingHellos).foldl (helloStep P env.now raw) (d, opening)

def Daemon.byPeer (d : Daemon) (identity : KeyPair) (env : Surroundings) (raw : Bytes) : Opening :=
  match openWithPeers P identity.privateKey raw (rangeOrder env.peerHint d.peers) with
  | none => ⟨.nobody, [], none⟩
  | some (pubkeyStr, plaintext) => attributeSender P pubkeyStr plaintext

def Daemon.openMessage (d : Daemon) (identity : KeyPair) (env : Surroundings) (raw : Bytes) :
    Daemon × Opening :=
  let opening := d.byPeer P identity env raw
  if opening.decrypted = none then d.tryHellos P env raw opening else (d, opening)

/-! ## Dispatch -/

structure KeyDist where
  groupID : Bytes
  groupKeyB64 : Bytes
  keyEpoch : UInt64
  name : Bytes
  deriving DecidableEq

structure MediaMeta where
  fileKeyB64 : Bytes
  mimeType : Bytes
  fileName : Bytes
  fileID : Bytes
  deriving DecidableEq

inductive Outcome where
  | dropped
  | groupKey (dist : KeyDist)
  | profileUpdate (nickname bio : Bytes)
  | profilePic (relay fileID fileKeyB64 : Bytes)
  | media (relay : Bytes) (info : MediaMeta)
  | delivered (plaintext groupID : Bytes)
  deriving DecidableEq

/-- `len(decrypted) > n && decrypted[0] == '{'`. -/
def looksLikeJson (n : Nat) (content : Bytes) : Bool :=
  content.length > n && content.head? == some 123

def keyDistNames : List Bytes :=
  [lit "type", lit "group_id", lit "group_key_b64", lit "key_epoch", lit "name"]

def keyDistOf (content : Bytes) : Option KeyDist := do
  guard (looksLikeJson 10 content)
  let ms ← Json.unmarshal content
  let type ← Json.stringField keyDistNames ms (lit "type")
  let groupID ← Json.stringField keyDistNames ms (lit "group_id")
  let groupKeyB64 ← Json.stringField keyDistNames ms (lit "group_key_b64")
  let keyEpoch ← Json.uint64Field keyDistNames ms (lit "key_epoch")
  let name ← Json.stringField keyDistNames ms (lit "name")
  guard (type = lit "group_key" ∧ groupKeyB64 ≠ [])
  return ⟨groupID, groupKeyB64, keyEpoch, name⟩

theorem keyDistOf_some_iff {content : Bytes} {dist : KeyDist} :
    keyDistOf content = some dist ↔ looksLikeJson 10 content = true ∧
      ∃ ms, Json.unmarshal content = some ms ∧
        Json.stringField keyDistNames ms (lit "type") = some (lit "group_key") ∧
        Json.stringField keyDistNames ms (lit "group_id") = some dist.groupID ∧
        Json.stringField keyDistNames ms (lit "group_key_b64") = some dist.groupKeyB64 ∧
        Json.uint64Field keyDistNames ms (lit "key_epoch") = some dist.keyEpoch ∧
        Json.stringField keyDistNames ms (lit "name") = some dist.name ∧ dist.groupKeyB64 ≠ [] := by
  obtain ⟨groupID, groupKeyB64, keyEpoch, name⟩ := dist
  simp only [keyDistOf, Option.bind_eq_bind, Option.bind_eq_some_iff, Json.guard_some_iff,
    Option.pure_def, Option.some.injEq, KeyDist.mk.injEq]
  constructor
  · intro h
    obtain ⟨-, hjson, ms, hms, type, htype, g, hg, k, hk, e, he, n, hn, -, ⟨rfl, hne⟩,
      rfl, rfl, rfl, rfl⟩ := h
    exact ⟨hjson, ms, hms, htype, hg, hk, he, hn, hne⟩
  · intro h
    obtain ⟨hjson, ms, hms, htype, hg, hk, he, hn, hne⟩ := h
    exact ⟨(), hjson, ms, hms, _, htype, _, hg, _, hk, _, he, _, hn, (), ⟨rfl, hne⟩,
      rfl, rfl, rfl, rfl⟩

theorem keyDistOf_eq_none {content : Bytes} {ms : List (Bytes × Json.Value)}
    (hms : Json.unmarshal content = some ms) {type : Bytes}
    (htype : Json.stringField keyDistNames ms (lit "type") = some type)
    (hne : type ≠ lit "group_key") : keyDistOf content = none := by
  rw [Option.eq_none_iff_forall_ne_some]
  intro dist hdist
  obtain ⟨-, ms', hms', htype', -⟩ := keyDistOf_some_iff.mp hdist
  obtain rfl := Option.some.inj (hms.symm.trans hms')
  exact hne (Option.some.inj (htype.symm.trans htype'))

structure Envelope where
  g : Bytes
  e : UInt64
  mB64 : Bytes
  deriving DecidableEq

def envelopeNames : List Bytes := [lit "g", lit "e", lit "m"]

def envelopeOf (content : Bytes) : Option Envelope := do
  guard (looksLikeJson 10 content)
  let ms ← Json.unmarshal content
  let g ← Json.stringField envelopeNames ms (lit "g")
  let e ← Json.uint64Field envelopeNames ms (lit "e")
  let m ← Json.stringField envelopeNames ms (lit "m")
  guard (g ≠ [] ∧ m ≠ [])
  return ⟨g, e, m⟩

theorem envelopeOf_eq_none {content : Bytes} {ms : List (Bytes × Json.Value)}
    (hms : Json.unmarshal content = some ms)
    (hg : Json.stringField envelopeNames ms (lit "g") = some []) : envelopeOf content = none := by
  rw [Option.eq_none_iff_forall_ne_some]
  intro envelope henvelope
  simp only [envelopeOf, Option.bind_eq_bind, Option.bind_eq_some_iff,
    Json.guard_some_iff] at henvelope
  obtain ⟨-, -, ms', hms', g, hg', e, -, m, -, -, ⟨hne, -⟩, -⟩ := henvelope
  obtain rfl := Option.some.inj (hms.symm.trans hms')
  exact hne (Option.some.inj (hg.symm.trans hg')).symm

/-- The content to go on with and the group it came from; `none` for a stale epoch. An
envelope that cannot be opened stays as it is. -/
def openEnvelope (groups : GoMap Bytes Group) (content : Bytes) : Option (Bytes × Bytes) :=
  match envelopeOf content with
  | none => some (content, [])
  | some envelope =>
    match groups.lookup envelope.g with
    | none => some (content, [])
    | some group =>
      if envelope.e < group.keyEpoch then none
      else
        match Base64Std.decodeString envelope.mB64 with
        | none => some (content, [])
        | some data =>
          match decryptGroupMessage P group.groupKey data with
          | .error _ => some (content, [])
          | .ok plaintext => some (plaintext, envelope.g)

structure ProfileMsg where
  type : Bytes
  nickname : Bytes
  bio : Bytes
  fileID : Bytes
  fileKeyB64 : Bytes
  deriving DecidableEq

def profileNames : List Bytes :=
  [lit "type", lit "nickname", lit "bio", lit "file_id", lit "file_key_b64", lit "transport",
    lit "mime"]

/-- The fields that are decoded but not read afterwards can still make it fail. -/
def profileMsgOf (content : Bytes) : Option ProfileMsg := do
  let ms ← Json.unmarshal content
  let type ← Json.stringField profileNames ms (lit "type")
  let nickname ← Json.stringField profileNames ms (lit "nickname")
  let bio ← Json.stringField profileNames ms (lit "bio")
  let fileID ← Json.stringField profileNames ms (lit "file_id")
  let fileKeyB64 ← Json.stringField profileNames ms (lit "file_key_b64")
  let _ ← Json.stringField profileNames ms (lit "transport")
  let _ ← Json.stringField profileNames ms (lit "mime")
  return ⟨type, nickname, bio, fileID, fileKeyB64⟩

def mediaNames : List Bytes :=
  [lit "file_key_b64", lit "mime_type", lit "file_name", lit "file_id"]

def mediaMetaOf (content : Bytes) : Option MediaMeta := do
  let ms ← Json.unmarshal content
  let fileKeyB64 ← Json.stringField mediaNames ms (lit "file_key_b64")
  let mimeType ← Json.stringField mediaNames ms (lit "mime_type")
  let fileName ← Json.stringField mediaNames ms (lit "file_name")
  let fileID ← Json.stringField mediaNames ms (lit "file_id")
  guard (fileKeyB64 ≠ [])
  return ⟨fileKeyB64, mimeType, fileName, fileID⟩

/-- The first relay serves the media; without one nothing is done. -/
def withRelay (relays : List Bytes) (f : Bytes → Outcome) : Outcome :=
  match relays with
  | [] => .dropped
  | relay :: _ => f relay

def mediaOrText (relays : List Bytes) (content groupID : Bytes) : Outcome :=
  match mediaMetaOf content with
  | some info => withRelay relays (fun relay => .media relay info)
  | none => .delivered content groupID

/-- The branches after the group envelope. -/
def contentOutcome (relays : List Bytes) (fromPeer content groupID : Bytes) : Outcome :=
  if looksLikeJson 20 content then
    match profileMsgOf content with
    | some msg =>
      if msg.type = lit "profile_update" ∧ fromPeer ≠ [] then .profileUpdate msg.nickname msg.bio
      else if msg.type = lit "profile_pic" ∧ fromPeer ≠ [] ∧ msg.fileID ≠ [] then
        withRelay relays (fun relay => .profilePic relay msg.fileID msg.fileKeyB64)
      else mediaOrText relays content groupID
    | none => mediaOrText relays content groupID
  else .delivered content groupID

theorem withRelay_ne_delivered {relays : List Bytes} {f : Bytes → Outcome} {text group : Bytes}
    (h : ∀ relay, f relay ≠ .delivered text group) : withRelay relays f ≠ .delivered text group := by
  cases relays with
  | nil => exact Outcome.noConfusion
  | cons relay _ => exact h relay

theorem mediaOrText_delivered_iff (relays : List Bytes) (content groupID text group : Bytes) :
    mediaOrText relays content groupID = .delivered text group ↔
      text = content ∧ group = groupID ∧ mediaMetaOf content = none := by
  unfold mediaOrText
  cases mediaMetaOf content with
  | none => simp [eq_comm]
  | some info =>
    refine iff_of_false (withRelay_ne_delivered (fun _ => Outcome.noConfusion)) ?_
    intro h
    cases h.2.2

/-- When a content goes to the user as a text. The relays have no say in it. -/
theorem contentOutcome_delivered_iff (relays : List Bytes)
    (fromPeer content groupID text group : Bytes) :
    contentOutcome relays fromPeer content groupID = .delivered text group ↔
      text = content ∧ group = groupID ∧ (looksLikeJson 20 content = true →
        (∀ msg, profileMsgOf content = some msg →
          ¬ (msg.type = lit "profile_update" ∧ fromPeer ≠ []) ∧
          ¬ (msg.type = lit "profile_pic" ∧ fromPeer ≠ [] ∧ msg.fileID ≠ [])) ∧
        mediaMetaOf content = none) := by
  unfold contentOutcome
  by_cases hjson : looksLikeJson 20 content = true
  · rw [if_pos hjson]
    simp only [hjson, true_implies]
    cases hp : profileMsgOf content with
    | none => simp [mediaOrText_delivered_iff]
    | some msg =>
      simp only [Option.some.injEq, forall_eq']
      split_ifs with hupdate hpic
      · exact iff_of_false not_false (fun h => h.2.2.1.1 hupdate)
      · exact iff_of_false (withRelay_ne_delivered (fun _ => Outcome.noConfusion))
          (fun h => h.2.2.1.2 hpic)
      · rw [mediaOrText_delivered_iff]
        exact ⟨fun h => ⟨h.1, h.2.1, ⟨hupdate, hpic⟩, h.2.2⟩, fun h => ⟨h.1, h.2.1, h.2.2.2⟩⟩
  · rw [if_neg hjson]
    simp [hjson, eq_comm]

def dispatch (groups : GoMap Bytes Group) (relays : List Bytes) (fromPeer content : Bytes) :
    Outcome :=
  match keyDistOf content with
  | some dist => .groupKey dist
  | none =>
    match openEnvelope P groups content with
    | none => .dropped
    | some (content, groupID) => contentOutcome relays fromPeer content groupID

/-- What is neither a key message nor an envelope. -/
theorem dispatch_content (groups : GoMap Bytes Group) (relays : List Bytes) (fromPeer : Bytes)
    {content : Bytes} (hdist : keyDistOf content = none) (henvelope : envelopeOf content = none) :
    dispatch P groups relays fromPeer content = contentOutcome relays fromPeer content [] := by
  simp only [dispatch, hdist, openEnvelope, henvelope]

/-! ## Effects -/

/-- The decoding error of the key is ignored, so a corrupt text gives a shorter key. -/
def KeyDist.groupKey (dist : KeyDist) : Bytes := (Base64Std.decode dist.groupKeyB64).1

/-- The stored group after a key message: a new one has no admin and no members; of a
known one the key and the epoch are overwritten, whatever they were. -/
def KeyDist.groupAfter (dist : KeyDist) : Option Group → Group
  | none => ⟨dist.groupID, dist.name, [], ∅, dist.groupKey, dist.keyEpoch⟩
  | some group => { group with groupKey := dist.groupKey, keyEpoch := dist.keyEpoch }

def Daemon.storeGroupKey (d : Daemon) (dist : KeyDist) : Daemon :=
  let group := dist.groupAfter (d.groups.lookup dist.groupID)
  { d with groups := d.groups.insert dist.groupID group }

def Daemon.writeFile (d : Daemon) (env : Surroundings) (path : Bytes) (content : FileContent) :
    Daemon :=
  if env.writable path then { d with files := d.files.insert path content } else d

/-- `filepath.Join(filepath.Join(d.dataDir, dir), name)`. -/
def Daemon.fileIn (d : Daemon) (dir name : Bytes) : Bytes :=
  Paths.joinPath [Paths.joinPath [d.dataDir, dir], name]

/-- The files that a daemon keeps for a peer. -/
inductive PeerFile where
  | bio
  | picture
  deriving DecidableEq

def PeerFile.dir : PeerFile → Bytes
  | .bio => lit "peer_bios"
  | .picture => lit "peer_pics"

def PeerFile.ending : PeerFile → Bytes
  | .bio => lit ".json"
  | .picture => lit ".jpg"

def Daemon.peerPath (d : Daemon) (kind : PeerFile) (fromPeer : Bytes) : Bytes :=
  d.fileIn kind.dir (fromPeer ++ kind.ending)

/-- The peers after a profile update: an unknown sender or an empty nickname changes nothing. -/
def renamed (peers : GoMap Bytes PeerInfoEntry) (fromPeer nickname : Bytes) :
    GoMap Bytes PeerInfoEntry :=
  match peers.lookup fromPeer with
  | some entry =>
    if nickname ≠ [] then peers.insert fromPeer { entry with nickname := nickname } else peers
  | none => peers

def Daemon.updateProfile (d : Daemon) (env : Surroundings) (fromPeer nickname bio : Bytes) :
    Daemon :=
  let d := { d with peers := renamed d.peers fromPeer nickname }
  if bio = [] then d
  else d.writeFile env (d.peerPath .bio fromPeer) (.json [(lit "bio", bio)])

/-- The file behind a media message or picture, if it can be fetched and decrypted. -/
def fetchMedia (env : Surroundings) (relay fileID fileKeyB64 : Bytes) : Option Bytes :=
  match env.download relay fileID with
  | none => none
  | some encrypted =>
    (env.decryptFile (Base64Std.decode fileKeyB64).1 encrypted).bind nilIfEmpty

def Daemon.savePicture (d : Daemon) (env : Surroundings)
    (fromPeer relay fileID fileKeyB64 : Bytes) : Daemon :=
  match fetchMedia env relay fileID fileKeyB64 with
  | none => d
  | some pic => d.writeFile env (d.peerPath .picture fromPeer) (.raw pic)

def extensionOf (mimeType : Bytes) : Bytes :=
  if mimeType = lit "image/jpeg" then lit ".jpg"
  else if mimeType = lit "image/png" then lit ".png"
  else if mimeType = lit "video/mp4" then lit ".mp4"
  else if mimeType = lit "audio/m4a" then lit ".m4a"
  else lit ".bin"

/-- The sidecar is written before the body. -/
def Daemon.saveMedia (d : Daemon) (env : Surroundings) (pm : PolledMessage)
    (fromPeer relay : Bytes) (info : MediaMeta) : Daemon :=
  let fileData := if info.fileID = [] then none
    else fetchMedia env relay info.fileID info.fileKeyB64
  let filePath := d.fileIn (lit "media_received")
    (hexEncode pm.msgID.val ++ extensionOf info.mimeType)
  let sidecar := [(lit "filename", info.fileName), (lit "mime", info.mimeType),
    (lit "sender_pubkey", fromPeer), (lit "server_timestamp_ms", decimalInt pm.timestamp.toInt),
    (lit "status", if fileData = none then lit "failed" else lit "complete")]
  (d.writeFile env (filePath ++ lit ".meta") (.json sidecar)).writeFile env filePath
    (.raw (fileData.getD []))

def Daemon.applyOutcome (d : Daemon) (env : Surroundings) (pm : PolledMessage) (fromPeer : Bytes) :
    Outcome → Daemon
  | .dropped => d
  | .groupKey dist => d.storeGroupKey dist
  | .profileUpdate nickname bio => d.updateProfile env fromPeer nickname bio
  | .profilePic relay fileID fileKeyB64 => d.savePicture env fromPeer relay fileID fileKeyB64
  | .media relay info => d.saveMedia env pm fromPeer relay info
  | .delivered _ _ => d

theorem writeFile_frame (d : Daemon) (env : Surroundings) (path : Bytes) (content : FileContent) :
    ∃ files, d.writeFile env path content = { d with files := files } := by
  unfold Daemon.writeFile
  split
  · exact ⟨_, rfl⟩
  · exact ⟨d.files, rfl⟩

theorem writeFile_peers (d : Daemon) (env : Surroundings) (path : Bytes) (content : FileContent) :
    (d.writeFile env path content).peers = d.peers := by
  obtain ⟨files, h⟩ := writeFile_frame d env path content
  rw [h]

private theorem mem_renamed (peers : GoMap Bytes PeerInfoEntry) (fromPeer nickname k : Bytes) :
    k ∈ renamed peers fromPeer nickname ↔ k ∈ peers := by
  unfold renamed
  split
  next entry hentry =>
    split
    · rw [AList.mem_insert]
      refine or_iff_right_of_imp ?_
      rintro rfl
      exact mem_iff_lookup.mpr ⟨entry, hentry⟩
    · exact Iff.rfl
  next => exact Iff.rfl

theorem updateProfile_frame (d : Daemon) (env : Surroundings) (fromPeer nickname bio : Bytes) :
    ∃ files, d.updateProfile env fromPeer nickname bio =
      { d with peers := renamed d.peers fromPeer nickname, files := files } := by
  unfold Daemon.updateProfile
  dsimp only
  split
  · exact ⟨d.files, rfl⟩
  · exact writeFile_frame { d with peers := renamed d.peers fromPeer nickname } env _ _

/-- An outcome reaches peers, groups and files, and of all outcomes only a key message reaches
the groups. -/
theorem applyOutcome_frame (d : Daemon) (env : Surroundings) (pm : PolledMessage)
    (fromPeer : Bytes) (outcome : Outcome) :
    ∃ peers groups files, d.applyOutcome env pm fromPeer outcome =
        { d with peers := peers, groups := groups, files := files } ∧
      ((∀ dist, outcome ≠ .groupKey dist) → groups = d.groups) := by
  cases outcome with
  | dropped => exact ⟨d.peers, d.groups, d.files, rfl, fun _ => rfl⟩
  | groupKey dist => exact ⟨d.peers, _, d.files, rfl, fun h => absurd rfl (h dist)⟩
  | profileUpdate nickname bio =>
    obtain ⟨files, h⟩ := updateProfile_frame d env fromPeer nickname bio
    exact ⟨_, d.groups, files, h, fun _ => rfl⟩
  | profilePic relay fileID fileKeyB64 =>
    rw [Daemon.applyOutcome, Daemon.savePicture]
    split
    · exact ⟨d.peers, d.groups, d.files, rfl, fun _ => rfl⟩
    · obtain ⟨files, h⟩ := writeFile_frame d env _ _
      exact ⟨d.peers, d.groups, files, h, fun _ => rfl⟩
  | media relay info =>
    rw [Daemon.applyOutcome, Daemon.saveMedia]
    obtain ⟨sidecars, hsidecar⟩ := writeFile_frame d env _ _
    rw [hsidecar]
    obtain ⟨files, h⟩ := writeFile_frame { d with files := sidecars } env _ _
    exact ⟨d.peers, d.groups, files, h, fun _ => rfl⟩
  | delivered plaintext groupID => exact ⟨d.peers, d.groups, d.files, rfl, fun _ => rfl⟩

/-- No outcome adds or removes a peer. -/
theorem mem_applyOutcome_peers (d : Daemon) (env : Surroundings) (pm : PolledMessage)
    (fromPeer : Bytes) (outcome : Outcome) (k : Bytes) :
    k ∈ (d.applyOutcome env pm fromPeer outcome).peers ↔ k ∈ d.peers := by
  cases outcome with
  | profileUpdate nickname bio =>
    obtain ⟨files, h⟩ := updateProfile_frame d env fromPeer nickname bio
    rw [Daemon.applyOutcome, h]
    exact mem_renamed d.peers fromPeer nickname k
  | profilePic relay fileID fileKeyB64 =>
    rw [Daemon.applyOutcome, Daemon.savePicture]
    split
    · exact Iff.rfl
    · rw [writeFile_peers]
  | media relay info =>
    rw [Daemon.applyOutcome, Daemon.saveMedia, writeFile_peers, writeFile_peers]
  | dropped => exact Iff.rfl
  | groupKey dist => exact Iff.rfl
  | delivered plaintext groupID => exact Iff.rfl

/-! ## One message, and the loop -/

/-- The handling of one message: the state after it, whose key opened it, the sender it
was attributed to and what was done with it. -/
structure Processed where
  daemon : Daemon
  via : Via
  fromPeer : Bytes
  outcome : Outcome

def Daemon.processMessage (d : Daemon) (identity : KeyPair) (env : Surroundings)
    (pm : PolledMessage) : Processed :=
  if pm.data.length < nonceLength then ⟨d, .nobody, [], .dropped⟩
  else
    let opened := d.openMessage P identity env pm.data
    match opened.2.decrypted with
    | none => ⟨opened.1, opened.2.via, opened.2.fromPeer, .dropped⟩
    | some content =>
      let outcome := dispatch P opened.1.groups env.relays opened.2.fromPeer content
      ⟨opened.1.applyOutcome env pm opened.2.fromPeer outcome, opened.2.via, opened.2.fromPeer,
        outcome⟩

/-- The entry that a message adds to the response. -/
def Processed.received (r : Processed) (pm : PolledMessage) : Option ReceivedMessage :=
  match r.outcome with
  | .delivered plaintext groupID => some {
      messageId := hexEncode pm.msgID.val
      plaintext := plaintext
      fromPeer := r.fromPeer
      groupId := groupID
      serverTimestampMs := if pm.timestamp > 0 then pm.timestamp.toUInt64 else 0
      sequenceNumber := if pm.sequence > 0 then pm.sequence else 0 }
  | _ => none

/-- The loop over the polled messages, each with the surroundings it meets. -/
def Daemon.processAll (d : Daemon) (identity : KeyPair) :
    List (Surroundings × PolledMessage) → Daemon × List ReceivedMessage
  | [] => (d, [])
  | (env, pm) :: rest =>
    let r := d.processMessage P identity env pm
    let tail := r.daemon.processAll identity rest
    (tail.1, (r.received pm).toList ++ tail.2)

/-- `PollMessages` on what the engine returned; a failed poll is an empty response. -/
def Daemon.pollMessages (d : Daemon)
    (polled : Except EngineError (List (Surroundings × PolledMessage))) :
    Daemon × List ReceivedMessage :=
  match d.identity, polled with
  | some identity, .ok messages => d.processAll P identity messages
  | _, _ => (d, [])

/-- The loop as a machine: a message is an action that is always enabled. -/
def handling (identity : KeyPair) (d : Daemon) (m : Surroundings × PolledMessage) : Option Daemon :=
  some (d.processMessage P identity m.1 m.2).daemon

theorem run_handling (identity : KeyPair) (d : Daemon)
    (messages : List (Surroundings × PolledMessage)) :
    Machine.run (handling P identity) d messages = some (d.processAll P identity messages).1 := by
  induction messages generalizing d with
  | nil => rfl
  | cons m rest ih => exact ih _

/-! ## What opening leaves alone -/

/-- The content is a hello, opened with the key of an invitation. -/
def Opening.FromHello (o : Opening) : Prop :=
  ∃ pubkey nick plaintext, o = ⟨.hello, pubkey, some plaintext⟩ ∧
    helloOf plaintext = some (pubkey, nick)

/-- A round of the hello loop does nothing, forgets an entry, or reads a hello and forgets the
entry it was sealed for. -/
theorem helloStep_cases (now : Int) (raw : Bytes) (s : Daemon × Opening) (nonceHex : Bytes) :
    helloStep P now raw s nonceHex = s ∨
    helloStep P now raw s nonceHex =
      ({ s.1 with pendingHellos := s.1.pendingHellos.erase nonceHex }, s.2) ∨
    ∃ entry pubkey nick plaintext, s.1.pendingHellos.lookup nonceHex = some entry ∧
      decryptHello P (deriveHelloKey P entry.nonce) raw = .ok plaintext ∧
      helloOf plaintext = some (pubkey, nick) ∧
      helloStep P now raw s nonceHex =
        ({ s.1 with
            peers := s.1.peers.insert pubkey ⟨nick, pubkey⟩
            pendingHellos := s.1.pendingHellos.erase nonceHex },
          ⟨.hello, pubkey, some plaintext⟩) := by
  unfold helloStep helloRound
  split
  next => exact Or.inl rfl
  next entry hentry =>
    split
    · exact Or.inr (Or.inl rfl)
    · split
      next => exact Or.inl rfl
      next plaintext hdec =>
        split
        next => exact Or.inl rfl
        next pubkey nick hhello =>
          exact Or.inr (Or.inr ⟨entry, pubkey, nick, plaintext, hentry, hdec, hhello, rfl⟩)

/-- The loop reaches the peers and the pending hellos. -/
theorem helloLoop_frame (now : Int) (raw : Bytes) (order : List Bytes) (s : Daemon × Opening) :
    ∃ peers pendingHellos, (order.foldl (helloStep P now raw) s).1 =
      { s.1 with peers := peers, pendingHellos := pendingHellos } := by
  induction order generalizing s with
  | nil => exact ⟨s.1.peers, s.1.pendingHellos, rfl⟩
  | cons nonceHex rest ih =>
    obtain ⟨peers, pendingHellos, hrest⟩ := ih (helloStep P now raw s nonceHex)
    refine ⟨peers, pendingHellos, ?_⟩
    rw [List.foldl_cons, hrest]
    rcases helloStep_cases P now raw s nonceHex with h | h | ⟨_, _, _, _, -, -, -, h⟩ <;> rw [h]

theorem openMessage_frame (d : Daemon) (identity : KeyPair) (env : Surroundings) (raw : Bytes) :
    ∃ peers pendingHellos, (d.openMessage P identity env raw).1 =
      { d with peers := peers, pendingHellos := pendingHellos } := by
  unfold Daemon.openMessage
  dsimp only
  split
  · exact helloLoop_frame P env.now raw _ _
  · exact ⟨d.peers, d.pendingHellos, rfl⟩

/-- What follows the opening of a message leaves the pending hellos alone. -/
theorem processMessage_frame (d : Daemon) (identity : KeyPair) (env : Surroundings)
    {pm : PolledMessage} (hlen : nonceLength ≤ pm.data.length) :
    ∃ peers groups files, (d.processMessage P identity env pm).daemon =
      { (d.openMessage P identity env pm.data).1 with
        peers := peers, groups := groups, files := files } := by
  simp only [Daemon.processMessage, if_neg (Nat.not_lt.mpr hlen)]
  split
  next => exact ⟨_, _, _, rfl⟩
  next content _ =>
    obtain ⟨peers, groups, files, happly, -⟩ := applyOutcome_frame
      (d.openMessage P identity env pm.data).1 env pm
      (d.openMessage P identity env pm.data).2.fromPeer
      (dispatch P (d.openMessage P identity env pm.data).1.groups env.relays
        (d.openMessage P identity env pm.data).2.fromPeer content)
    exact ⟨peers, groups, files, happly⟩

/-- Of a message only what opens it adds peers. -/
theorem mem_processMessage_peers (d : Daemon) (identity : KeyPair) (env : Surroundings)
    {pm : PolledMessage} (hlen : nonceLength ≤ pm.data.length) (k : Bytes) :
    k ∈ (d.processMessage P identity env pm).daemon.peers ↔
      k ∈ (d.openMessage P identity env pm.data).1.peers := by
  simp only [Daemon.processMessage, if_neg (Nat.not_lt.mpr hlen)]
  split
  next => exact Iff.rfl
  next => exact mem_applyOutcome_peers _ env pm _ _ k

/-- No message changes who the daemon is and where its files are. -/
theorem processMessage_fixed (d : Daemon) (identity : KeyPair) (env : Surroundings)
    (pm : PolledMessage) :
    (d.processMessage P identity env pm).daemon.identity = d.identity ∧
      (d.processMessage P identity env pm).daemon.dataDir = d.dataDir := by
  by_cases hlen : nonceLength ≤ pm.data.length
  · obtain ⟨peers, groups, files, hprocess⟩ := processMessage_frame P d identity env hlen
    obtain ⟨known, pendingHellos, hopen⟩ := openMessage_frame P d identity env pm.data
    rw [hprocess, hopen]
    exact ⟨rfl, rfl⟩
  · rw [Daemon.processMessage, if_pos (Nat.lt_of_not_le hlen)]
    exact ⟨rfl, rfl⟩

private theorem helloStep_spec (now : Int) (raw : Bytes) (s : Daemon × Opening) (nonceHex : Bytes) :
    (helloStep P now raw s nonceHex).1.groups = s.1.groups ∧
      ((helloStep P now raw s nonceHex).2 = s.2 ∨
        (helloStep P now raw s nonceHex).2.FromHello) := by
  rcases helloStep_cases P now raw s nonceHex with
    h | h | ⟨entry, pubkey, nick, plaintext, -, -, hhello, h⟩
  · rw [h]
    exact ⟨rfl, Or.inl rfl⟩
  · rw [h]
    exact ⟨rfl, Or.inl rfl⟩
  · rw [h]
    exact ⟨rfl, Or.inr ⟨pubkey, nick, plaintext, rfl, hhello⟩⟩

private theorem helloLoop_spec (now : Int) (raw : Bytes) (order : List Bytes)
    (s : Daemon × Opening) :
    (order.foldl (helloStep P now raw) s).1.groups = s.1.groups ∧
      ((order.foldl (helloStep P now raw) s).2 = s.2 ∨
        (order.foldl (helloStep P now raw) s).2.FromHello) := by
  induction order generalizing s with
  | nil => exact ⟨rfl, Or.inl rfl⟩
  | cons nonceHex rest ih =>
    obtain ⟨hg, ho⟩ := helloStep_spec P now raw s nonceHex
    obtain ⟨ihg, iho⟩ := ih (helloStep P now raw s nonceHex)
    refine ⟨ihg.trans hg, ?_⟩
    rcases iho with he | hv
    · rcases ho with h | h
      · exact Or.inl (he.trans h)
      · refine Or.inr ?_
        show (rest.foldl (helloStep P now raw) (helloStep P now raw s nonceHex)).2.FromHello
        rw [he]
        exact h
    · exact Or.inr hv

/-- Opening touches no group, and only a hello replaces what a peer's secret gave. -/
theorem openMessage_spec (d : Daemon) (identity : KeyPair) (env : Surroundings) (raw : Bytes) :
    (d.openMessage P identity env raw).1.groups = d.groups ∧
      ((d.openMessage P identity env raw).2 = d.byPeer P identity env raw ∨
        (d.openMessage P identity env raw).2.FromHello) := by
  unfold Daemon.openMessage
  by_cases h : (d.byPeer P identity env raw).decrypted = none
  · simp only [if_pos h]
    exact helloLoop_spec P env.now raw _ _
  · simp only [if_neg h]
    exact ⟨trivial, Or.inl trivial⟩

theorem attributeSender_via (pubkeyStr plaintext : Bytes) :
    (attributeSender P pubkeyStr plaintext).via = .peer pubkeyStr := by
  unfold attributeSender
  split
  · rfl
  · split <;> rfl

/-- What a peer's secret opens is dispatched as it is, and the hellos are not tried. -/
theorem processMessage_opened {d : Daemon} {identity : KeyPair} {env : Surroundings}
    {pm : PolledMessage} (hlen : nonceLength ≤ pm.data.length) {via : Via} {fromPeer content : Bytes}
    (h : d.byPeer P identity env pm.data = ⟨via, fromPeer, some content⟩) :
    let outcome := dispatch P d.groups env.relays fromPeer content
    d.processMessage P identity env pm =
      ⟨d.applyOutcome env pm fromPeer outcome, via, fromPeer, outcome⟩ := by
  have hopen : d.openMessage P identity env pm.data = (d, ⟨via, fromPeer, some content⟩) := by
    simp [Daemon.openMessage, h]
  simp [Daemon.processMessage, Nat.not_lt.mpr hlen, hopen]

end

/-! ## A small daemon to evaluate -/

def keyOf (b : UInt8) : Bytes := List.replicate 32 b

def identityOf (b : UInt8) : KeyPair := ⟨keyOf b, keyOf b, [], []⟩

/-- A daemon that knows the peers of the given keys and has no group, hello or file. -/
def knowing (me : UInt8) (peers : List UInt8) : Daemon where
  identity := some (identityOf me)
  peers := peers.foldl (fun m b =>
    m.insert (identityOf b).pubkeyB64 ⟨[], (identityOf b).pubkeyB64⟩) ∅
  groups := ∅
  pendingHellos := ∅
  dataDir := lit "/data"
  files := ∅

def quiet : Surroundings where
  now := 0
  peerHint := []
  helloHint := []
  relays := []
  download _ _ := none
  decryptFile _ _ := none
  writable _ := true

def someNonce : Nonce := ⟨List.replicate 24 9, by decide⟩

def zeroID : Encoding.MsgID := ⟨List.replicate 8 0, by decide⟩

def polledAs (data : Bytes) : PolledMessage := ⟨zeroID, data, 0, 0⟩

end VRGram.Client
