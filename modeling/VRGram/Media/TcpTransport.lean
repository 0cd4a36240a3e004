import VRGram.Lib.Aead
import VRGram.Lib.HostPort
import VRGram.Lib.JsonObject
import VRGram.Media.Transfer
import VRGram.Relay.MediaServer

/-!
# Files over the relay's media server

`EncryptFile` and `DecryptFile`, the address of the media server, and what `SendChunks` and
`DownloadFile` make of an answer. An answer that breaks off before the length that was announced
is an error of the transport.
-/
namespace VRGram.Media

open VRGram.Lib VRGram.Lib.Aead VRGram.Lib.Strings VRGram.Lib.Json VRGram.Lib.HostPort
open VRGram.Relay (Response uploadResponse)

set_option autoImplicit false

/-! ## File keys -/

/-- AES-GCM has a tag of 16 bytes. -/
abbrev FileCipher := Cipher 16

def gcmNonceSize : Nat := 12

/-- The key sizes that `aes.NewCipher` takes. -/
def isAesKey (key : Bytes) : Bool := key.length == 16 || key.length == 24 || key.length == 32

def encryptFile (cipher : FileCipher) (key nonce plaintext : Bytes) : Option Bytes :=
  if isAesKey key then some (cipher.sealFramed key nonce plaintext) else none

def decryptFile (cipher : FileCipher) (key ciphertext : Bytes) : Option Bytes :=
  if isAesKey key then cipher.openFramed gcmNonceSize key ciphertext else none

/-- What `GenerateFileKey` and `EncryptFile` draw. -/
structure FileDraw where
  fileKey : Bytes
  nonce : Bytes
  fileKey_length : fileKey.length = 32
  nonce_length : nonce.length = gcmNonceSize

theorem FileDraw.isAesKey (draw : FileDraw) : isAesKey draw.fileKey = true := by
  simp [Media.isAesKey, draw.fileKey_length]

theorem decryptFile_encryptFile (cipher : FileCipher) (draw : FileDraw) {plaintext encrypted : Bytes}
    (h : encryptFile cipher draw.fileKey draw.nonce plaintext = some encrypted) :
    decryptFile cipher draw.fileKey encrypted = some plaintext := by
  rw [encryptFile, if_pos draw.isAesKey] at h
  obtain rfl := Option.some.inj h
  rw [decryptFile, if_pos draw.isAesKey, cipher.openFramed_sealFramed draw.nonce_length]

/-! ## The address -/

def mediaPort : Bytes := lit "9877"

structure TCPTransport where
  relayAddr : Bytes
  authToken : Bytes

def newTCPTransport (relayAddr authToken : Bytes) : TCPTransport :=
  let host := match splitHostPort relayAddr with
    | .ok (host, _) => host
    | .error _ => relayAddr
  ⟨host ++ colon :: mediaPort, authToken⟩

/-- The media server is looked for on the relay's host, at its own port, exactly if the host has
no colon: that of an IPv6 address loses its brackets, and the address has then too many. -/
theorem mediaAddress_iff (relayAddr authToken host port : Bytes)
    (h : splitHostPort relayAddr = .ok (host, port)) :
    splitHostPort (newTCPTransport relayAddr authToken).relayAddr = .ok (host, mediaPort) ↔
      colon ∉ host := by
  obtain ⟨hopen, hclose⟩ := host_without_brackets h
  have haddr : (newTCPTransport relayAddr authToken).relayAddr = host ++ colon :: mediaPort := by
    simp only [newTCPTransport, h]
  rw [haddr, splitHostPort_append hopen hclose (by decide)]
  by_cases hcolon : colon ∈ host
  · rw [if_pos hcolon]
    exact iff_of_false (fun heq => by cases heq) (not_not_intro hcolon)
  · rw [if_neg hcolon]
    exact iff_of_true rfl hcolon

theorem mediaAddress_iff_ipv6 :
    splitHostPort (lit "[::1]:53") = .ok (lit "::1", lit "53") ∧
      splitHostPort (newTCPTransport (lit "[::1]:53") []).relayAddr ≠ .ok (lit "::1", mediaPort) :=
  ⟨by decide, fun h => (mediaAddress_iff (lit "[::1]:53") [] (lit "::1") (lit "53")
    (by decide)).mp h (by decide)⟩

/-! ## Answers -/

/-- The first value of a stream, as `json.Decoder` reads it. -/
def decodeFirst (s : Bytes) : Option Value :=
  (value (2 * s.length + 2) maxNestingDepth s).map Prod.fst

def uploadNames : List Bytes := [lit "file_id"]

/-- `SendChunks`: the file id in the answer to an upload. -/
def uploadAnswer (resp : Response) : Option Bytes :=
  if resp.status ≠ 200 then none
  else
    match decodeFirst resp.body with
    | some (.object ms) => stringField uploadNames ms (lit "file_id")
    | some .null => some []
    | _ => none

private theorem decodeFirst_of_parse {s : Bytes} {v : Value} (h : parse s = some v) :
    decodeFirst s = some v := by
  unfold parse at h
  split at h
  next v' rest hvalue =>
    split_ifs at h
    obtain rfl := Option.some.inj h
    rw [decodeFirst, hvalue]
    rfl
  next => cases h

/-- The id that the media server answers with is read back. -/
theorem uploadAnswer_uploadResponse {fileID : Bytes} (h : Printable fileID) :
    uploadAnswer (uploadResponse fileID) = some fileID := by
  have hbody : (uploadResponse fileID).body = renderObject [(lit "file_id", .text fileID)] := by
    have hfront : lit "\x7b\"file_id\":\"" =
        123 :: quote :: (lit "file_id" ++ [quote, 58, quote]) := by decide
    have hback : lit "\"\x7d" = [quote, 125] := by decide
    simp [uploadResponse, renderObject, renderMembers, renderMember, Item.render, hfront, hback]
  have hunmarshal := unmarshal_render [(lit "file_id", .text fileID)] (by
    intro m hm
    rw [List.mem_singleton.mp hm]
    exact ⟨show Plain (lit "file_id") by decide +kernel, h.plain⟩)
  have hread : [(lit "file_id", Item.text fileID)].map readMember =
      [(lit "file_id", .string fileID)] := by
    simp only [List.map_cons, List.map_nil, readMember, Item.value, unquote_printable h]
    rfl
  rw [hread, unmarshal] at hunmarshal
  split at hunmarshal
  next ms hparse =>
    obtain rfl := Option.some.inj hunmarshal
    rw [uploadAnswer, if_neg (fun hne => hne rfl), hbody, decodeFirst_of_parse hparse]
    rfl
  next hparse => cases hunmarshal
  next => cases hunmarshal

/-- `DownloadFile`. -/
def downloadAnswer (resp : Response) : Option Bytes :=
  if resp.status ≠ 200 then none
  else if resp.body.length = resp.contentLength then some resp.body else none

end VRGram.Media
