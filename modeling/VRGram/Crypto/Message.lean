import VRGram.Encoding.Chunk
import VRGram.Lib.Aead
import VRGram.Lib.Base64Std

/-!
# Message cryptography

The functions of the `crypto` package over abstract primitives. A primitive carries
the algebra that the real one has; nothing here says that it is hard to break. What
`rand.Read` returns is an argument: it does not fail.
-/
namespace VRGram.Crypto

open VRGram.Lib.Strings VRGram.Lib.Aead VRGram.Lib VRGram.Encoding

set_option autoImplicit false

def keyLength : Nat := 32

def nonceLength : Nat := 24

/-- Length of a Poly1305 or GCM tag. -/
def tagLength : Nat := 16

def signatureLen : Nat := 64

def ed25519PublicKeySize : Nat := 32

/-- What `rand.Read` puts into a nonce. -/
abbrev Nonce := { b : Bytes // b.length = nonceLength }

structure Primitives where
  xchacha : Cipher tagLength
  x25519 : Bytes → Bytes → Option Bytes
  /-- `X25519(privateKey, Basepoint)`. -/
  x25519Public : Bytes → Bytes
  x25519_length : ∀ k u s, x25519 k u = some s → s.length = keyLength
  x25519_agree : ∀ a b, x25519 a (x25519Public b) = x25519 b (x25519Public a)
  sha256 : Bytes → Digest
  /-- The first 32 bytes of HKDF-SHA256 without salt, of a secret and an info string. -/
  hkdf : Bytes → Bytes → Digest
  ed25519Sign : Bytes → Bytes → Bytes
  ed25519Verify : Bytes → Bytes → Bytes → Bool

structure KeyPair where
  publicKey : Bytes
  privateKey : Bytes
  ed25519PublicKey : Bytes
  ed25519PrivateKey : Bytes
  deriving DecidableEq

/-- 32 bytes made of two byte strings. -/
def blend (a b : Bytes) : Bytes := (List.range keyLength).map (fun i => a.getD i 0 ^^^ b.getD i 0)

/-- Primitives that meet the laws, hide nothing and can be evaluated. -/
def Primitives.transparent : Primitives where
  xchacha := keyTagged tagLength
  x25519 k u := some (blend k u)
  x25519Public k := k
  x25519_length k u s h := by
    obtain rfl := Option.some.inj h
    simp [blend]
  x25519_agree a b := by simp only [blend, UInt8.xor_comm]
  sha256 b := ⟨blend b [1], by simp [blend, keyLength]⟩
  hkdf secret _ := ⟨blend secret [2], by simp [blend, keyLength]⟩
  ed25519Sign _ _ := []
  ed25519Verify _ _ _ := false

/-- The public key as the rest of the program names a peer. -/
def KeyPair.pubkeyB64 (kp : KeyPair) : Bytes := Base64Std.encodeToString kp.publicKey

theorem pubkeyB64_ne_nil {kp : KeyPair} (h : kp.publicKey.length = keyLength) :
    kp.pubkeyB64 ≠ [] := by
  intro hnil
  have hlen := Base64Std.encode_length kp.publicKey
  rw [show Base64Std.encodeToString kp.publicKey = [] from hnil, h] at hlen
  cases hlen

inductive CryptoError where
  | invalidPrivateKeyLength (n : Nat)
  | invalidPublicKeyLength (n : Nat)
  | sharedSecretFailed
  | newCipher
  | invalidNonceLength (n : Nat)
  | decryptionFailed
  | ciphertextTooShort
  | invalidPayloadFormat
  deriving DecidableEq

variable (P : Primitives)

def sharedSecret (privateKey peerPublicKey : Bytes) : Except CryptoError Bytes :=
  if privateKey.length ≠ keyLength then .error (.invalidPrivateKeyLength privateKey.length)
  else if peerPublicKey.length ≠ keyLength then
    .error (.invalidPublicKeyLength peerPublicKey.length)
  else
    match P.x25519 privateKey peerPublicKey with
    | none => .error .sharedSecretFailed
    | some secret => .ok secret

/-- `chacha20poly1305.NewX` accepts keys of 32 bytes. -/
def newX (key : Bytes) : Except CryptoError Unit :=
  if key.length = keyLength then .ok () else .error .newCipher

/-- The ciphertext and the nonce. -/
def encryptMessage (secret plaintext : Bytes) (nonce : Nonce) :
    Except CryptoError (Bytes × Bytes) := do
  newX secret
  return (P.xchacha.sealWith secret nonce.val plaintext, nonce.val)

def decryptMessage (secret nonce ciphertext : Bytes) : Except CryptoError Bytes := do
  newX secret
  if nonce.length ≠ nonceLength then throw (.invalidNonceLength nonce.length)
  match P.xchacha.openWith secret nonce ciphertext with
  | none => throw .decryptionFailed
  | some plaintext => return plaintext

/-! ## Nonce-prefixed ciphertexts: groups and hellos -/

/-- The shared body of `EncryptGroupMessage` and `EncryptHello`. -/
def sealPrefixed (key plaintext : Bytes) (nonce : Nonce) : Except CryptoError Bytes := do
  newX key
  return P.xchacha.sealFramed key nonce.val plaintext

/-- The shared body of `DecryptGroupMessage` and `DecryptHello`. -/
def openPrefixed (key data : Bytes) : Except CryptoError Bytes := do
  newX key
  if data.length < nonceLength then throw .ciphertextTooShort
  match P.xchacha.openFramed nonceLength key data with
  | none => throw .decryptionFailed
  | some plaintext => return plaintext

def encryptGroupMessage (groupKey plaintext : Bytes) (nonce : Nonce) : Except CryptoError Bytes :=
  sealPrefixed P groupKey plaintext nonce

def decryptGroupMessage (groupKey data : Bytes) : Except CryptoError Bytes :=
  openPrefixed P groupKey data

def rotateGroupKey (oldKey : Bytes) : Bytes :=
  (P.sha256 (oldKey ++ lit "group-rotation-v1")).val

def deriveHelloKey (nonce : Bytes) : Bytes := (P.hkdf nonce (lit "vrgram-hello-v1")).val

def encryptHello (helloKey payload : Bytes) (nonce : Nonce) : Except CryptoError Bytes :=
  sealPrefixed P helloKey payload nonce

def decryptHello (helloKey data : Bytes) : Except CryptoError Bytes :=
  openPrefixed P helloKey data

/-! ## Signed payloads -/

def signMessage (kp : KeyPair) (message : Bytes) : Bytes :=
  if kp.ed25519PrivateKey.length = 0 then [] else P.ed25519Sign kp.ed25519PrivateKey message

def verifySignature (publicKey message signature : Bytes) : Bool :=
  if publicKey.length ≠ ed25519PublicKeySize ∨ signature.length ≠ signatureLen then false
  else P.ed25519Verify publicKey message signature

def newline : UInt8 := 10

def buildSignedPayload (kp : KeyPair) (plaintext : Bytes) : Bytes :=
  let senderX25519 := Base64Std.encodeToString kp.publicKey
  let senderEd25519 := Base64Std.encodeToString kp.ed25519PublicKey
  let sig := signMessage P kp (senderEd25519 ++ newline :: plaintext)
  senderX25519 ++ newline :: (senderEd25519 ++ newline ::
    (Base64Std.encodeToString sig ++ newline :: plaintext))

/-- The results of `ParseSignedPayload` other than the error. -/
structure SignedPayload where
  senderX25519Pubkey : Bytes
  senderEd25519Pubkey : Bytes
  plaintext : Bytes
  verified : Bool
  deriving DecidableEq

/-- The signed format's last two lines: keys or signatures that do not decode only
clear the flag. -/
def checkSigned (sender ed25519PubB64 sigB64 plaintext : Bytes) : SignedPayload :=
  match Base64Std.decodeString ed25519PubB64 with
  | none => ⟨sender, [], plaintext, false⟩
  | some ed25519Pub =>
    if ed25519Pub.length ≠ ed25519PublicKeySize then ⟨sender, [], plaintext, false⟩
    else
      match Base64Std.decodeString sigB64 with
      | none => ⟨sender, ed25519Pub, plaintext, false⟩
      | some sig =>
        if sig.length ≠ signatureLen then ⟨sender, ed25519Pub, plaintext, false⟩
        else ⟨sender, ed25519Pub, plaintext,
          verifySignature P ed25519Pub (ed25519PubB64 ++ newline :: plaintext) sig⟩

def parseSignedPayload (payload : Bytes) : Except CryptoError SignedPayload :=
  match splitN newline 4 payload with
  | [sender, plaintext] => .ok ⟨sender, [], plaintext, false⟩
  | [sender, ed25519PubB64, sigB64, plaintext] =>
    .ok (checkSigned P sender ed25519PubB64 sigB64 plaintext)
  | _ => .error .invalidPayloadFormat

/-- Whatever the keys and the signature are worth, the sender line and the text are read. -/
theorem checkSigned_fields (sender ed25519PubB64 sigB64 plaintext : Bytes) :
    (checkSigned P sender ed25519PubB64 sigB64 plaintext).senderX25519Pubkey = sender ∧
      (checkSigned P sender ed25519PubB64 sigB64 plaintext).plaintext = plaintext := by
  unfold checkSigned
  split
  · exact ⟨rfl, rfl⟩
  · split
    · exact ⟨rfl, rfl⟩
    · split
      · exact ⟨rfl, rfl⟩
      · split <;> exact ⟨rfl, rfl⟩

/-- A signed payload is read back: the first three lines are base64, so the text keeps its
own line breaks. -/
theorem parseSignedPayload_build (kp : KeyPair) (plaintext : Bytes) :
    ∃ signed, parseSignedPayload P (buildSignedPayload P kp plaintext) = .ok signed ∧
      signed.senderX25519Pubkey = kp.pubkeyB64 ∧ signed.plaintext = plaintext := by
  have hline : ∀ b : Bytes, newline ∉ Base64Std.encodeToString b :=
    Base64Std.notMem_encode (by decide)
  have hparse : parseSignedPayload P (buildSignedPayload P kp plaintext) =
      .ok (checkSigned P kp.pubkeyB64 (Base64Std.encodeToString kp.ed25519PublicKey)
        (Base64Std.encodeToString (signMessage P kp
          (Base64Std.encodeToString kp.ed25519PublicKey ++ newline :: plaintext))) plaintext) := by
    rw [parseSignedPayload, buildSignedPayload, splitN_append (hline _), splitN_append (hline _),
      splitN_append (hline _), splitN]
    rfl
  exact ⟨_, hparse, checkSigned_fields P _ _ _ plaintext⟩

/-! ## What the callers use -/

theorem sharedSecret_length {privateKey peerPublicKey secret : Bytes}
    (h : sharedSecret P privateKey peerPublicKey = .ok secret) : secret.length = keyLength := by
  unfold sharedSecret at h
  split at h
  · cases h
  · split at h
    · cases h
    · split at h
      next => cases h
      next s hs =>
        obtain rfl := Except.ok.inj h
        exact P.x25519_length _ _ _ hs

theorem encryptMessage_ok {secret : Bytes} (h : secret.length = keyLength) (plaintext : Bytes)
    (nonce : Nonce) : encryptMessage P secret plaintext nonce =
      .ok (P.xchacha.sealWith secret nonce.val plaintext, nonce.val) := by
  simp only [encryptMessage, newX, if_pos h]
  rfl

/-- Opening a message is opening the cipher: every other check is an error as well. -/
theorem openWith_of_decryptMessage {secret nonce ciphertext plaintext : Bytes}
    (h : decryptMessage P secret nonce ciphertext = .ok plaintext) :
    P.xchacha.openWith secret nonce ciphertext = some plaintext := by
  unfold decryptMessage newX at h
  by_cases hk : secret.length = keyLength <;> by_cases hn : nonce.length = nonceLength <;>
    cases hc : P.xchacha.openWith secret nonce ciphertext <;>
    simp [hk, hn, hc, bind, Except.bind, pure, Except.pure, throw, throwThe,
      MonadExceptOf.throw] at h ⊢
  exact h

/-- A message opens under the secret and the nonce it was sealed with. -/
theorem decryptMessage_sealed {secret : Bytes} (h : secret.length = keyLength) (nonce : Nonce)
    (plaintext : Bytes) :
    decryptMessage P secret nonce.val (P.xchacha.sealWith secret nonce.val plaintext) =
      .ok plaintext := by
  simp only [decryptMessage, newX, if_pos h, nonce.property, ne_eq, not_true_eq_false, if_false,
    Cipher.openWith_sealWith]
  rfl

theorem openWith_of_openPrefixed {key data plaintext : Bytes}
    (h : openPrefixed P key data = .ok plaintext) :
    P.xchacha.openWith key (data.take nonceLength) (data.drop nonceLength) = some plaintext := by
  unfold openPrefixed newX at h
  by_cases hk : key.length = keyLength <;> by_cases hn : data.length < nonceLength <;>
    cases hc : P.xchacha.openWith key (data.take nonceLength) (data.drop nonceLength) <;>
    simp [hk, hn, hc, Cipher.openFramed, bind, Except.bind, pure, Except.pure, throw, throwThe,
      MonadExceptOf.throw] at h ⊢
  exact h

theorem sealPrefixed_ok {key plaintext data : Bytes} {nonce : Nonce}
    (h : sealPrefixed P key plaintext nonce = .ok data) :
    data = nonce.val ++ P.xchacha.sealWith key nonce.val plaintext := by
  unfold sealPrefixed newX at h
  by_cases hk : key.length = keyLength <;>
    simp [hk, Cipher.sealFramed, bind, Except.bind, pure, Except.pure] at h
  exact h.symm

end VRGram.Crypto
