import VRGram.Crypto.Message

/-!
# Signed payloads

`<x25519 key>\n<ed25519 key>\n<signature>\n<text>`, the first three lines in base64. The
signature is over the second line and the text. The first line, which is the name that the
payload gives its sender, is not signed: whoever has one payload of a key pair can put any
other name in front of it.
-/
namespace VRGram.Crypto

open VRGram.Lib.Strings VRGram.Lib

set_option autoImplicit false

def ed25519PrivateKeySize : Nat := 64

variable (P : Primitives)

/-- What Ed25519 promises about a private key and its public key. -/
structure Matching (kp : KeyPair) : Prop where
  publicLength : kp.ed25519PublicKey.length = ed25519PublicKeySize
  privateLength : kp.ed25519PrivateKey.length = ed25519PrivateKeySize
  signatureLength : ∀ message, (P.ed25519Sign kp.ed25519PrivateKey message).length = signatureLen
  verifies : ∀ message, P.ed25519Verify kp.ed25519PublicKey message
    (P.ed25519Sign kp.ed25519PrivateKey message) = true

/-- The bytes that a pair signs for a text. -/
def KeyPair.sigData (kp : KeyPair) (text : Bytes) : Bytes :=
  Base64Std.encodeToString kp.ed25519PublicKey ++ newline :: text

/-- The signed format with its four lines. -/
def signedFormat (sender ed25519PubB64 sigB64 text : Bytes) : Bytes :=
  sender ++ newline :: (ed25519PubB64 ++ newline :: (sigB64 ++ newline :: text))

variable {P}

theorem newline_notMem_encode (b : Bytes) : newline ∉ Base64Std.encodeToString b :=
  Base64Std.notMem_encode (by decide) b

/-! ## Reading the format -/

/-- Four lines are read as the signed format, whatever line breaks the text has. -/
theorem parseSignedPayload_signedFormat {sender ed25519PubB64 sigB64 : Bytes}
    (hsender : newline ∉ sender) (hed : newline ∉ ed25519PubB64) (hsig : newline ∉ sigB64)
    (text : Bytes) :
    parseSignedPayload P (signedFormat sender ed25519PubB64 sigB64 text) =
      .ok (checkSigned P sender ed25519PubB64 sigB64 text) := by
  rw [parseSignedPayload, signedFormat, splitN_append hsender, splitN_append hed,
    splitN_append hsig, splitN]

/-- The flag is set exactly when the two lines decode to a key and a signature that verifies. -/
theorem checkSigned_verified_iff {sender ed25519PubB64 sigB64 text : Bytes} :
    (checkSigned P sender ed25519PubB64 sigB64 text).verified = true ↔
      ∃ ed25519Pub sig, Base64Std.decodeString ed25519PubB64 = some ed25519Pub ∧
        Base64Std.decodeString sigB64 = some sig ∧
        verifySignature P ed25519Pub (ed25519PubB64 ++ newline :: text) sig = true ∧
        checkSigned P sender ed25519PubB64 sigB64 text = ⟨sender, ed25519Pub, text, true⟩ := by
  constructor
  · intro h
    cases hpub : Base64Std.decodeString ed25519PubB64 with
    | none => simp [checkSigned, hpub] at h
    | some ed25519Pub =>
      by_cases hlen : ed25519Pub.length = ed25519PublicKeySize
      · cases hsig : Base64Std.decodeString sigB64 with
        | none => simp [checkSigned, hpub, hlen, hsig] at h
        | some sig =>
          by_cases hsigLen : sig.length = signatureLen
          · simp only [checkSigned, hpub, hlen, hsig, hsigLen, ne_eq, not_true_eq_false,
              if_false] at h ⊢
            exact ⟨ed25519Pub, sig, rfl, rfl, h, by rw [h]⟩
          · simp [checkSigned, hpub, hlen, hsig, hsigLen] at h
      · simp [checkSigned, hpub, hlen] at h
  · intro h
    obtain ⟨ed25519Pub, sig, -, -, -, hchecked⟩ := h
    rw [hchecked]

/-- A payload that verifies has the signed format. -/
theorem parseSignedPayload_verified {payload : Bytes} {signed : SignedPayload}
    (h : parseSignedPayload P payload = .ok signed) (hverified : signed.verified = true) :
    ∃ ed25519PubB64 sigB64 sig, newline ∉ signed.senderX25519Pubkey ∧
      newline ∉ ed25519PubB64 ∧ newline ∉ sigB64 ∧
      payload = signedFormat signed.senderX25519Pubkey ed25519PubB64 sigB64 signed.plaintext ∧
      Base64Std.decodeString ed25519PubB64 = some signed.senderEd25519Pubkey ∧
      Base64Std.decodeString sigB64 = some sig ∧
      verifySignature P signed.senderEd25519Pubkey (ed25519PubB64 ++ newline :: signed.plaintext)
        sig = true := by
  unfold parseSignedPayload at h
  split at h
  next =>
    obtain rfl := Except.ok.inj h
    cases hverified
  next sender ed25519PubB64 sigB64 text hsplit =>
    obtain rfl := Except.ok.inj h
    obtain ⟨rest, rfl, hsender, hrest⟩ := splitN_cons_cons hsplit
    obtain ⟨rest, rfl, hed, hrest⟩ := splitN_cons_cons hrest
    obtain ⟨rest, rfl, hsig, hrest⟩ := splitN_cons_cons hrest
    obtain rfl := (List.cons.inj hrest).1
    obtain ⟨ed25519Pub, sig, hpub, hdecoded, hok, hchecked⟩ := checkSigned_verified_iff.mp hverified
    rw [hchecked]
    exact ⟨ed25519PubB64, sigB64, sig, hsender, hed, hsig, rfl, hpub, hdecoded, hok⟩
  next => cases h

/-! ## The round trip -/

private theorem buildSignedPayload_eq {kp : KeyPair} (h : Matching P kp) (text : Bytes) :
    buildSignedPayload P kp text =
      signedFormat kp.pubkeyB64 (Base64Std.encodeToString kp.ed25519PublicKey)
        (Base64Std.encodeToString (P.ed25519Sign kp.ed25519PrivateKey (kp.sigData text))) text := by
  have hkey : kp.ed25519PrivateKey.length ≠ 0 := by
    rw [h.privateLength]
    decide
  simp only [buildSignedPayload, signMessage, if_neg hkey]
  rfl

/-- A signature of the pair over a text passes the checks, under any name. -/
theorem checkSigned_own {kp : KeyPair} (h : Matching P kp) (sender text : Bytes) :
    checkSigned P sender (Base64Std.encodeToString kp.ed25519PublicKey)
        (Base64Std.encodeToString (P.ed25519Sign kp.ed25519PrivateKey (kp.sigData text))) text =
      ⟨sender, kp.ed25519PublicKey, text, true⟩ := by
  have hverify : verifySignature P kp.ed25519PublicKey (kp.sigData text)
      (P.ed25519Sign kp.ed25519PrivateKey (kp.sigData text)) = true := by
    rw [verifySignature, if_neg]
    · exact h.verifies _
    · simp [h.publicLength, h.signatureLength]
  simp only [checkSigned, Base64Std.decodeString_encode, h.publicLength, h.signatureLength, ne_eq,
    not_true_eq_false, if_false]
  rw [← hverify]
  rfl

/-- Every text that a pair has signed is read back under any name that stands in front of it. -/
theorem parseSignedPayload_own {kp : KeyPair} (h : Matching P kp) {sender : Bytes}
    (hsender : newline ∉ sender) (text : Bytes) :
    parseSignedPayload P (signedFormat sender (Base64Std.encodeToString kp.ed25519PublicKey)
        (Base64Std.encodeToString (P.ed25519Sign kp.ed25519PrivateKey (kp.sigData text))) text) =
      .ok ⟨sender, kp.ed25519PublicKey, text, true⟩ := by
  rw [parseSignedPayload_signedFormat hsender (newline_notMem_encode _) (newline_notMem_encode _),
    checkSigned_own h]

/-- What `BuildSignedPayload` makes of a text is read back with the sender's two keys and the
text as it was, and the signature is accepted. -/
theorem signedPayload_roundTrip (P : Primitives) {kp : KeyPair} (h : Matching P kp)
    (plaintext : Bytes) :
    parseSignedPayload P (buildSignedPayload P kp plaintext) =
      .ok ⟨Base64Std.encodeToString kp.publicKey, kp.ed25519PublicKey, plaintext, true⟩ := by
  rw [buildSignedPayload_eq h]
  exact parseSignedPayload_own h (newline_notMem_encode kp.publicKey) plaintext

/-- Primitives that sign with zeros and accept the signatures of the given messages. -/
def Primitives.accepting (signed : Bytes → Bool) : Primitives :=
  { Primitives.transparent with
    ed25519Sign := fun _ _ => List.replicate 64 0
    ed25519Verify := fun _ message _ => signed message }

/-- Two public keys of 32 bytes and a private key of 64. -/
def signingPair : KeyPair where
  publicKey := List.replicate 32 5
  privateKey := List.replicate 32 5
  ed25519PublicKey := List.replicate 32 6
  ed25519PrivateKey := List.replicate 64 6

theorem signedPayload_roundTrip_twoLines :
    Matching (.accepting fun _ => true) signingPair ∧
      parseSignedPayload (.accepting fun _ => true)
          (buildSignedPayload (.accepting fun _ => true) signingPair (lit "a\n\nb")) =
        .ok ⟨Base64Std.encodeToString (List.replicate 32 5), List.replicate 32 6, lit "a\n\nb",
          true⟩ := by
  have h : Matching (.accepting fun _ => true) signingPair :=
    ⟨rfl, rfl, fun _ => rfl, fun _ => rfl⟩
  exact ⟨h, signedPayload_roundTrip _ h (lit "a\n\nb")⟩

/-! ## What the flag says about the sender -/

section Honest

variable (P) (kp : KeyPair) (texts : List Bytes)

/-- The pair signs only what `BuildSignedPayload` hands to `SignMessage` for one of the texts,
and no other message has a signature that verifies. -/
def Honest : Prop :=
  ∀ message sig, P.ed25519Verify kp.ed25519PublicKey message sig = true →
    ∃ text ∈ texts, message = kp.sigData text

/-- A payload that verifies under the pair's key carries the pair's name and one of its texts. -/
def Binds (payload : Bytes) : Prop :=
  ∀ signed, parseSignedPayload P payload = .ok signed → signed.verified = true →
    signed.senderEd25519Pubkey = kp.ed25519PublicKey →
    signed.senderX25519Pubkey = kp.pubkeyB64 ∧ signed.plaintext ∈ texts

/-- The payload is one of the pair's texts with a signature that verifies, behind the name of
somebody else. -/
def Relabelled (payload : Bytes) : Prop :=
  ∃ sender sigB64 sig text, sender ≠ kp.pubkeyB64 ∧ newline ∉ sender ∧ newline ∉ sigB64 ∧
    payload = signedFormat sender (Base64Std.encodeToString kp.ed25519PublicKey) sigB64 text ∧
    Base64Std.decodeString sigB64 = some sig ∧
    verifySignature P kp.ed25519PublicKey (kp.sigData text) sig = true

variable {P kp texts}

private theorem verifySignature_honest (h : Honest P kp texts) {message sig : Bytes}
    (hok : verifySignature P kp.ed25519PublicKey message sig = true) :
    ∃ text ∈ texts, message = kp.sigData text := by
  unfold verifySignature at hok
  split at hok
  · cases hok
  · exact h message sig hok

/-- The key line and the text of a payload that verifies are those that the pair signed: a line
has no line break, so the signed bytes can be cut in one way only. -/
theorem verified_signed (h : Honest P kp texts) {payload : Bytes} {signed : SignedPayload}
    (hparse : parseSignedPayload P payload = .ok signed) (hverified : signed.verified = true)
    (hkey : signed.senderEd25519Pubkey = kp.ed25519PublicKey) :
    signed.plaintext ∈ texts ∧ ∃ sigB64 sig, newline ∉ signed.senderX25519Pubkey ∧
      newline ∉ sigB64 ∧
      payload = signedFormat signed.senderX25519Pubkey
        (Base64Std.encodeToString kp.ed25519PublicKey) sigB64 signed.plaintext ∧
      Base64Std.decodeString sigB64 = some sig ∧
      verifySignature P kp.ed25519PublicKey (kp.sigData signed.plaintext) sig = true := by
  obtain ⟨ed25519PubB64, sigB64, sig, hsender, hed, hsig, hpayload, -, hdecoded, hok⟩ :=
    parseSignedPayload_verified hparse hverified
  rw [hkey] at hok
  obtain ⟨text, htext, hdata⟩ := verifySignature_honest h hok
  obtain ⟨rfl, rfl⟩ := append_sep_inj hed (newline_notMem_encode _) hdata
  exact ⟨htext, sigB64, sig, hsender, hsig, hpayload, hdecoded, hok⟩

private theorem parseSignedPayload_relabelled {sender sigB64 sig text : Bytes}
    (hsender : newline ∉ sender)
    (hsig : newline ∉ sigB64) (hdecoded : Base64Std.decodeString sigB64 = some sig)
    (hok : verifySignature P kp.ed25519PublicKey (kp.sigData text) sig = true) :
    parseSignedPayload P (signedFormat sender (Base64Std.encodeToString kp.ed25519PublicKey) sigB64
        text) = .ok ⟨sender, kp.ed25519PublicKey, text, true⟩ := by
  rw [parseSignedPayload_signedFormat hsender (newline_notMem_encode _) hsig]
  have hlengths : kp.ed25519PublicKey.length = ed25519PublicKeySize ∧ sig.length = signatureLen := by
    by_contra hne
    rw [verifySignature, if_pos] at hok
    · cases hok
    · exact not_and_or.mp hne
  simp only [checkSigned, Base64Std.decodeString_encode, hlengths.1, hdecoded, hlengths.2, ne_eq,
    not_true_eq_false, if_false]
  rw [← hok]
  rfl

/-- Of a payload that verifies under an honest pair's key, the text is one that the pair signed.
The name is the pair's own exactly when the payload is not relabelled. -/
theorem verified_binds_iff (P : Primitives) {kp : KeyPair} {texts : List Bytes}
    (h : Honest P kp texts) (payload : Bytes) :
    (∀ signed, parseSignedPayload P payload = .ok signed → signed.verified = true →
      signed.senderEd25519Pubkey = kp.ed25519PublicKey → signed.plaintext ∈ texts) ∧
    (Binds P kp texts payload ↔ ¬ Relabelled P kp payload) := by
  refine ⟨fun signed hparse hverified hkey => (verified_signed h hparse hverified hkey).1, ?_⟩
  constructor
  · intro hbinds hrelabelled
    obtain ⟨sender, sigB64, sig, text, hother, hsender, hsig, rfl, hdecoded, hok⟩ := hrelabelled
    have hparse := parseSignedPayload_relabelled hsender hsig hdecoded hok
    exact hother (hbinds _ hparse rfl rfl).1
  · intro hown signed hparse hverified hkey
    obtain ⟨htext, sigB64, sig, hsender, hsig, hpayload, hdecoded, hok⟩ :=
      verified_signed h hparse hverified hkey
    refine ⟨?_, htext⟩
    by_contra hother
    exact hown ⟨_, sigB64, sig, _, hother, hsender, hsig, hpayload, hdecoded, hok⟩

end Honest

/-! ## A name that was not signed -/

/-- The signatures of one pair over one text are the only ones that verify. -/
def signedHi : Primitives := .accepting fun message => decide (message = signingPair.sigData (lit "hi"))

theorem honest_signedHi : Honest signedHi signingPair [lit "hi"] := by
  intro message _ hok
  exact ⟨lit "hi", List.mem_singleton.mpr rfl, of_decide_eq_true hok⟩

/-- The payload that the pair built for its text, with the first line replaced. -/
def renamedHi : Bytes :=
  signedFormat (lit "mallory") (Base64Std.encodeToString signingPair.ed25519PublicKey)
    (Base64Std.encodeToString (List.replicate 64 0)) (lit "hi")

theorem verified_binds_iff_hi :
    Honest signedHi signingPair [lit "hi"] ∧
      ((∀ signed, parseSignedPayload signedHi renamedHi = .ok signed → signed.verified = true →
          signed.senderEd25519Pubkey = signingPair.ed25519PublicKey →
          signed.plaintext ∈ [lit "hi"]) ∧
        (Binds signedHi signingPair [lit "hi"] renamedHi ↔
          ¬ Relabelled signedHi signingPair renamedHi)) :=
  ⟨honest_signedHi, verified_binds_iff signedHi honest_signedHi renamedHi⟩

/-- It verifies under the pair's key and gives another name. -/
theorem renamedHi_verified :
    ∃ tail, buildSignedPayload signedHi signingPair (lit "hi") =
        signingPair.pubkeyB64 ++ newline :: tail ∧
      renamedHi = lit "mallory" ++ newline :: tail ∧
      Honest signedHi signingPair [lit "hi"] ∧
      parseSignedPayload signedHi renamedHi =
        .ok ⟨lit "mallory", signingPair.ed25519PublicKey, lit "hi", true⟩ ∧
      lit "mallory" ≠ signingPair.pubkeyB64 := by
  refine ⟨_, rfl, rfl, honest_signedHi, by decide +kernel, by decide +kernel⟩

end VRGram.Crypto
