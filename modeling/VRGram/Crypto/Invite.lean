import VRGram.Crypto.Message
import VRGram.Encoding.Labels

/-!
# Invite codes

`v1:<base32 pubkey>:<base32 nonce>:<base32 nickname>`. The nonce is all that the hello
key is derived from, so whoever has the code can send a hello.
-/
namespace VRGram.Crypto

open VRGram.Lib.Strings VRGram.Lib VRGram.Encoding

set_option autoImplicit false

def colon : UInt8 := 58

abbrev InviteNonce := { b : Bytes // b.length = 8 }

inductive InviteError where
  | pubkeyLength (n : Nat)
  | invalidFormat
  | invalidPubkey
  | invalidNonce
  | invalidNickname
  deriving DecidableEq

structure Invite where
  pubkey : Bytes
  nonce : InviteNonce
  nickname : Bytes
  deriving DecidableEq

def Invite.code (invite : Invite) : Bytes :=
  lit "v1" ++ colon :: (b32 invite.pubkey ++ colon :: (b32 invite.nonce.val ++ colon ::
    b32 invite.nickname))

/-- The nonce is what `rand.Read` returns. -/
def generateInviteCode (pubkey nickname : Bytes) (nonce : InviteNonce) : Except InviteError Bytes :=
  if pubkey.length ≠ keyLength then .error (.pubkeyLength pubkey.length)
  else .ok (Invite.code ⟨pubkey, nonce, nickname⟩)

def parseInviteCode (code : Bytes) : Except InviteError Invite :=
  match splitN colon 4 code with
  | [version, pubkeyField, nonceField, nicknameField] =>
    if version ≠ lit "v1" then .error .invalidFormat
    else
      match unb32 pubkeyField with
      | none => .error .invalidPubkey
      | some pubkey =>
        if pubkey.length ≠ keyLength then .error .invalidPubkey
        else
          match unb32 nonceField with
          | none => .error .invalidNonce
          | some nonce =>
            if h : nonce.length = 8 then
              match unb32 nicknameField with
              | none => .error .invalidNickname
              | some nickname => .ok ⟨pubkey, ⟨nonce, h⟩, nickname⟩
            else .error .invalidNonce
  | _ => .error .invalidFormat

private theorem splitN_code (invite : Invite) : splitN colon 4 invite.code =
    [lit "v1", b32 invite.pubkey, b32 invite.nonce.val, b32 invite.nickname] := by
  have hfield : ∀ b : Bytes, colon ∉ b32 b := Base32Hex.notMem_encode (by decide)
  rw [Invite.code, splitN_append (by decide), splitN_append (hfield _), splitN_append (hfield _),
    splitN_of_notMem (hfield _)]

/-- A code that was generated is read back as it was meant. -/
theorem parseInviteCode_generate {pubkey nickname code : Bytes} {nonce : InviteNonce}
    (h : generateInviteCode pubkey nickname nonce = .ok code) :
    parseInviteCode code = .ok ⟨pubkey, nonce, nickname⟩ := by
  unfold generateInviteCode at h
  split at h
  · cases h
  next hlen =>
    obtain rfl := Except.ok.inj h
    simp only [parseInviteCode, splitN_code, unb32_b32, ne_eq, not_true_eq_false, if_false, hlen,
      nonce.property, dite_true]

/-- A code gives back the key, the nonce and the nickname that it was generated from, and no
other three of them have the same code. -/
theorem inviteCode_roundTrip {pubkey : Bytes} (h : pubkey.length = keyLength) (nonce : InviteNonce)
    (nickname : Bytes) :
    ∃ code, generateInviteCode pubkey nickname nonce = .ok code ∧
      parseInviteCode code = .ok ⟨pubkey, nonce, nickname⟩ ∧
      ∀ pubkey' nonce' nickname', generateInviteCode pubkey' nickname' nonce' = .ok code →
        pubkey' = pubkey ∧ nonce' = nonce ∧ nickname' = nickname := by
  have hcode : generateInviteCode pubkey nickname nonce = .ok (Invite.code ⟨pubkey, nonce, nickname⟩) :=
    if_neg (not_not.mpr h)
  have hparse := parseInviteCode_generate hcode
  refine ⟨_, hcode, hparse, ?_⟩
  intro pubkey' nonce' nickname' hcode'
  have hinvite := (parseInviteCode_generate hcode').symm.trans hparse
  exact Invite.mk.inj (Except.ok.inj hinvite)

theorem inviteCode_roundTrip_colons :
    ∃ code, generateInviteCode (List.replicate 32 3) (lit "a:b\n:") ⟨List.replicate 8 7, rfl⟩ =
        .ok code ∧
      parseInviteCode code =
        .ok ⟨List.replicate 32 3, ⟨List.replicate 8 7, rfl⟩, lit "a:b\n:"⟩ := by
  obtain ⟨code, hcode, hparse, -⟩ :=
    inviteCode_roundTrip (List.length_replicate : (List.replicate 32 (3 : UInt8)).length = 32)
      ⟨List.replicate 8 7, rfl⟩ (lit "a:b\n:")
  exact ⟨code, hcode, hparse⟩

end VRGram.Crypto
