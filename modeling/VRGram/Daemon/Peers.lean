import VRGram.Crypto.Invite
import VRGram.Daemon.Groups

/-!
# Peers and invitations

`AddPeer`, `RemovePeer`, `GenerateInviteCode` and `JoinViaCode`. Saving the peers to disk
is left out. The nickname of the daemon's own profile is an argument, empty when there is
none. A nil identity is dereferenced, so a call that reads it panics, which is `none`.
-/
namespace VRGram.Client

open VRGram.Lib VRGram.Lib.Maps VRGram.Lib.Strings VRGram.Crypto VRGram.Encoding

set_option autoImplicit false

inductive PeerError where
  | notBase64
  | wrongLength (n : Nat)
  | inviteCode (e : InviteError)
  | encryptHello
  deriving DecidableEq

def Daemon.addPeer (d : Daemon) (nickname pubkey : Bytes) : Except PeerError Daemon :=
  match Base64Std.decodeString pubkey with
  | none => .error .notBase64
  | some pubkeyBytes =>
    if pubkeyBytes.length ≠ keyLength then .error (.wrongLength pubkeyBytes.length)
    else .ok { d with peers := d.peers.insert pubkey ⟨nickname, pubkey⟩ }

def Daemon.removePeer (d : Daemon) (pubkey : Bytes) : Daemon :=
  { d with peers := d.peers.erase pubkey }

def getMyNickname (profileNickname : Bytes) : Bytes :=
  if profileNickname ≠ [] then profileNickname else lit "Me"

/-- The nickname that goes into an invite code; the second default is never reached. -/
def inviteNickname (profileNickname nickname : Bytes) : Bytes :=
  if nickname = [] then
    let mine := getMyNickname profileNickname
    if mine = [] then lit "Me" else mine
  else nickname

def Daemon.generateInviteCode (d : Daemon) (profileNickname nickname : Bytes) (nonce : InviteNonce)
    (now : Int) : Option (Daemon × Except InviteError Bytes) :=
  match d.identity with
  | none => none
  | some identity =>
    let nickname := inviteNickname profileNickname nickname
    match Crypto.generateInviteCode identity.publicKey nickname nonce with
    | .error e => some (d, .error e)
    | .ok code =>
      let entry : HelloEntry := ⟨nonce.val, identity.pubkeyB64, nickname, now⟩
      some ({ d with pendingHellos := d.pendingHellos.insert (hexEncode nonce.val) entry }, .ok code)

variable (P : Primitives)

/-- The hello, as the format string renders it. -/
def helloPayload (pubkeyB64 nickname : Bytes) : Bytes :=
  lit "\x7b\"type\":\"hello\",\"pubkey\":\"" ++ pubkeyB64 ++ lit "\",\"nickname\":\"" ++ nickname ++
    lit "\"\x7d"

/-- The response, and what was handed to the engine; it is queued when the engine fails. -/
structure Joined where
  peerNickname : Bytes
  peerPubkey : Bytes
  hello : Outgoing

/-- The inviter is a peer from here on, whether or not the hello goes out. -/
def Daemon.joinViaCode (d : Daemon) (profileNickname code : Bytes) (nonce : Nonce) :
    Option (Daemon × Except PeerError Joined) :=
  match parseInviteCode code with
  | .error e => some (d, .error (.inviteCode e))
  | .ok invite =>
    let remotePubkeyB64 := Base64Std.encodeToString invite.pubkey
    let joined := { d with
      peers := d.peers.insert remotePubkeyB64 ⟨invite.nickname, remotePubkeyB64⟩ }
    match d.identity with
    | none => none
    | some identity =>
      let payload := helloPayload identity.pubkeyB64 (getMyNickname profileNickname)
      match encryptHello P (deriveHelloKey P invite.nonce.val) payload nonce with
      | .error _ => some (joined, .error .encryptHello)
      | .ok encryptedHello =>
        some (joined, .ok ⟨invite.nickname, remotePubkeyB64, ⟨encryptedHello, remotePubkeyB64⟩⟩)

end VRGram.Client
