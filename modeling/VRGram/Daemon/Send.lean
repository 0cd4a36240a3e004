import VRGram.Daemon.Groups

/-!
# Sending: `Daemon.SendMessage`

With a group id the plaintext is sealed under the group key, put into an envelope and
the envelope is handed to the engine for each other member. Without one the signed
payload is sealed under the pairwise secret and sent behind its nonce.
-/
namespace VRGram.Client

open VRGram.Lib VRGram.Lib.Maps VRGram.Lib.Strings VRGram.Crypto VRGram.Encoding

set_option autoImplicit false

structure SendRequest where
  peerPubkey : Bytes
  plaintext : Bytes
  groupId : Bytes
  deriving DecidableEq

structure SendResponse where
  messageId : Bytes
  queued : Bool
  chunkCount : Int32
  deriving DecidableEq

inductive DaemonError where
  | identityNotInitialized
  | groupNotFound (groupID : Bytes)
  | encryptGroupMessageFailed
  | invalidPeerKey
  | crypto (e : CryptoError)
  | queue
  deriving DecidableEq

/-- What one call finds: its nonce, the order of the loop over the members, the engine's
results (message id, chunk count, success) and whether the offline queue accepts. -/
structure SendEnv where
  nonce : Nonce
  hint : List Bytes
  engine : Outgoing → MsgID × Int32 × Bool
  queueAccepts : Bool

/-- The response, what was handed to the engine, and what was queued. -/
structure Sent where
  response : SendResponse
  outgoing : List Outgoing
  enqueued : List Outgoing

variable (P : Primitives)

/-- The group envelope, as the format string renders it. -/
def groupPayload (groupID : Bytes) (epoch : UInt64) (ciphertext : Bytes) : Bytes :=
  lit "\x7b\"g\":\"" ++ groupID ++ lit "\",\"e\":" ++ decimal epoch.toNat ++
    lit ",\"m\":\"" ++ Base64Std.encodeToString ciphertext ++ lit "\"\x7d"

/-- The fan-out of one payload to every member but the sender. -/
def fanOut (members : GoMap Bytes GroupMember) (myPubkey payload : Bytes) (hint : List Bytes) :
    List Outgoing :=
  ((rangeOrder hint members).filter (fun pubkey => pubkey ≠ myPubkey)).map
    (fun pubkey => ⟨payload, pubkey⟩)

def Daemon.sendGroupMessage (d : Daemon) (identity : KeyPair) (req : SendRequest) (env : SendEnv) :
    Except DaemonError Sent :=
  match d.groups.lookup req.groupId with
  | none => .error (.groupNotFound req.groupId)
  | some group =>
    match encryptGroupMessage P group.groupKey req.plaintext env.nonce with
    | .error _ => .error .encryptGroupMessageFailed
    | .ok ciphertext =>
      let payload := groupPayload req.groupId group.keyEpoch ciphertext
      .ok ⟨⟨lit "group:" ++ req.groupId, false, 0⟩,
        fanOut group.members identity.pubkeyB64 payload env.hint, []⟩

/-- The nonce and the sealed signed payload. -/
def transportPayload (identity : KeyPair) (secret plaintext : Bytes) (nonce : Nonce) :
    Except CryptoError Bytes := do
  let (ciphertext, nonce) ← encryptMessage P secret (buildSignedPayload P identity plaintext) nonce
  return nonce ++ ciphertext

def Daemon.sendMessage (d : Daemon) (req : SendRequest) (env : SendEnv) :
    Except DaemonError Sent :=
  match d.identity with
  | none => .error .identityNotInitialized
  | some identity =>
    if req.groupId ≠ [] then d.sendGroupMessage P identity req env
    else
      match Base64Std.decodeString req.peerPubkey with
      | none => .error .invalidPeerKey
      | some pubkey =>
        match sharedSecret P identity.privateKey pubkey with
        | .error e => .error (.crypto e)
        | .ok secret =>
          match transportPayload P identity secret req.plaintext env.nonce with
          | .error e => .error (.crypto e)
          | .ok payload =>
            let out : Outgoing := ⟨payload, req.peerPubkey⟩
            let (msgID, chunkCount, ok) := env.engine out
            let messageId := Base64Std.encodeToString msgID.val
            if ok then .ok ⟨⟨messageId, false, chunkCount⟩, [out], []⟩
            else if env.queueAccepts then .ok ⟨⟨messageId, true, 0⟩, [out], [out]⟩
            else .error .queue

variable {P}

/-- What a successful send without a group hands to the engine, and to the queue if the
engine fails. -/
theorem sendMessage_ok {d : Daemon} {identity : KeyPair} (hid : d.identity = some identity)
    {req : SendRequest} (hgroup : req.groupId = []) {env : SendEnv} {sent : Sent}
    (h : d.sendMessage P req env = .ok sent) :
    ∃ pubkey secret, Base64Std.decodeString req.peerPubkey = some pubkey ∧
      sharedSecret P identity.privateKey pubkey = .ok secret ∧
      sent.outgoing = [⟨env.nonce.val ++
        P.xchacha.sealWith secret env.nonce.val (buildSignedPayload P identity req.plaintext),
        req.peerPubkey⟩] ∧
      ∀ out ∈ sent.enqueued, out ∈ sent.outgoing := by
  obtain ⟨nonce, hint, engine, queueAccepts⟩ := env
  simp only [Daemon.sendMessage, hid, hgroup, ne_eq, not_true_eq_false, if_false] at h
  cases hpub : Base64Std.decodeString req.peerPubkey with
  | none =>
    simp only [hpub] at h
    cases h
  | some pubkey =>
    cases hsecret : sharedSecret P identity.privateKey pubkey with
    | error e =>
      simp only [hpub, hsecret] at h
      cases h
    | ok secret =>
      refine ⟨pubkey, secret, rfl, hsecret, ?_⟩
      have hpayload : transportPayload P identity secret req.plaintext nonce = .ok (nonce.val ++
          P.xchacha.sealWith secret nonce.val (buildSignedPayload P identity req.plaintext)) := by
        rw [transportPayload, encryptMessage_ok P (sharedSecret_length P hsecret)]
        rfl
      rcases hhanded : engine ⟨nonce.val ++
        P.xchacha.sealWith secret nonce.val (buildSignedPayload P identity req.plaintext),
        req.peerPubkey⟩ with ⟨msgID, chunkCount, ok⟩
      simp only [hpub, hsecret, hpayload, hhanded] at h
      split at h
      · obtain rfl := Except.ok.inj h
        exact ⟨rfl, fun out hout => nomatch hout⟩
      · split at h
        · obtain rfl := Except.ok.inj h
          exact ⟨rfl, fun out hout => hout⟩
        · cases h

end VRGram.Client
