import VRGram.Daemon.Receive
import VRGram.Daemon.Send

/-!
# What becomes of group traffic

A receiver takes the first 24 bytes of a payload for the nonce. Key messages leave as a
bare ciphertext and group messages as a JSON text, so neither starts with the nonce of
a pairwise ciphertext, and what is left after 24 bytes has a length that no `Seal` call
under them produced. Such a payload is discarded.
-/
namespace VRGram.Client

open VRGram.Lib VRGram.Lib.Aead VRGram.Lib.Maps VRGram.Lib.Strings VRGram.Crypto VRGram.Encoding

set_option autoImplicit false

section

variable (P : Primitives)

/-- The keys that a daemon tries on a message: the secrets it shares with its peers and
the keys of its pending hellos. -/
def Daemon.Holds (d : Daemon) (identity : KeyPair) (key : Bytes) : Prop :=
  (∃ pubkeyStr ∈ d.peers, ∃ pubkey, Base64Std.decodeString pubkeyStr = some pubkey ∧
    sharedSecret P identity.privateKey pubkey = .ok key) ∨
  ∃ nonceHex entry, d.pendingHellos.lookup nonceHex = some entry ∧
    key = deriveHelloKey P entry.nonce

/-- No key of the daemon opens the payload. -/
def Daemon.Shut (d : Daemon) (identity : KeyPair) (raw : Bytes) : Prop :=
  ∀ key, d.Holds P identity key →
    P.xchacha.openWith key (raw.take nonceLength) (raw.drop nonceLength) = none

/-- Nothing a daemon holds opens the payload unless one of `calls` sealed it. -/
def Daemon.Unforged (d : Daemon) (identity : KeyPair) (calls : List SealCall) (raw : Bytes) :
    Prop :=
  P.xchacha.OpensOnly (d.Holds P identity) calls (raw.take nonceLength) (raw.drop nonceLength)

variable {P} {d : Daemon} {identity : KeyPair} {raw : Bytes}

theorem Daemon.Shut.byPeer (h : d.Shut P identity raw) (env : Surroundings) :
    d.byPeer P identity env raw = ⟨.nobody, [], none⟩ := by
  have hnone : openWithPeers P identity.privateKey raw (rangeOrder env.peerHint d.peers) = none := by
    rw [openWithPeers, List.findSome?_eq_none_iff]
    intro pubkeyStr hmem
    rw [Option.map_eq_none_iff]
    unfold openWithPeer
    split
    next => rfl
    next pubkey hpub =>
      split
      next => rfl
      next secret hsecret =>
        have hshut := h secret
          (Or.inl ⟨pubkeyStr, (mem_rangeOrder _ _ _).mp hmem, pubkey, hpub, hsecret⟩)
        cases hd : decryptMessage P secret (raw.take nonceLength) (raw.drop nonceLength) with
        | error e => rfl
        | ok plaintext =>
          rw [openWith_of_decryptMessage P hd] at hshut
          cases hshut
  rw [Daemon.byPeer, hnone]

/-- The hello loop only forgets expired entries. -/
theorem Daemon.Shut.helloLoop (h : d.Shut P identity raw) (now : Int) (order : List Bytes)
    {s : Daemon × Opening}
    (hsub : ∀ k e, s.1.pendingHellos.lookup k = some e → d.pendingHellos.lookup k = some e) :
    (order.foldl (helloStep P now raw) s).2 = s.2 := by
  induction order generalizing s with
  | nil => rfl
  | cons nonceHex rest ih =>
    have hstep : (helloStep P now raw s nonceHex).2 = s.2 ∧
        ∀ k e, (helloStep P now raw s nonceHex).1.pendingHellos.lookup k = some e →
          d.pendingHellos.lookup k = some e := by
      rcases helloStep_cases P now raw s nonceHex with
        hs | hs | ⟨entry, _, _, plaintext, hentry, hd, -, -⟩
      · rw [hs]
        exact ⟨rfl, hsub⟩
      · rw [hs]
        exact ⟨rfl, fun k e hk => hsub k e (lookup_erase_eq_some.mp hk).2⟩
      · have hshut := h _ (Or.inr ⟨nonceHex, entry, hsub _ _ hentry, rfl⟩)
        rw [openWith_of_openPrefixed P hd] at hshut
        cases hshut
    rw [List.foldl_cons, ih hstep.2, hstep.1]

/-- A payload that no key opens is discarded and leaves the groups alone. -/
theorem Daemon.Shut.processMessage {pm : PolledMessage} (h : d.Shut P identity pm.data)
    (env : Surroundings) :
    (d.processMessage P identity env pm).outcome = .dropped ∧
      (d.processMessage P identity env pm).daemon.groups = d.groups := by
  have hopen : (d.openMessage P identity env pm.data).2 = ⟨.nobody, [], none⟩ := by
    unfold Daemon.openMessage
    simp only [h.byPeer env, if_true]
    exact h.helloLoop env.now _ (fun k e hk => hk)
  have hgroups := (openMessage_spec P d identity env pm.data).1
  unfold Daemon.processMessage
  split
  · exact ⟨rfl, rfl⟩
  · simp only [hopen]
    exact ⟨trivial, hgroups⟩

/-- The poll that returns only such a payload. -/
theorem Daemon.Shut.pollMessages {pm : PolledMessage} (hid : d.identity = some identity)
    (h : d.Shut P identity pm.data) (env : Surroundings) :
    (d.pollMessages P (.ok [(env, pm)])).2 = [] ∧
      (d.pollMessages P (.ok [(env, pm)])).1.groups = d.groups := by
  obtain ⟨hout, hgroups⟩ := h.processMessage env
  simp only [Daemon.pollMessages, hid, Daemon.processAll, Processed.received, hout]
  exact ⟨rfl, hgroups⟩

/-- The length argument: no call under the first 24 bytes made what follows them. -/
theorem Daemon.Unforged.shut {calls : List SealCall} (h : d.Unforged P identity calls raw)
    (hlen : ∀ call ∈ calls, call.nonce = raw.take nonceLength →
      call.plaintext.length + tagLength ≠ raw.length - nonceLength) : d.Shut P identity raw := by
  intro key hkey
  apply P.xchacha.openWith_eq_none h _ hkey
  intro call hc hn
  rw [List.length_drop]
  exact hlen call hc hn

/-! ## Key messages -/

variable (P)

/-- `out` is a payload that a call which left the daemon in `after` handed to the engine
to distribute the key of group `groupID`. -/
inductive Distributes (after : Daemon) (groupID : Bytes) (out : Outgoing) : Prop
  | created (before : Daemon) (name : Bytes) (memberPubkeys : List Bytes) (groupKey : Bytes)
      (unixNano : Int) (draw : Draw) (outs : List Outgoing)
      (hcall : before.createGroup P name memberPubkeys groupKey unixNano draw = some (after, outs))
      (hid : groupID = newGroupID unixNano) (hmem : out ∈ outs)
  | rotated (before : Daemon) (memberPubkey : Bytes) (draw : Draw) (outs : List Outgoing)
      (hcall : before.removeGroupMember P groupID memberPubkey draw = some (.ok outs, after))
      (hmem : out ∈ outs)

variable {P}

/-- Either way the payload is a ciphertext and nothing else. -/
theorem Distributes.sealed {after : Daemon} {groupID : Bytes} {out : Outgoing}
    (h : Distributes P after groupID out) :
    ∃ secret nonce text, out.payload = P.xchacha.sealWith secret nonce text := by
  cases h with
  | created before name memberPubkeys groupKey unixNano draw outs hcall hid hmem =>
    obtain ⟨sender, -, -, rfl⟩ := createGroup_some P hcall
    obtain ⟨-, secret, -, -, hp⟩ := mem_distribute P hmem
    exact ⟨secret, _, _, hp⟩
  | rotated before memberPubkey draw outs hcall hmem =>
    obtain ⟨group, -, -, -, sender, -, -, rfl⟩ := removeGroupMember_ok P hcall
    unfold Daemon.distributeGroupKey at hmem
    split at hmem
    next => cases hmem
    next =>
      obtain ⟨-, secret, -, -, hp⟩ := mem_distribute P hmem
      exact ⟨secret, _, _, hp⟩

/-- Both daemons store the group, with one key and one epoch. -/
def SharesGroup (a b : Daemon) (groupID : Bytes) : Prop :=
  ∃ ga gb, a.groups.lookup groupID = some ga ∧ b.groups.lookup groupID = some gb ∧
    gb.groupKey = ga.groupKey ∧ gb.keyEpoch = ga.keyEpoch

/-- A member that is handed the key message holds the group afterwards exactly when it
held it before. The calls are all `Seal` calls ever made; one that drew the first bytes
of this payload as its nonce can only be the one that made the payload. -/
theorem group_key_received_iff (P : Primitives) (a b : Daemon) (groupID : Bytes) (out : Outgoing)
    (hdist : Distributes P a groupID out) (identity : KeyPair) (hid : b.identity = some identity)
    (env : Surroundings) (pm : PolledMessage) (hpm : pm.data = out.payload)
    (calls : List SealCall) (hauth : b.Unforged P identity calls out.payload)
    (hfresh : ∀ call ∈ calls, call.nonce = out.payload.take nonceLength →
      P.xchacha.sealWith call.key call.nonce call.plaintext = out.payload) :
    SharesGroup a (b.pollMessages P (.ok [(env, pm)])).1 groupID ↔ SharesGroup a b groupID := by
  obtain ⟨secret, nonce, text, hpay⟩ := hdist.sealed
  have hpos : tagLength ≤ out.payload.length := by
    rw [hpay, P.xchacha.sealWith_length]
    exact Nat.le_add_left _ _
  have hshut : b.Shut P identity pm.data := by
    rw [hpm]
    apply hauth.shut
    intro call hc hn
    have hl := congrArg List.length (hfresh call hc hn)
    rw [P.xchacha.sealWith_length] at hl
    simp only [tagLength, nonceLength] at hpos hl ⊢
    omega
  rw [SharesGroup, (hshut.pollMessages hid env).2, SharesGroup]

end

/-! ### A key message that is lost -/

/-- Daemon 1 creates a group with daemon 2. -/
def founding : Option (Daemon × List Outgoing) :=
  (knowing 1 [2]).createGroup .transparent (lit "team") [(identityOf 2).pubkeyB64] (keyOf 7) 5
    ⟨[], fun _ => someNonce⟩

def founded : Daemon := (founding.map Prod.fst).getD (knowing 1 [2])

def keyPayload : Outgoing := ((founding.map Prod.snd).getD []).headD ⟨[], []⟩

/-- A daemon 2 that knows daemon 1 tries one key only. -/
theorem holds_of_knowing_one {d : Daemon} (hp : d.peers = (knowing 2 [1]).peers)
    (hh : d.pendingHellos = ∅) {key : Bytes} (h : d.Holds .transparent (identityOf 2) key) :
    key = blend (keyOf 2) (keyOf 1) := by
  rcases h with ⟨pubkeyStr, hmem, pubkey, hpub, hsecret⟩ | ⟨nonceHex, entry, hentry, -⟩
  · have hkeys : (knowing 2 [1]).peers.keys = [(identityOf 1).pubkeyB64] := by rfl
    rw [hp, AList.mem_keys, hkeys, List.mem_singleton] at hmem
    subst hmem
    have hdec : pubkey = keyOf 1 :=
      Option.some.inj (hpub.symm.trans (Base64Std.decodeString_encode (keyOf 1)))
    subst hdec
    have hs : sharedSecret Primitives.transparent (identityOf 2).privateKey (keyOf 1) =
        .ok (blend (keyOf 2) (keyOf 1)) := by rfl
    exact Except.ok.inj (hsecret.symm.trans hs)
  · rw [hh] at hentry
    cases hentry

/-- So a payload that this key does not open is unforged for want of an opening. -/
theorem unforged_of_knowing_one {d : Daemon} (hp : d.peers = (knowing 2 [1]).peers)
    (hh : d.pendingHellos = ∅) {raw : Bytes} (calls : List SealCall)
    (h : Primitives.transparent.xchacha.openWith (blend (keyOf 2) (keyOf 1))
      (raw.take nonceLength) (raw.drop nonceLength) = none) :
    d.Unforged .transparent (identityOf 2) calls raw := by
  intro key p hkey hopen
  rw [holds_of_knowing_one hp hh hkey, h] at hopen
  cases hopen

theorem keyPayload_distributes : Distributes .transparent founded (newGroupID 5) keyPayload :=
  .created (knowing 1 [2]) (lit "team") [(identityOf 2).pubkeyB64] (keyOf 7) 5
    ⟨[], fun _ => someNonce⟩ [keyPayload] rfl rfl (List.mem_singleton.mpr rfl)

theorem group_key_received_iff_keyPayload :
    SharesGroup founded ((knowing 2 [1]).pollMessages .transparent
      (.ok [(quiet, polledAs keyPayload.payload)])).1 (newGroupID 5) ↔
    SharesGroup founded (knowing 2 [1]) (newGroupID 5) :=
  group_key_received_iff .transparent founded (knowing 2 [1]) (newGroupID 5) keyPayload
    keyPayload_distributes (identityOf 2) rfl quiet (polledAs keyPayload.payload) rfl []
    (unforged_of_knowing_one rfl rfl [] (by decide +kernel)) (by simp)

/-- The payload reaches the member, who knows the sender, and no group appears. -/
theorem keyPayload_lost :
    ∃ out, Distributes .transparent founded (newGroupID 5) out ∧
      out.recipient = (identityOf 2).pubkeyB64 ∧ (identityOf 1).pubkeyB64 ∈ (knowing 2 [1]).peers ∧
      ¬ SharesGroup founded ((knowing 2 [1]).pollMessages .transparent
        (.ok [(quiet, polledAs out.payload)])).1 (newGroupID 5) := by
  refine ⟨keyPayload, keyPayload_distributes, by decide +kernel, by decide +kernel, ?_⟩
  rintro ⟨ga, gb, -, hb, -⟩
  have hnone : (((knowing 2 [1]).pollMessages .transparent
      (.ok [(quiet, polledAs keyPayload.payload)])).1.groups.lookup (newGroupID 5)).isNone = true := by
    decide +kernel
  rw [hb] at hnone
  cases hnone

/-! ## Group messages -/

section

variable {P : Primitives}

/-- The payload of a group message is the envelope around the group ciphertext. -/
theorem sendMessage_group {a : Daemon} {req : SendRequest} {senv : SendEnv} {sent : Sent}
    {group : Group} {out : Outgoing} (hgid : req.groupId ≠ [])
    (hgroup : a.groups.lookup req.groupId = some group)
    (hsent : a.sendMessage P req senv = .ok sent) (hout : out ∈ sent.outgoing) :
    out.payload = groupPayload req.groupId group.keyEpoch
      (senv.nonce.val ++ P.xchacha.sealWith group.groupKey senv.nonce.val req.plaintext) := by
  unfold Daemon.sendMessage at hsent
  split at hsent
  next => cases hsent
  next sender _ =>
    rw [if_pos hgid] at hsent
    unfold Daemon.sendGroupMessage at hsent
    rw [hgroup] at hsent
    cases henc : encryptGroupMessage P group.groupKey req.plaintext senv.nonce with
    | error e =>
      simp only [henc] at hsent
      cases hsent
    | ok ciphertext =>
      simp only [henc] at hsent
      obtain rfl := Except.ok.inj hsent
      obtain ⟨pubkey, -, rfl⟩ := List.mem_map.mp hout
      rw [← sealPrefixed_ok P henc]

/-- Base64 and the braces make the envelope longer than what it carries. -/
theorem length_lt_groupPayload (groupID : Bytes) (epoch : UInt64) (ciphertext : Bytes) :
    ciphertext.length < (groupPayload groupID epoch ciphertext).length := by
  have hclose : (lit "\"\x7d").length = 2 := by decide +kernel
  simp only [groupPayload, List.length_append, Base64Std.encode_length, hclose]
  omega

end

/-- No group message is ever delivered, whatever the two daemons store: the receiver
drops the envelope before it looks at it. -/
theorem group_message_never_delivered (P : Primitives) (a b : Daemon) (req : SendRequest)
    (hgid : req.groupId ≠ []) (group : Group) (hgroup : a.groups.lookup req.groupId = some group)
    (senv : SendEnv) (sent : Sent) (hsent : a.sendMessage P req senv = .ok sent)
    (out : Outgoing) (hout : out ∈ sent.outgoing) (identity : KeyPair)
    (hid : b.identity = some identity) (env : Surroundings) (pm : PolledMessage)
    (hpm : pm.data = out.payload) (calls : List SealCall)
    (hauth : b.Unforged P identity calls out.payload)
    (hfresh : ∀ call ∈ calls, call.nonce = out.payload.take nonceLength →
      call = ⟨group.groupKey, senv.nonce.val, req.plaintext⟩) :
    ¬ ∃ msg ∈ (b.pollMessages P (.ok [(env, pm)])).2,
      msg.groupId = req.groupId ∧ msg.plaintext = req.plaintext := by
  have hpay := sendMessage_group hgid hgroup hsent hout
  have hlong := length_lt_groupPayload req.groupId group.keyEpoch
    (senv.nonce.val ++ P.xchacha.sealWith group.groupKey senv.nonce.val req.plaintext)
  rw [← hpay, List.length_append, P.xchacha.sealWith_length, senv.nonce.property] at hlong
  have hshut : b.Shut P identity pm.data := by
    rw [hpm]
    apply hauth.shut
    intro call hc hn
    rw [hfresh call hc hn]
    show req.plaintext.length + tagLength ≠ out.payload.length - nonceLength
    omega
  rw [(hshut.pollMessages hid env).1]
  rintro ⟨msg, hmem, -⟩
  cases hmem

/-! ### Two members with the same key -/

def team : Group where
  groupID := lit "g5"
  name := lit "team"
  adminPubkey := (identityOf 1).pubkeyB64
  members := newMembers (identityOf 1).pubkeyB64 (lit "team") [(identityOf 2).pubkeyB64]
  groupKey := keyOf 7
  keyEpoch := 1

def inTeam (d : Daemon) : Daemon := { d with groups := d.groups.insert (lit "g5") team }

def greeting : SendRequest := ⟨[], lit "hello", lit "g5"⟩

def greetingEnv : SendEnv where
  nonce := someNonce
  hint := []
  engine _ := (zeroID, 1, true)
  queueAccepts := true

def greetingOut : Outgoing where
  payload := groupPayload (lit "g5") 1
    (someNonce.val ++ Primitives.transparent.xchacha.sealWith (keyOf 7) someNonce.val (lit "hello"))
  recipient := (identityOf 2).pubkeyB64

theorem greeting_sent : (inTeam (knowing 1 [2])).sendMessage .transparent greeting greetingEnv =
    .ok ⟨⟨lit "group:" ++ lit "g5", false, 0⟩, [greetingOut], []⟩ := rfl

theorem group_message_never_delivered_greeting :
    ¬ ∃ msg ∈ ((inTeam (knowing 2 [1])).pollMessages .transparent
        (.ok [(quiet, polledAs greetingOut.payload)])).2,
      msg.groupId = greeting.groupId ∧ msg.plaintext = greeting.plaintext :=
  group_message_never_delivered .transparent (inTeam (knowing 1 [2])) (inTeam (knowing 2 [1]))
    greeting (by decide +kernel) team rfl greetingEnv _ greeting_sent greetingOut
    (List.mem_singleton.mpr rfl) (identityOf 2) rfl quiet (polledAs greetingOut.payload) rfl []
    (unforged_of_knowing_one rfl rfl [] (by decide +kernel)) (by simp)

/-- Both store the same key and epoch and know each other; the response is empty. -/
theorem greeting_lost :
    ∃ sent out, (inTeam (knowing 1 [2])).sendMessage .transparent greeting greetingEnv = .ok sent ∧
      out ∈ sent.outgoing ∧ out.recipient = (identityOf 2).pubkeyB64 ∧
      SharesGroup (inTeam (knowing 1 [2])) (inTeam (knowing 2 [1])) greeting.groupId ∧
      ((inTeam (knowing 2 [1])).pollMessages .transparent
        (.ok [(quiet, polledAs out.payload)])).2 = [] := by
  refine ⟨_, greetingOut, greeting_sent, List.mem_singleton.mpr rfl, rfl, ?_, ?_⟩
  · exact ⟨team, team, rfl, rfl, rfl, rfl⟩
  · decide +kernel

end VRGram.Client
