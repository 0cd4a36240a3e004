import VRGram.Daemon.Attribution
import VRGram.Daemon.GroupDelivery

/-!
# What becomes of a text

User text shares its channel with group keys, group envelopes, profile updates, pictures
and media. The receiver finds out which of them it has by decoding, so a text arrives
as it was written exactly when none of the decoders takes it for its own.
-/
namespace VRGram.Client

open VRGram.Lib VRGram.Lib.Aead VRGram.Lib.Maps VRGram.Lib.Strings VRGram.Crypto VRGram.Encoding

set_option autoImplicit false

variable (P : Primitives)

/-- None of the decoders takes the text for its own. -/
structure Plain (groups : GoMap Bytes Group) (text : Bytes) : Prop where
  notGroupKey : keyDistOf text = none
  /-- An envelope of a stored group is not of an old epoch, and the group's key does not
  open it to anything else. -/
  notEnvelope : ∀ envelope group, envelopeOf text = some envelope →
    groups.lookup envelope.g = some group → group.keyEpoch ≤ envelope.e ∧
    ∀ data plaintext, Base64Std.decodeString envelope.mB64 = some data →
      decryptGroupMessage P group.groupKey data = .ok plaintext → plaintext = text
  notProfile : ∀ msg, looksLikeJson 20 text = true → profileMsgOf text = some msg →
    msg.type ≠ lit "profile_update" ∧ (msg.type = lit "profile_pic" → msg.fileID = [])
  notMedia : looksLikeJson 20 text = true → mediaMetaOf text = none

theorem openEnvelope_self_iff (groups : GoMap Bytes Group) (text : Bytes) :
    (∃ groupID, openEnvelope P groups text = some (text, groupID)) ↔
      ∀ envelope group, envelopeOf text = some envelope →
        groups.lookup envelope.g = some group → group.keyEpoch ≤ envelope.e ∧
        ∀ data plaintext, Base64Std.decodeString envelope.mB64 = some data →
          decryptGroupMessage P group.groupKey data = .ok plaintext → plaintext = text := by
  constructor
  · rintro ⟨groupID, hopen⟩ envelope group he hg
    simp only [openEnvelope, he, hg] at hopen
    split at hopen
    · cases hopen
    next hold =>
      refine ⟨UInt64.not_lt.mp hold, ?_⟩
      intro data plaintext hm hd
      simp only [hm, hd, Option.some.injEq, Prod.mk.injEq] at hopen
      exact hopen.1
  · intro h
    unfold openEnvelope
    split
    next => exact ⟨[], rfl⟩
    next envelope he =>
      split
      next => exact ⟨[], rfl⟩
      next group hg =>
        obtain ⟨hfresh, hself⟩ := h envelope group he hg
        rw [if_neg (UInt64.not_lt.mpr hfresh)]
        split
        next => exact ⟨[], rfl⟩
        next data hm =>
          split
          next => exact ⟨[], rfl⟩
          next plaintext hd => exact ⟨envelope.g, by rw [hself data plaintext hm hd]⟩

/-- The branches after the envelope deliver what they are given, when it is neither a
profile message nor media. -/
theorem contentOutcome_fromPeer_iff (relays : List Bytes) {fromPeer : Bytes} (hfrom : fromPeer ≠ [])
    (content groupID text group : Bytes) :
    contentOutcome relays fromPeer content groupID = .delivered text group ↔
      text = content ∧ group = groupID ∧
      (∀ msg, looksLikeJson 20 content = true → profileMsgOf content = some msg →
        msg.type ≠ lit "profile_update" ∧ (msg.type = lit "profile_pic" → msg.fileID = [])) ∧
      (looksLikeJson 20 content = true → mediaMetaOf content = none) := by
  rw [contentOutcome_delivered_iff]
  refine and_congr_right' (and_congr_right' ⟨?_, ?_⟩)
  · intro h
    refine ⟨fun msg hjson hmsg => ?_, fun hjson => (h hjson).2⟩
    obtain ⟨hupdate, hpic⟩ := (h hjson).1 msg hmsg
    refine ⟨fun ht => hupdate ⟨ht, hfrom⟩, fun ht => ?_⟩
    by_contra hf
    exact hpic ⟨ht, hfrom, hf⟩
  · intro h hjson
    refine ⟨fun msg hmsg => ?_, h.2 hjson⟩
    obtain ⟨hupdate, hpic⟩ := h.1 msg hjson hmsg
    exact ⟨fun ht => hupdate ht.1, fun ht => ht.2.2 (hpic ht.1)⟩

/-- A text is dispatched to the user as it is exactly when it is plain. -/
theorem dispatch_self_iff (groups : GoMap Bytes Group) (relays : List Bytes) {fromPeer : Bytes}
    (hfrom : fromPeer ≠ []) (text : Bytes) :
    (∃ groupID, dispatch P groups relays fromPeer text = .delivered text groupID) ↔
      Plain P groups text := by
  unfold dispatch
  constructor
  · rintro ⟨groupID, hd⟩
    split at hd
    next => cases hd
    next hkey =>
      split at hd
      next => cases hd
      next content group hopen =>
        obtain ⟨rfl, rfl, hprofile, hmedia⟩ :=
          (contentOutcome_fromPeer_iff relays hfrom content group text groupID).mp hd
        exact ⟨hkey, (openEnvelope_self_iff P groups _).mp ⟨_, hopen⟩, hprofile, hmedia⟩
  · rintro ⟨hkey, henvelope, hprofile, hmedia⟩
    obtain ⟨groupID, hopen⟩ := (openEnvelope_self_iff P groups text).mpr henvelope
    refine ⟨groupID, ?_⟩
    simp only [hkey, hopen]
    exact (contentOutcome_fromPeer_iff relays hfrom text groupID text groupID).mpr
      ⟨rfl, rfl, hprofile, hmedia⟩

/-! ## From one daemon to the other -/

/-- A key pair as `GenerateKeyPair` makes it. -/
structure KeyPair.Valid (kp : KeyPair) : Prop where
  publicKey : kp.publicKey = P.x25519Public kp.privateKey
  publicLength : kp.publicKey.length = keyLength
  privateLength : kp.privateKey.length = keyLength

/-- Two daemons, with their key pairs, that know each other as peers. -/
structure Acquainted (a b : Daemon) (ka kb : KeyPair) : Prop where
  sender : a.identity = some ka
  receiver : b.identity = some kb
  senderKey : KeyPair.Valid P ka
  receiverKey : KeyPair.Valid P kb
  senderKnows : kb.pubkeyB64 ∈ a.peers
  receiverKnows : ka.pubkeyB64 ∈ b.peers

variable {P}

/-- What a successful send without a group hands to the engine. -/
theorem sendMessage_text {a b : Daemon} {ka kb : KeyPair} (hab : Acquainted P a b ka kb)
    {text : Bytes} {senv : SendEnv} {sent : Sent}
    (hsend : a.sendMessage P ⟨kb.pubkeyB64, text, []⟩ senv = .ok sent) :
    ∃ secret, sharedSecret P ka.privateKey kb.publicKey = .ok secret ∧
      sent.outgoing = [⟨senv.nonce.val ++
        P.xchacha.sealWith secret senv.nonce.val (buildSignedPayload P ka text), kb.pubkeyB64⟩] := by
  obtain ⟨pubkey, secret, hpub, hsecret, hout, -⟩ := sendMessage_ok hab.sender rfl hsend
  rw [KeyPair.pubkeyB64, Base64Std.decodeString_encode] at hpub
  obtain rfl := Option.some.inj hpub
  exact ⟨secret, hsecret, hout⟩

/-- Both sides derive the same secret. -/
theorem sharedSecret_symm {ka kb : KeyPair} (ha : KeyPair.Valid P ka) (hb : KeyPair.Valid P kb)
    {secret : Bytes} (h : sharedSecret P ka.privateKey kb.publicKey = .ok secret) :
    sharedSecret P kb.privateKey ka.publicKey = .ok secret := by
  rw [sharedSecret, if_neg (by simp [ha.privateLength]), if_neg (by simp [hb.publicLength]),
    hb.publicKey, P.x25519_agree, ← ha.publicKey] at h
  rw [sharedSecret, if_neg (by simp [hb.privateLength]), if_neg (by simp [ha.publicLength])]
  exact h

/-- What a peer's secret opens is opened by a key that the daemon holds. -/
theorem openWithPeer_holds {d : Daemon} {identity : KeyPair} {raw pubkeyStr plaintext : Bytes}
    (hmem : pubkeyStr ∈ d.peers)
    (h : openWithPeer P identity.privateKey raw pubkeyStr = some plaintext) :
    ∃ key, d.Holds P identity key ∧
      P.xchacha.openWith key (raw.take nonceLength) (raw.drop nonceLength) = some plaintext := by
  unfold openWithPeer at h
  split at h
  next => cases h
  next pubkey hpub =>
    split at h
    next => cases h
    next secret hsecret =>
      refine ⟨secret, Or.inl ⟨pubkeyStr, hmem, pubkey, hpub, hsecret⟩, ?_⟩
      cases hd : decryptMessage P secret (raw.take nonceLength) (raw.drop nonceLength) with
      | error e =>
        rw [hd] at h
        cases h
      | ok p =>
        rw [hd] at h
        obtain rfl := Option.some.inj h
        exact openWith_of_decryptMessage P hd

/-- The sender's own entry opens what the sender sealed. -/
theorem openWithPeer_sealed {ka kb : KeyPair} (ha : KeyPair.Valid P ka) (hb : KeyPair.Valid P kb)
    {secret : Bytes} (hsecret : sharedSecret P ka.privateKey kb.publicKey = .ok secret)
    {known : Bytes} (hdecode : Base64Std.decodeString known = some ka.publicKey) (nonce : Nonce)
    (payload : Bytes) :
    openWithPeer P kb.privateKey (nonce.val ++ P.xchacha.sealWith secret nonce.val payload) known =
      some payload := by
  simp only [openWithPeer, hdecode, sharedSecret_symm ha hb hsecret, List.take_left' nonce.property,
    List.drop_left' nonce.property, decryptMessage_sealed P (sharedSecret_length P hsecret)]
  rfl

/-- The receiver's loop stops at a peer whose secret opens the message, and finds in it
what was sealed, whichever peer that is. -/
theorem openWithPeers_sealed {b : Daemon} {ka kb : KeyPair} (ha : KeyPair.Valid P ka)
    (hb : KeyPair.Valid P kb)
    (hknows : ∃ known ∈ b.peers, Base64Std.decodeString known = some ka.publicKey)
    {secret payload raw : Bytes} {nonce : Nonce}
    (hsecret : sharedSecret P ka.privateKey kb.publicKey = .ok secret)
    (hraw : raw = nonce.val ++ P.xchacha.sealWith secret nonce.val payload) {calls : List SealCall}
    (hauth : b.Unforged P kb calls raw)
    (hnonce : ∀ call ∈ calls, call.nonce = nonce.val → call.plaintext = payload) (hint : List Bytes) :
    ∃ pubkeyStr, openWithPeers P kb.privateKey raw (rangeOrder hint b.peers) =
      some (pubkeyStr, payload) := by
  have htake : raw.take nonceLength = nonce.val := by
    rw [hraw, List.take_left' nonce.property]
  obtain ⟨known, hmem, hdecode⟩ := hknows
  have hopens : openWithPeer P kb.privateKey raw known = some payload := by
    rw [hraw]
    exact openWithPeer_sealed ha hb hsecret hdecode nonce payload
  have hsome : (openWithPeers P kb.privateKey raw (rangeOrder hint b.peers)).isSome := by
    rw [openWithPeers, List.findSome?_isSome_iff]
    exact ⟨known, (mem_rangeOrder _ _ _).mpr hmem, by rw [hopens]; rfl⟩
  obtain ⟨⟨pubkeyStr, plaintext⟩, hfound⟩ := Option.isSome_iff_exists.mp hsome
  obtain ⟨k, hk, hopen⟩ := List.exists_of_findSome?_eq_some hfound
  obtain ⟨p, hp, hpair⟩ := Option.map_eq_some_iff.mp hopen
  obtain ⟨key, hholds, hkey⟩ := openWithPeer_holds ((mem_rangeOrder _ _ _).mp hk) hp
  have hsealed := hnonce _ (hauth key p hholds hkey) htake
  refine ⟨pubkeyStr, ?_⟩
  rw [hfound, ← (Prod.mk.inj hpair).2, ← hsealed]

/-- A text that one daemon sends to another, each of them a known peer of the other, is
delivered as it was written, under the sender's name and without any other effect, exactly
when it is plain for the receiver. Nothing the receiver tries opens the message but what
the sender sealed. -/
theorem text_verbatim_iff {a b : Daemon} {ka kb : KeyPair} (hab : Acquainted P a b ka kb)
    {text : Bytes} {senv : SendEnv} {sent : Sent}
    (hsend : a.sendMessage P ⟨kb.pubkeyB64, text, []⟩ senv = .ok sent) {out : Outgoing}
    (hout : out ∈ sent.outgoing) (env : Surroundings) {pm : PolledMessage}
    (hpm : pm.data = out.payload) {calls : List SealCall} (hauth : b.Unforged P kb calls pm.data)
    (hnonce : ∀ call ∈ calls, call.nonce = senv.nonce.val →
      call.plaintext = buildSignedPayload P ka text) :
    (∃ r, (b.pollMessages P (.ok [(env, pm)])).2 = [r] ∧ r.plaintext = text ∧
      r.fromPeer = ka.pubkeyB64 ∧
      (b.pollMessages P (.ok [(env, pm)])).1.peers = b.peers ∧
      (b.pollMessages P (.ok [(env, pm)])).1.groups = b.groups ∧
      (b.pollMessages P (.ok [(env, pm)])).1.files = b.files) ↔ Plain P b.groups text := by
  obtain ⟨secret, hsecret, houtgoing⟩ := sendMessage_text hab hsend
  rw [houtgoing, List.mem_singleton] at hout
  subst hout
  have hknows : ∃ known ∈ b.peers, Base64Std.decodeString known = some ka.publicKey :=
    ⟨ka.pubkeyB64, hab.receiverKnows, Base64Std.decodeString_encode ka.publicKey⟩
  obtain ⟨pubkeyStr, hopen⟩ := openWithPeers_sealed hab.senderKey hab.receiverKey hknows hsecret hpm
    hauth hnonce env.peerHint
  obtain ⟨signed, hparse, hsender, htext⟩ := parseSignedPayload_build P ka text
  have hname : ka.pubkeyB64 ≠ [] := pubkeyB64_ne_nil hab.senderKey.publicLength
  have hlong : nonceLength ≤ pm.data.length := by
    rw [hpm, List.length_append, senv.nonce.property]
    omega
  have hprocess := processMessage_signed P kb b env pm hlong hopen hparse (by rw [hsender]; exact hname)
  rw [hsender, htext] at hprocess
  simp only [Daemon.pollMessages, hab.receiver, Daemon.processAll, hprocess, List.append_nil,
    ← dispatch_self_iff P b.groups env.relays hname text]
  constructor
  · rintro ⟨r, hr, rfl, -⟩
    cases hd : dispatch P b.groups env.relays ka.pubkeyB64 r.plaintext with
    | delivered plaintext groupID =>
      rw [hd] at hr
      obtain rfl := (List.cons.inj hr).1
      exact ⟨groupID, rfl⟩
    | _ =>
      rw [hd] at hr
      cases hr
  · rintro ⟨groupID, hd⟩
    rw [hd]
    exact ⟨_, rfl, rfl, rfl, rfl, rfl, rfl⟩

/-! ## One text that arrives and one that does not -/

theorem identityOf_valid (n : UInt8) : KeyPair.Valid .transparent (identityOf n) :=
  ⟨rfl, List.length_replicate, List.length_replicate⟩

theorem oneAndTwo_acquainted :
    Acquainted .transparent (knowing 1 [2]) (knowing 2 [1]) (identityOf 1) (identityOf 2) :=
  ⟨rfl, rfl, identityOf_valid 1, identityOf_valid 2, by decide +kernel, by decide +kernel⟩

/-- What daemon 1 hands to its engine for a text to daemon 2. -/
def textOut (text : Bytes) : Outgoing where
  payload := someNonce.val ++ Primitives.transparent.xchacha.sealWith (blend (keyOf 1) (keyOf 2))
    someNonce.val (buildSignedPayload .transparent (identityOf 1) text)
  recipient := (identityOf 2).pubkeyB64

theorem textOut_sent (text : Bytes) :
    ∃ sent, (knowing 1 [2]).sendMessage .transparent ⟨(identityOf 2).pubkeyB64, text, []⟩ greetingEnv =
      .ok sent ∧ textOut text ∈ sent.outgoing :=
  ⟨⟨⟨Base64Std.encodeToString zeroID.val, false, 1⟩, [textOut text], []⟩, rfl,
    List.mem_singleton.mpr rfl⟩

/-- Daemon 2 opens nothing in a payload of daemon 1 but what daemon 1 sealed. -/
theorem framed_unforged (plaintext : Bytes) : (knowing 2 [1]).Unforged .transparent (identityOf 2)
    [⟨blend (keyOf 1) (keyOf 2), someNonce.val, plaintext⟩]
    (someNonce.val ++ Primitives.transparent.xchacha.sealWith (blend (keyOf 1) (keyOf 2))
      someNonce.val plaintext) := by
  intro key p hkey hopen
  have hsame : blend (keyOf 2) (keyOf 1) = blend (keyOf 1) (keyOf 2) := by decide +kernel
  obtain rfl := (holds_of_knowing_one rfl rfl hkey).trans hsame
  rw [List.take_left' someNonce.property, List.drop_left' someNonce.property,
    Cipher.openWith_sealWith] at hopen
  obtain rfl := Option.some.inj hopen
  rw [List.take_left' someNonce.property]
  exact List.mem_cons_self

theorem textOut_unforged (text : Bytes) : (knowing 2 [1]).Unforged .transparent (identityOf 2)
    [⟨blend (keyOf 1) (keyOf 2), someNonce.val, buildSignedPayload .transparent (identityOf 1) text⟩]
    (polledAs (textOut text).payload).data :=
  framed_unforged (buildSignedPayload .transparent (identityOf 1) text)

private theorem plain_hi : Plain .transparent (knowing 2 [1]).groups (lit "hi") where
  notGroupKey := by decide +kernel
  notEnvelope envelope group he _ := by
    rw [show envelopeOf (lit "hi") = none by decide +kernel] at he
    cases he
  notProfile msg hjson _ := by
    rw [show looksLikeJson 20 (lit "hi") = false by decide +kernel] at hjson
    cases hjson
  notMedia hjson := by
    rw [show looksLikeJson 20 (lit "hi") = false by decide +kernel] at hjson
    cases hjson

theorem text_verbatim_iff_hi :
    ∃ r, ((knowing 2 [1]).pollMessages .transparent
        (.ok [(quiet, polledAs (textOut (lit "hi")).payload)])).2 = [r] ∧
      r.plaintext = lit "hi" ∧ r.fromPeer = (identityOf 1).pubkeyB64 := by
  obtain ⟨sent, hsend, hout⟩ := textOut_sent (lit "hi")
  obtain ⟨r, hr, htext, hfrom, -⟩ := (text_verbatim_iff oneAndTwo_acquainted hsend hout quiet rfl
    (textOut_unforged (lit "hi")) (by simp)).mpr plain_hi
  exact ⟨r, hr, htext, hfrom⟩

/-- A text that reads like a profile update. -/
def captured : Bytes := lit "\x7b\"type\":\"profile_update\",\"nickname\":\"M\"\x7d"

/-- It is not shown to the user; it renames the sender. -/
theorem captured_not_delivered :
    ∃ sent, Acquainted .transparent (knowing 1 [2]) (knowing 2 [1]) (identityOf 1) (identityOf 2) ∧
      (knowing 1 [2]).sendMessage .transparent ⟨(identityOf 2).pubkeyB64, captured, []⟩ greetingEnv =
        .ok sent ∧ textOut captured ∈ sent.outgoing ∧
      ((knowing 2 [1]).pollMessages .transparent
        (.ok [(quiet, polledAs (textOut captured).payload)])).2 = [] ∧
      (knowing 2 [1]).peers.lookup (identityOf 1).pubkeyB64 = some ⟨[], (identityOf 1).pubkeyB64⟩ ∧
      ((knowing 2 [1]).pollMessages .transparent
        (.ok [(quiet, polledAs (textOut captured).payload)])).1.peers.lookup (identityOf 1).pubkeyB64 =
          some ⟨lit "M", (identityOf 1).pubkeyB64⟩ := by
  obtain ⟨sent, hsend, hout⟩ := textOut_sent captured
  exact ⟨sent, oneAndTwo_acquainted, hsend, hout, by decide +kernel, by decide +kernel,
    by decide +kernel⟩

end VRGram.Client
