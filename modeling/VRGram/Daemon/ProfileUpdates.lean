import VRGram.Daemon.PeerFiles
import VRGram.Daemon.Text
import VRGram.Lib.JsonObject

/-!
# Profile updates

`broadcastProfileUpdate` puts the nickname and the bio into a JSON text of which it escapes the
quotes alone, and sends it without the lines of a signed payload. The receiver first counts its
lines and then decodes it. A text that fails in either step goes to the user as a message.
-/
namespace VRGram.Client

open VRGram.Lib VRGram.Lib.Maps VRGram.Lib.Strings VRGram.Lib.Json VRGram.Crypto VRGram.Encoding

set_option autoImplicit false

/-! ## Sending -/

section Sending

variable (P : Primitives)

def profileUpdatePayload (nickname bio : Bytes) : Bytes :=
  lit "\x7b\"type\":\"profile_update\",\"nickname\":\"" ++ escapeQuotes nickname ++
    lit "\",\"bio\":\"" ++ escapeQuotes bio ++ lit "\"\x7d"

/-- What is handed to the engine, whose result is ignored. -/
def sendProfileToPeer (identity : KeyPair) (peerPubkeyB64 payload : Bytes) (nonce : Nonce) :
    Option Outgoing :=
  match Base64Std.decodeString peerPubkeyB64 with
  | none => none
  | some pubkey =>
    match sharedSecret P identity.privateKey pubkey with
    | .error _ => none
    | .ok secret =>
      match encryptMessage P secret payload nonce with
      | .error _ => none
      | .ok (ciphertext, nonce) => some ⟨nonce ++ ciphertext, peerPubkeyB64⟩

/-- One message for each peer, with the nonce that each of them gets. -/
def Daemon.broadcastProfileUpdate (d : Daemon) (identity : KeyPair) (nickname bio : Bytes)
    (hint : List Bytes) (nonces : Bytes → Nonce) : List Outgoing :=
  (rangeOrder hint d.peers).filterMap (fun peerPubkey =>
    sendProfileToPeer P identity peerPubkey (profileUpdatePayload nickname bio) (nonces peerPubkey))

variable {P}

private theorem broadcastProfileUpdate_sealed {d : Daemon} {identity : KeyPair}
    {nickname bio : Bytes} {hint : List Bytes} {nonces : Bytes → Nonce} {out : Outgoing}
    (h : out ∈ d.broadcastProfileUpdate P identity nickname bio hint nonces) :
    ∃ pubkey secret, Base64Std.decodeString out.recipient = some pubkey ∧
      sharedSecret P identity.privateKey pubkey = .ok secret ∧
      out.payload = (nonces out.recipient).val ++ P.xchacha.sealWith secret
        (nonces out.recipient).val (profileUpdatePayload nickname bio) := by
  obtain ⟨peerPubkey, -, hsend⟩ := List.mem_filterMap.mp h
  unfold sendProfileToPeer at hsend
  split at hsend
  next => cases hsend
  next pubkey hpub =>
    split at hsend
    next => cases hsend
    next secret hsecret =>
      rw [encryptMessage_ok P (sharedSecret_length P hsecret)] at hsend
      obtain rfl := Option.some.inj hsend
      exact ⟨pubkey, secret, hpub, hsecret, rfl⟩

end Sending

/-! ## The text that is sent -/

/-- The last member of the text. -/
def bioMember (bio : Bytes) : Bytes :=
  quote :: (lit "bio" ++ quote :: 58 :: quote :: (escapeQuotes bio ++ [quote, 125]))

def nicknameAndBio (nickname bio : Bytes) : Bytes :=
  quote :: (lit "nickname" ++ quote :: 58 :: quote ::
    (escapeQuotes nickname ++ quote :: 44 :: bioMember bio))

theorem profileUpdatePayload_eq (nickname bio : Bytes) :
    profileUpdatePayload nickname bio = 123 :: quote :: (lit "type" ++ quote :: 58 :: quote ::
      (lit "profile_update" ++ quote :: 44 :: nicknameAndBio nickname bio)) := by
  have htype : lit "\x7b\"type\":\"profile_update\",\"nickname\":\"" =
      123 :: quote :: (lit "type" ++ quote :: 58 :: quote :: (lit "profile_update" ++
        quote :: 44 :: quote :: (lit "nickname" ++ [quote, 58, quote]))) := by
    decide
  have hbio : lit "\",\"bio\":\"" = quote :: 44 :: quote :: (lit "bio" ++ [quote, 58, quote]) := by
    decide
  have hclose : lit "\"\x7d" = [quote, 125] := by decide
  simp [profileUpdatePayload, nicknameAndBio, bioMember, htype, hbio, hclose]

theorem noKey_close : NoKey [125] := by
  intro key hkey
  cases hkey

/-- After the nickname's closing quote comes no key but a comma in quotes. -/
theorem noKey_bioMember (bio : Bytes) : NoKey (44 :: bioMember bio) := by
  intro key hkey
  have hbody : Body [44] := .char (by decide) (by decide) (by decide) .nil
  have hscan : stringBody (44 :: bioMember bio) = some ([44], lit "bio" ++ quote :: 58 :: quote ::
      (escapeQuotes bio ++ [quote, 125])) := by
    show stringBody ([44] ++ quote :: _) = _
    rw [stringBody, scanString_body hbody]
    rfl
  rw [hscan] at hkey
  obtain rfl := Option.some.inj hkey
  rfl

/-- A nickname that takes the rendered quote for its own ends at the next one. -/
theorem late_bioMember (bio : Bytes) {more rest : Bytes} (hmore : Guarded more)
    (h : 44 :: bioMember bio = more ++ quote :: rest) :
    token 44 rest = none ∧ token 125 rest = none := by
  cases more with
  | nil => cases (List.cons.inj h).1
  | cons c more =>
    obtain ⟨rfl, htail⟩ := List.cons.inj h
    cases more with
    | nil =>
      obtain ⟨-, rfl⟩ := List.cons.inj htail
      exact ⟨rfl, rfl⟩
    | cons c' more =>
      obtain ⟨rfl, -⟩ := List.cons.inj htail
      obtain ⟨front, hfront⟩ := hmore [44] more rfl
      cases front with
      | nil => cases (List.cons.inj hfront).1
      | cons x front =>
        have hlen := congrArg List.length hfront
        simp at hlen

theorem plain_profileNames : ∀ name ∈ profileNames, Json.Plain name := by decide +kernel

def profileRead (nickname bio : Bytes) : List (Bytes × Value) :=
  [(lit "type", .string (lit "profile_update")), (lit "nickname", .string nickname),
    (lit "bio", .string bio)]

theorem body_profileUpdate : Body (lit "profile_update") := Plain.body (by decide +kernel)

/-- The text decodes to its two strings if both close where they should. -/
theorem unmarshal_profileUpdate {nickname bio : Bytes} (hnickname : Body (escapeQuotes nickname))
    (hbio : Body (escapeQuotes bio)) :
    unmarshal (profileUpdatePayload nickname bio) =
      some (profileRead (unquote (escapeQuotes nickname).length (escapeQuotes nickname))
        (unquote (escapeQuotes bio).length (escapeQuotes bio))) := by
  rw [profileUpdatePayload_eq]
  have hlast : members 2 9999 (bioMember bio) = _ :=
    members_close (plain_profileNames (lit "bio") (by decide)) hbio
  have hboth := members_body (plain_profileNames (lit "nickname") (by decide)) hnickname hlast
  have hall := members_body (plain_profileNames (lit "type") (by decide)) body_profileUpdate hboth
  exact unmarshal_of_members hall rfl

/-- And it does not decode otherwise. -/
theorem body_of_unmarshal {nickname bio : Bytes} {ms : List (Bytes × Value)}
    (h : unmarshal (profileUpdatePayload nickname bio) = some ms) :
    Body (escapeQuotes nickname) ∧ Body (escapeQuotes bio) := by
  rw [profileUpdatePayload_eq] at h
  obtain ⟨fuel, depth, rest, hmembers, hend⟩ := unmarshal_object_inv h
  obtain ⟨fuel, both, hboth, hms⟩ := members_body_inv
    (plain_profileNames (lit "type") (by decide)) body_profileUpdate hmembers
  obtain ⟨-, rfl⟩ := Prod.mk.inj hms
  have hnickname := (guarded_escapeQuotes nickname).body
    (plain_profileNames (lit "nickname") (by decide)) (noKey_bioMember bio)
    (fun _ _ => late_bioMember bio) hboth hend
  obtain ⟨fuel, last, hlast, rfl⟩ := members_body_inv
    (plain_profileNames (lit "nickname") (by decide)) hnickname hboth
  have hbio := (guarded_escapeQuotes bio).body (plain_profileNames (lit "bio") (by decide))
    noKey_close (fun more rest _ hover => by
      have hmem : quote ∈ [125] := by
        rw [hover]
        exact List.mem_append_right _ List.mem_cons_self
      exact absurd hmem (by decide)) hlast hend
  exact ⟨hnickname, hbio⟩

/-- What follows a line break in it does not decode, and the line break is in one of the
strings. -/
theorem after_newline {nickname bio front rest : Bytes}
    (h : profileUpdatePayload nickname bio = front ++ newline :: rest) :
    unmarshal rest = none ∧ (newline ∈ escapeQuotes nickname ∨ newline ∈ escapeQuotes bio) := by
  have hne : newline ≠ backslash := by decide
  unfold profileUpdatePayload at h
  simp only [List.append_assoc] at h
  obtain ⟨front, h⟩ := append_sep_cancel (by decide) h
  rcases append_sep_cases h with ⟨tail, hnickname, rfl⟩ | ⟨front, h⟩
  · have htail : Guarded tail := by
      have hguarded := guarded_escapeQuotes nickname
      rw [hnickname] at hguarded
      exact hguarded.after hne
    refine ⟨?_, Or.inl (by rw [hnickname]; exact List.mem_append_right _ List.mem_cons_self)⟩
    have hrest : lit "\",\"bio\":\"" ++ (escapeQuotes bio ++ lit "\"\x7d") =
        quote :: 44 :: bioMember bio := by
      rw [show lit "\",\"bio\":\"" = quote :: 44 :: quote :: (lit "bio" ++ [quote, 58, quote]) by
        decide, show lit "\"\x7d" = [quote, 125] by decide]
      simp [bioMember]
    rw [hrest]
    exact htail.unmarshal (noKey_bioMember bio)
  · obtain ⟨front, h⟩ := append_sep_cancel (by decide) h
    rcases append_sep_cases h with ⟨tail, hbio, rfl⟩ | ⟨front, h⟩
    · have htail : Guarded tail := by
        have hguarded := guarded_escapeQuotes bio
        rw [hbio] at hguarded
        exact hguarded.after hne
      exact ⟨htail.unmarshal noKey_close,
        Or.inr (by rw [hbio]; exact List.mem_append_right _ List.mem_cons_self)⟩
    · have hmem : newline ∈ lit "\"\x7d" := by
        rw [h]
        exact List.mem_append_right _ List.mem_cons_self
      exact absurd hmem (by decide)

/-! ## Receiving -/

section Receiving

variable (P : Primitives)

/-- A payload that names a sender has a line break in front of its text and after the sender. -/
theorem parseSignedPayload_lines {payload : Bytes} {signed : SignedPayload}
    (h : parseSignedPayload P payload = .ok signed) :
    (∃ front, payload = front ++ newline :: signed.plaintext) ∧
      ∃ rest, payload = signed.senderX25519Pubkey ++ newline :: rest := by
  unfold parseSignedPayload at h
  split at h
  next sender text hsplit =>
    obtain rfl := Except.ok.inj h
    obtain ⟨rest, rfl, -, hrest⟩ := splitN_cons_cons hsplit
    obtain rfl := splitN_singleton hrest
    exact ⟨⟨sender, rfl⟩, rest, rfl⟩
  next sender ed25519PubB64 sigB64 text hsplit =>
    obtain rfl := Except.ok.inj h
    obtain ⟨rest, rfl, -, hrest⟩ := splitN_cons_cons hsplit
    obtain ⟨rest, rfl, -, hrest⟩ := splitN_cons_cons hrest
    obtain ⟨rest, rfl, -, hrest⟩ := splitN_cons_cons hrest
    obtain rfl := splitN_singleton hrest
    obtain ⟨hsender, htext⟩ := checkSigned_fields P sender ed25519PubB64 sigB64 rest
    rw [hsender, htext]
    exact ⟨⟨sender ++ newline :: (ed25519PubB64 ++ newline :: sigB64), by simp⟩, _, rfl⟩
  next => cases h

/-- What does not decode goes to the user. -/
theorem dispatch_undecodable (groups : GoMap Bytes Group) (relays : List Bytes) (fromPeer : Bytes)
    {content : Bytes} (h : unmarshal content = none) :
    dispatch P groups relays fromPeer content = .delivered content [] := by
  have hdist : keyDistOf content = none := by
    rw [Option.eq_none_iff_forall_ne_some]
    intro dist hdist
    obtain ⟨-, ms, hms, -⟩ := keyDistOf_some_iff.mp hdist
    rw [h] at hms
    cases hms
  have henvelope : envelopeOf content = none := by simp [envelopeOf, h]
  have hprofile : profileMsgOf content = none := by simp [profileMsgOf, h]
  have hmedia : mediaMetaOf content = none := by simp [mediaMetaOf, h]
  rw [dispatch_content P groups relays fromPeer hdist henvelope, contentOutcome_delivered_iff]
  refine ⟨rfl, rfl, fun _ => ⟨?_, hmedia⟩⟩
  intro msg hmsg
  rw [hprofile] at hmsg
  cases hmsg

/-- A profile update that decodes is one. -/
theorem dispatch_profileUpdate (groups : GoMap Bytes Group) (relays : List Bytes) {fromPeer : Bytes}
    (hfrom : fromPeer ≠ []) {nickname bio nickname' bio' : Bytes}
    (h : unmarshal (profileUpdatePayload nickname bio) = some (profileRead nickname' bio')) :
    dispatch P groups relays fromPeer (profileUpdatePayload nickname bio) =
      .profileUpdate nickname' bio' := by
  have htype : stringField keyDistNames (profileRead nickname' bio') (lit "type") =
      some (lit "profile_update") := rfl
  have hg : stringField envelopeNames (profileRead nickname' bio') (lit "g") = some [] := rfl
  have hprofile : profileMsgOf (profileUpdatePayload nickname bio) =
      some ⟨lit "profile_update", nickname', bio', [], []⟩ := by
    simp only [profileMsgOf, h]
    rfl
  have hjson : looksLikeJson 20 (profileUpdatePayload nickname bio) = true := by
    have hlong : 20 < (lit "\x7b\"type\":\"profile_update\",\"nickname\":\"").length := by decide
    simp only [looksLikeJson, Bool.and_eq_true, decide_eq_true_eq]
    refine ⟨?_, rfl⟩
    simp only [profileUpdatePayload, List.length_append]
    omega
  rw [dispatch_content P groups relays fromPeer (keyDistOf_eq_none h htype (by decide))
    (envelopeOf_eq_none h hg)]
  simp only [contentOutcome, if_pos hjson, hprofile]
  exact if_pos ⟨trivial, hfrom⟩

end Receiving

/-- The bio on file for a peer, empty if there is none. -/
def Daemon.bioOf (d : Daemon) (pubkey : Bytes) : Bytes :=
  match d.files.lookup (d.peerPath .bio pubkey) with
  | some (.json fields) => ((fields.find? (fun f => f.1 = lit "bio")).map Prod.snd).getD []
  | _ => []

/-- After an update the bio on file is the new one, unless that is empty or cannot be written. -/
theorem bioOf_updateProfile (d : Daemon) (env : Surroundings) (pubkey nickname bio : Bytes) :
    (d.updateProfile env pubkey nickname bio).bioOf pubkey =
      if bio ≠ [] ∧ env.writable (d.peerPath .bio pubkey) = true then bio else d.bioOf pubkey := by
  have hpath : (d.updateProfile env pubkey nickname bio).peerPath .bio pubkey =
      d.peerPath .bio pubkey := by
    obtain ⟨files, h⟩ := updateProfile_frame d env pubkey nickname bio
    rw [h]
    rfl
  rw [Daemon.bioOf, hpath, updateProfile_files]
  by_cases hwritten : bio ≠ [] ∧ env.writable (d.peerPath .bio pubkey) = true
  · rw [if_pos hwritten, if_pos hwritten, AList.lookup_insert]
    rfl
  · rw [if_neg hwritten, if_neg hwritten, Daemon.bioOf]

private theorem lookup_renamed {peers : GoMap Bytes PeerInfoEntry} {fromPeer nickname : Bytes}
    {entry : PeerInfoEntry} (hentry : peers.lookup fromPeer = some entry) (hne : nickname ≠ [])
    (k : Bytes) :
    (renamed peers fromPeer nickname).lookup k =
      if k = fromPeer then some { entry with nickname := nickname } else peers.lookup k := by
  simp only [renamed, hentry, if_pos hne]
  exact lookup_insert_ite _ _ _ _

/-- An update that was read as `nickname'` and `bio'` leaves `nickname` and `bio`. -/
theorem updateProfile_sets_iff {d : Daemon} {env : Surroundings} {pubkey : Bytes}
    (hknown : pubkey ∈ d.peers) {nickname' : Bytes} (hne : nickname' ≠ [])
    {bio' nickname bio : Bytes} :
    ((∃ entry, d.peers.lookup pubkey = some entry ∧
        (d.updateProfile env pubkey nickname' bio').peers.lookup pubkey =
          some { entry with nickname := nickname }) ∧
      (∀ k, k ≠ pubkey →
        (d.updateProfile env pubkey nickname' bio').peers.lookup k = d.peers.lookup k) ∧
      (d.updateProfile env pubkey nickname' bio').bioOf pubkey = bio) ↔
      nickname' = nickname ∧
        if bio' ≠ [] ∧ env.writable (d.peerPath .bio pubkey) = true then bio' = bio
        else d.bioOf pubkey = bio := by
  obtain ⟨entry, hentry⟩ := Option.isSome_iff_exists.mp (AList.lookup_isSome.mpr hknown)
  have hpeers : ∀ k, (d.updateProfile env pubkey nickname' bio').peers.lookup k =
      if k = pubkey then some { entry with nickname := nickname' } else d.peers.lookup k := by
    obtain ⟨files, h⟩ := updateProfile_frame d env pubkey nickname' bio'
    rw [h]
    exact lookup_renamed hentry hne
  have hbio : (d.updateProfile env pubkey nickname' bio').bioOf pubkey = bio ↔
      if bio' ≠ [] ∧ env.writable (d.peerPath .bio pubkey) = true then bio' = bio
      else d.bioOf pubkey = bio := by
    rw [bioOf_updateProfile, apply_ite (· = bio)]
  rw [hbio, hpeers pubkey, if_pos rfl]
  constructor
  · intro h
    obtain ⟨⟨found, hfound, hset⟩, -, hset'⟩ := h
    exact ⟨congrArg PeerInfoEntry.nickname (Option.some.inj hset), hset'⟩
  · intro h
    obtain ⟨rfl, hset⟩ := h
    exact ⟨⟨entry, hentry, rfl⟩, fun k hk => (hpeers k).trans (if_neg hk), hset⟩

/-- A loop over peers of which one opens the message. -/
theorem openWithPeers_only {P : Primitives} {privateKey raw pubkeyStr plaintext : Bytes}
    {order : List Bytes} (hmem : pubkeyStr ∈ order)
    (hopen : openWithPeer P privateKey raw pubkeyStr = some plaintext)
    (honly : ∀ k ∈ order, k ≠ pubkeyStr → openWithPeer P privateKey raw k = none) :
    openWithPeers P privateKey raw order = some (pubkeyStr, plaintext) := by
  have hsome : (openWithPeers P privateKey raw order).isSome := by
    rw [openWithPeers, List.findSome?_isSome_iff]
    exact ⟨pubkeyStr, hmem, by rw [hopen]; rfl⟩
  obtain ⟨found, hfound⟩ := Option.isSome_iff_exists.mp hsome
  obtain ⟨k, hk, hkopen⟩ := List.exists_of_findSome?_eq_some hfound
  obtain rfl : k = pubkeyStr := by
    by_contra hne
    rw [honly k hk hne] at hkopen
    cases hkopen
  rw [hopen] at hkopen
  rw [hfound, ← hkopen]
  rfl

theorem poll_delivered {P : Primitives} {d : Daemon} {identity : KeyPair}
    (hid : d.identity = some identity) {env : Surroundings} {pm : PolledMessage}
    {text group : Bytes}
    (h : (d.processMessage P identity env pm).outcome = .delivered text group) :
    (d.pollMessages P (.ok [(env, pm)])).2 ≠ [] := by
  simp only [Daemon.pollMessages, hid, Daemon.processAll, Processed.received, h]
  exact List.cons_ne_nil _ _

/-- An update that a peer's key opens is carried out if both of its strings close where they
should, and goes to the user otherwise. -/
theorem poll_profileUpdate {P : Primitives} {d : Daemon} {identity : KeyPair}
    (hid : d.identity = some identity) {env : Surroundings} {pm : PolledMessage}
    (hlong : nonceLength ≤ pm.data.length) {fromPeer nickname bio : Bytes} (hfrom : fromPeer ≠ [])
    (hfound : openWithPeers P identity.privateKey pm.data (rangeOrder env.peerHint d.peers) =
      some (fromPeer, profileUpdatePayload nickname bio)) :
    (Body (escapeQuotes nickname) ∧ Body (escapeQuotes bio) →
      d.pollMessages P (.ok [(env, pm)]) =
        (d.updateProfile env fromPeer
          (unquote (escapeQuotes nickname).length (escapeQuotes nickname))
          (unquote (escapeQuotes bio).length (escapeQuotes bio)), [])) ∧
    (¬ (Body (escapeQuotes nickname) ∧ Body (escapeQuotes bio)) →
      (d.pollMessages P (.ok [(env, pm)])).2 ≠ []) := by
  cases hparse : parseSignedPayload P (profileUpdatePayload nickname bio) with
  | ok signed =>
    -- the lines are taken for those of a signed payload, and the rest goes to the user
    obtain ⟨⟨front, hlines⟩, rest, hfirst⟩ := parseSignedPayload_lines P hparse
    obtain ⟨hnone, hnewline⟩ := after_newline hlines
    have hsender : signed.senderX25519Pubkey ≠ [] := by
      intro hnil
      rw [hnil, profileUpdatePayload_eq] at hfirst
      cases (List.cons.inj hfirst).1
    have hdelivered : (d.processMessage P identity env pm).outcome =
        .delivered signed.plaintext [] := by
      rw [processMessage_signed P identity d env pm hlong hfound hparse hsender]
      exact dispatch_undecodable P _ _ _ hnone
    refine ⟨?_, fun _ => poll_delivered hid hdelivered⟩
    intro h
    obtain ⟨hnickname, hbio⟩ := h
    rcases hnewline with hmem | hmem
    · exact absurd (hnickname.noControl newline hmem) (by decide)
    · exact absurd (hbio.noControl newline hmem) (by decide)
  | error e =>
    have hpeer : d.byPeer P identity env pm.data =
        ⟨.peer fromPeer, fromPeer, some (profileUpdatePayload nickname bio)⟩ := by
      simp only [Daemon.byPeer, hfound, attributeSender, hparse]
      rw [nilIfEmpty, if_neg (by rw [profileUpdatePayload_eq]; exact List.cons_ne_nil _ _)]
    have hprocess := processMessage_opened P hlong hpeer
    refine ⟨?_, ?_⟩
    · intro h
      have hread := unmarshal_profileUpdate h.1 h.2
      simp only [Daemon.pollMessages, hid, Daemon.processAll, hprocess,
        dispatch_profileUpdate P _ _ hfrom hread]
      rfl
    · intro h
      have hnone : unmarshal (profileUpdatePayload nickname bio) = none := by
        rw [Option.eq_none_iff_forall_ne_some]
        intro ms hms
        exact h (body_of_unmarshal hms)
      have hdelivered : (d.processMessage P identity env pm).outcome =
          .delivered (profileUpdatePayload nickname bio) [] := by
        rw [hprocess]
        exact dispatch_undecodable P _ _ _ hnone
      exact poll_delivered hid hdelivered

/-- A profile update reaches a peer that knows the sender, and whose other entries do not open it.
It renames the sender's entry and no other, leaves the new bio on file and shows nothing to the
user exactly if both strings close where they should, the nickname has no backslash or control
character and is well-formed, and the same holds of the bio if it is written. A bio that is not
written, because it is empty or its path cannot be, has to be on file already. -/
theorem profileUpdate_arrives_iff {P : Primitives} {a b : Daemon} {ka kb : KeyPair}
    (hab : Acquainted P a b ka kb) {nickname bio : Bytes} (hnick : nickname ≠ [])
    {hint : List Bytes} {nonces : Bytes → Nonce} {out : Outgoing}
    (hout : out ∈ a.broadcastProfileUpdate P ka nickname bio hint nonces)
    (hto : out.recipient = kb.pubkeyB64) (env : Surroundings) {pm : PolledMessage}
    (hpm : pm.data = out.payload)
    (honly : ∀ known ∈ b.peers, known ≠ ka.pubkeyB64 →
      openWithPeer P kb.privateKey pm.data known = none) :
    ((b.pollMessages P (.ok [(env, pm)])).2 = [] ∧
      (∃ entry, b.peers.lookup ka.pubkeyB64 = some entry ∧
        (b.pollMessages P (.ok [(env, pm)])).1.peers.lookup ka.pubkeyB64 =
          some { entry with nickname := nickname }) ∧
      (∀ k, k ≠ ka.pubkeyB64 →
        (b.pollMessages P (.ok [(env, pm)])).1.peers.lookup k = b.peers.lookup k) ∧
      (b.pollMessages P (.ok [(env, pm)])).1.bioOf ka.pubkeyB64 = bio) ↔
      Legible nickname ∧ Body (escapeQuotes bio) ∧
        if bio ≠ [] ∧ env.writable (b.peerPath .bio ka.pubkeyB64) = true then Legible bio
        else b.bioOf ka.pubkeyB64 = bio := by
  obtain ⟨pubkey, secret, hpub, hsecret, hpayload⟩ := broadcastProfileUpdate_sealed hout
  rw [hto, KeyPair.pubkeyB64, Base64Std.decodeString_encode] at hpub
  obtain rfl := Option.some.inj hpub
  rw [hpayload] at hpm
  have hname : ka.pubkeyB64 ≠ [] := pubkeyB64_ne_nil hab.senderKey.publicLength
  have hlong : nonceLength ≤ pm.data.length := by
    rw [hpm, List.length_append, (nonces out.recipient).property]
    omega
  have hfound : openWithPeers P kb.privateKey pm.data (rangeOrder env.peerHint b.peers) =
      some (ka.pubkeyB64, profileUpdatePayload nickname bio) := by
    refine openWithPeers_only ((mem_rangeOrder _ _ _).mpr hab.receiverKnows) ?_
      (fun k hk => honly k ((mem_rangeOrder _ _ _).mp hk))
    rw [hpm]
    exact openWithPeer_sealed hab.senderKey hab.receiverKey hsecret
      (Base64Std.decodeString_encode ka.publicKey) _ _
  obtain ⟨hupdates, hshows⟩ := poll_profileUpdate hab.receiver hlong hname hfound
  by_cases hbodies : Body (escapeQuotes nickname) ∧ Body (escapeQuotes bio)
  · have hne := mt (read_eq_nil_iff hbodies.1).mp hnick
    rw [hupdates hbodies, eq_self_iff_true, true_and,
      updateProfile_sets_iff hab.receiverKnows hne]
    simp only [read_eq_self_iff hbodies.1, read_eq_self_iff hbodies.2, ne_eq,
      read_eq_nil_iff hbodies.2]
    exact and_congr_right (fun _ => (and_iff_right hbodies.2).symm)
  · refine iff_of_false (fun h => hshows hbodies h.1) ?_
    intro h
    exact hbodies ⟨(read_escapeQuotes_iff.mpr h.1).1, h.2.1⟩

/-! ## Between two daemons -/

/-- What daemon 1 hands to its engine for daemon 2. -/
def profileOut (nickname bio : Bytes) : Outgoing where
  payload := someNonce.val ++ Primitives.transparent.xchacha.sealWith (blend (keyOf 1) (keyOf 2))
    someNonce.val (profileUpdatePayload nickname bio)
  recipient := (identityOf 2).pubkeyB64

theorem profileOut_sent (nickname bio : Bytes) :
    (knowing 1 [2]).broadcastProfileUpdate .transparent (identityOf 1) nickname bio []
      (fun _ => someNonce) = [profileOut nickname bio] :=
  rfl

/-- What the user of daemon 2 is shown after an update, and the sender's nickname and bio. -/
def afterUpdate (nickname bio : Bytes) : List ReceivedMessage × Option Bytes × Bytes :=
  let polled := (knowing 2 [1]).pollMessages .transparent
    (.ok [(quiet, polledAs (profileOut nickname bio).payload)])
  (polled.2, (polled.1.peers.lookup (identityOf 1).pubkeyB64).map PeerInfoEntry.nickname,
    polled.1.bioOf (identityOf 1).pubkeyB64)

theorem profileUpdate_arrives_iff_al :
    ((knowing 2 [1]).pollMessages .transparent
        (.ok [(quiet, polledAs (profileOut (lit "al") (lit "hi")).payload)])).2 = [] ∧
      ((knowing 2 [1]).pollMessages .transparent
        (.ok [(quiet, polledAs (profileOut (lit "al") (lit "hi")).payload)])).1.bioOf
          (identityOf 1).pubkeyB64 = lit "hi" := by
  have hout : profileOut (lit "al") (lit "hi") ∈
      (knowing 1 [2]).broadcastProfileUpdate .transparent (identityOf 1) (lit "al") (lit "hi") []
        (fun _ => someNonce) := by
    rw [profileOut_sent]
    exact List.mem_singleton.mpr rfl
  have hpeers : ∀ known ∈ (knowing 2 [1]).peers, known = (identityOf 1).pubkeyB64 := by
    intro known hknown
    exact List.mem_singleton.mp hknown
  have hpm : (polledAs (profileOut (lit "al") (lit "hi")).payload).data =
      (profileOut (lit "al") (lit "hi")).payload := rfl
  have hbio : Legible (lit "hi") := by decide +kernel
  have harrives := (profileUpdate_arrives_iff oneAndTwo_acquainted (by decide) hout rfl quiet hpm
    (fun known hknown hne => absurd (hpeers known hknown) hne)).mpr
      ⟨by decide +kernel, (read_escapeQuotes_iff.mpr hbio).1, by decide +kernel⟩
  exact ⟨harrives.1, harrives.2.2.2⟩

/-- A backslash in the nickname is taken for an escape, and a line break in the bio sends the rest
of the update to the user as a message. -/
theorem escapes_misread :
    Acquainted .transparent (knowing 1 [2]) (knowing 2 [1]) (identityOf 1) (identityOf 2) ∧
      (∀ nickname bio, (knowing 1 [2]).broadcastProfileUpdate .transparent (identityOf 1) nickname bio
        [] (fun _ => someNonce) = [profileOut nickname bio]) ∧
      afterUpdate (lit "a\\tb") (lit "hi") = ([], some (lit "a\tb"), lit "hi") ∧
      ((afterUpdate (lit "al") (lit "x\ny")).1.map ReceivedMessage.plaintext,
        (afterUpdate (lit "al") (lit "x\ny")).2) = ([lit "y\"\x7d"], some [], []) :=
  ⟨oneAndTwo_acquainted, profileOut_sent, by decide +kernel, by decide +kernel⟩

end VRGram.Client
