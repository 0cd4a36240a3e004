import VRGram.Daemon.Invitations
import VRGram.Lib.JsonObject

/-!
# The invite handshake

A joiner answers an invite code with a hello that names its public key and its nickname. The
nickname is put into a JSON text as it is, so it is read back only if reading leaves it alone. A
nickname with quotes in it can end the text early or set other fields, but never be read back.
-/
namespace VRGram.Client

open VRGram.Lib VRGram.Lib.Maps VRGram.Lib.Strings VRGram.Lib.Json VRGram.Crypto

set_option autoImplicit false

/-! ## Reading a hello back -/

/-- A nickname in the last member of an object. -/
def nicknameMember (nickname : Bytes) : Bytes :=
  quote :: (lit "nickname" ++ quote :: 58 :: quote :: (nickname ++ [quote, 125]))

theorem helloPayload_eq (pubkeyB64 nickname : Bytes) :
    helloPayload pubkeyB64 nickname = 123 :: quote :: (lit "type" ++ quote :: 58 :: quote ::
      (lit "hello" ++ quote :: 44 :: quote :: (lit "pubkey" ++ quote :: 58 :: quote ::
        (pubkeyB64 ++ quote :: 44 :: nicknameMember nickname)))) := by
  have htype : lit "\x7b\"type\":\"hello\",\"pubkey\":\"" =
      123 :: quote :: (lit "type" ++ quote :: 58 :: quote :: (lit "hello" ++
        quote :: 44 :: quote :: (lit "pubkey" ++ [quote, 58, quote]))) := by
    decide
  have hnickname : lit "\",\"nickname\":\"" =
      quote :: 44 :: quote :: (lit "nickname" ++ [quote, 58, quote]) := by
    decide
  have hclose : lit "\"\x7d" = [quote, 125] := by decide
  simp [helloPayload, nicknameMember, htype, hnickname, hclose]

def helloMembers (pubkeyB64 nickname : Bytes) : List (Bytes × Item) :=
  [(lit "type", .text (lit "hello")), (lit "pubkey", .text pubkeyB64),
    (lit "nickname", .text nickname)]

private theorem helloPayload_eq_render (pubkeyB64 nickname : Bytes) :
    helloPayload pubkeyB64 nickname = renderObject (helloMembers pubkeyB64 nickname) := by
  simp [helloPayload_eq, nicknameMember, helloMembers, renderObject, renderMembers, renderMember,
    Item.render]

theorem plain_helloNames : ∀ name ∈ helloNames, Json.Plain name := by decide +kernel

def helloRead (pubkeyB64 nickname : Bytes) : List (Bytes × Value) :=
  [(lit "type", .string (lit "hello")), (lit "pubkey", .string pubkeyB64),
    (lit "nickname", .string nickname)]

/-- The strings of a hello whose nickname needs no escapes. -/
theorem unmarshal_hello {pubkeyB64 nickname : Bytes} (hpubkey : Printable pubkeyB64)
    (hplain : Json.Plain nickname) (hwell : Utf8.WellFormed nickname) :
    unmarshal (helloPayload pubkeyB64 nickname) = some (helloRead pubkeyB64 nickname) := by
  have hmembers : ∀ m ∈ helloMembers pubkeyB64 nickname, Json.Plain m.1 ∧ m.2.Plain := by
    intro m hm
    simp only [helloMembers, List.mem_cons, List.not_mem_nil, or_false] at hm
    rcases hm with rfl | rfl | rfl
    · exact ⟨plain_helloNames (lit "type") (by decide), (by decide +kernel : Json.Plain (lit "hello"))⟩
    · exact ⟨plain_helloNames (lit "pubkey") (by decide), hpubkey.plain⟩
    · exact ⟨plain_helloNames (lit "nickname") (by decide), hplain⟩
  have hread : (helloMembers pubkeyB64 nickname).map readMember =
      helloRead (unquote pubkeyB64.length pubkeyB64) (unquote nickname.length nickname) := rfl
  rw [helloPayload_eq_render, unmarshal_render _ hmembers, hread, unquote_printable hpubkey,
    (read_self_iff.mpr ⟨hplain, hwell⟩).2]

/-- A hello is read as what the joiner meant exactly if the nickname needs no escapes. -/
theorem helloOf_payload_iff {pubkeyB64 nickname : Bytes} (hpubkey : Printable pubkeyB64)
    (hne : pubkeyB64 ≠ []) (hnick : nickname ≠ []) :
    helloOf (helloPayload pubkeyB64 nickname) = some (pubkeyB64, nickname) ↔
      Json.Plain nickname ∧ Utf8.WellFormed nickname := by
  constructor
  · intro h
    simp only [helloOf, Option.bind_eq_bind, Option.bind_eq_some_iff] at h
    obtain ⟨ms, hms, type, -, pubkey, -, read, hread, h⟩ := h
    split at h
    next =>
      obtain ⟨-, hsame⟩ := Prod.mk.inj (Option.some.inj h)
      rw [helloPayload_eq] at hms
      obtain ⟨fuel, depth, rest, hmembers, -⟩ := unmarshal_object_inv hms
      -- the first two members are read as they are
      obtain ⟨fuel, second, hsecond, hms₁⟩ := members_body_inv
        (plain_helloNames (lit "type") (by decide))
        (show Body (lit "hello") from Plain.body (by decide +kernel)) hmembers
      obtain ⟨fuel, last, hlast, hms₂⟩ := members_body_inv
        (plain_helloNames (lit "pubkey") (by decide)) hpubkey.plain.body hsecond
      obtain ⟨rfl, -⟩ := Prod.mk.inj hms₁
      rw [hms₂] at hread
      have hfront : ∀ m ∈ [(lit "type", Value.string (lit "hello")),
          (lit "pubkey", .string (unquote pubkeyB64.length pubkeyB64))],
          fieldOf helloNames m.1 ≠ some (lit "nickname") := by
        simp only [List.forall_mem_cons]
        exact ⟨by decide, by decide, fun _ h => absurd h List.not_mem_nil⟩
      have hfield : stringField helloNames last.1 (lit "nickname") = some read :=
        (field_append_absent asString [] hfront last.1).symm.trans hread
      by_cases hnil : read = []
      · rw [if_pos hnil] at hsame
        rw [← hsame]
        decide +kernel
      · rw [if_neg hnil] at hsame
        obtain rfl := hsame
        rcases stringField_mem hfield with hempty | ⟨k, hmem⟩
        · exact absurd hempty hnil
        · exact read_self_iff.mp
            (lastText_read (plain_helloNames (lit "nickname") (by decide)) hlast hmem)
    next => cases h
  · intro h
    obtain ⟨hplain, hwell⟩ := h
    have hms := unmarshal_hello hpubkey hplain hwell
    have htype : stringField helloNames (helloRead pubkeyB64 nickname) (lit "type") =
        some (lit "hello") := rfl
    have hkey : stringField helloNames (helloRead pubkeyB64 nickname) (lit "pubkey") =
        some pubkeyB64 := rfl
    have hname : stringField helloNames (helloRead pubkeyB64 nickname) (lit "nickname") =
        some nickname := rfl
    simp only [helloOf, hms, htype, hkey, hname, Option.bind_eq_bind, Option.bind_some,
      if_neg hnick]
    exact if_pos ⟨trivial, hne⟩

/-- The hello itself then goes to the user as a text. -/
theorem dispatch_hello (P : Primitives) (groups : GoMap Bytes Group) (relays : List Bytes)
    (fromPeer : Bytes) {pubkeyB64 nickname : Bytes} (hpubkey : Printable pubkeyB64)
    (hplain : Json.Plain nickname) (hwell : Utf8.WellFormed nickname) :
    dispatch P groups relays fromPeer (helloPayload pubkeyB64 nickname) =
      .delivered (helloPayload pubkeyB64 nickname) [] := by
  have hms := unmarshal_hello hpubkey hplain hwell
  have htype : stringField keyDistNames (helloRead pubkeyB64 nickname) (lit "type") =
      some (lit "hello") := rfl
  have hg : stringField envelopeNames (helloRead pubkeyB64 nickname) (lit "g") = some [] := rfl
  have hprofile : profileMsgOf (helloPayload pubkeyB64 nickname) =
      some ⟨lit "hello", nickname, [], [], []⟩ := by
    simp only [profileMsgOf, hms]
    rfl
  have hmedia : mediaMetaOf (helloPayload pubkeyB64 nickname) = none := by
    simp only [mediaMetaOf, hms]
    rfl
  rw [dispatch_content P groups relays fromPeer (keyDistOf_eq_none hms htype (by decide))
    (envelopeOf_eq_none hms hg), contentOutcome_delivered_iff]
  refine ⟨rfl, rfl, fun _ => ⟨?_, hmedia⟩⟩
  intro msg hmsg
  obtain rfl := Option.some.inj (hprofile.symm.trans hmsg)
  exact ⟨fun h => absurd (show lit "hello" = lit "profile_update" from h.1) (by decide),
    fun h => absurd (show lit "hello" = lit "profile_pic" from h.1) (by decide)⟩

/-! ## The loop over the pending hellos -/

theorem helloStep_pendingHellos (P : Primitives) (now : Int) (raw : Bytes) (s : Daemon × Opening)
    (nonceHex : Bytes) :
    (helloStep P now raw s nonceHex).1.pendingHellos = s.1.pendingHellos ∨
      (helloStep P now raw s nonceHex).1.pendingHellos = s.1.pendingHellos.erase nonceHex := by
  rcases helloStep_cases P now raw s nonceHex with h | h | ⟨_, _, _, _, -, -, -, h⟩
  · exact Or.inl (by rw [h])
  · exact Or.inr (by rw [h])
  · exact Or.inr (by rw [h])

section Loop

variable {P : Primitives} {now : Int} {raw : Bytes}

/-- Every addition is of a hello that the key of a pending nonce opens. -/
theorem mem_loopAdds {s : Daemon × Opening} {order : List Bytes} {a : Addition}
    (h : a ∈ loopAdds P now raw s order) :
    ∃ nonceHex entry plaintext, s.1.pendingHellos.lookup nonceHex = some entry ∧
      entry.nonce = a.nonce ∧ decryptHello P (deriveHelloKey P entry.nonce) raw = .ok plaintext ∧
      helloOf plaintext = some (a.pubkey, a.nickname) := by
  induction order generalizing s with
  | nil => cases h
  | cons nonceHex rest ih =>
    rcases List.mem_append.mp h with hfirst | hrest
    · rcases helloAdds_cases P now raw s nonceHex with
        ⟨hnone, -⟩ | ⟨entry, a', hentry, -, hadds, hnonce, -, ⟨plaintext, hdecrypt, hread⟩, -⟩
      · rw [hnone] at hfirst
        cases hfirst
      · rw [hadds, Option.toList_some, List.mem_singleton] at hfirst
        subst hfirst
        exact ⟨nonceHex, entry, plaintext, hentry, hnonce.symm, hdecrypt, hread⟩
    · obtain ⟨k, entry, plaintext, hentry, hread⟩ := ih hrest
      refine ⟨k, entry, plaintext, ?_, hread⟩
      rcases helloStep_pendingHellos P now raw s nonceHex with hsame | herase
      · rw [← hsame]
        exact hentry
      · exact (lookup_erase_eq_some.mp (herase ▸ hentry)).2

/-- What was removed stays removed. -/
theorem loop_removed {s : Daemon × Opening} (order : List Bytes) {nonceHex : Bytes}
    (h : nonceHex ∉ s.1.pendingHellos) :
    nonceHex ∉ (order.foldl (helloStep P now raw) s).1.pendingHellos := by
  induction order generalizing s with
  | nil => exact h
  | cons k rest ih =>
    apply ih
    rcases helloStep_pendingHellos P now raw s k with hsame | herase
    · rw [hsame]
      exact h
    · rw [herase, AList.mem_erase]
      exact fun hmem => h hmem.2

/-- A pending entry whose key opens a hello adds its peer, and is gone after the loop. -/
theorem loop_adds {s : Daemon × Opening} {order : List Bytes} {nonceHex : Bytes}
    (hmem : nonceHex ∈ order) {entry : HelloEntry}
    (hentry : s.1.pendingHellos.lookup nonceHex = some entry)
    (hyoung : now - entry.createdAt ≤ helloLifetime) {plaintext : Bytes} {hello : Bytes × Bytes}
    (hdecrypt : decryptHello P (deriveHelloKey P entry.nonce) raw = .ok plaintext)
    (hhello : helloOf plaintext = some hello) :
    ⟨entry.nonce, hello.1, hello.2, now⟩ ∈ loopAdds P now raw s order ∧
      nonceHex ∉ (order.foldl (helloStep P now raw) s).1.pendingHellos := by
  induction order generalizing s with
  | nil => cases hmem
  | cons k rest ih =>
    by_cases hk : k = nonceHex
    · subst hk
      have hadds : helloAdds P now raw s k = some ⟨entry.nonce, hello.1, hello.2, now⟩ := by
        simp only [helloAdds, helloRound, hentry, if_neg (Int.not_lt.mpr hyoung), hdecrypt, hhello]
      have hstep : (helloStep P now raw s k).1.pendingHellos = s.1.pendingHellos.erase k := by
        simp only [helloStep, helloRound, hentry, if_neg (Int.not_lt.mpr hyoung), hdecrypt, hhello]
      refine ⟨?_, loop_removed rest ?_⟩
      · rw [loopAdds, hadds]
        exact List.mem_append_left _ (List.mem_singleton.mpr rfl)
      · rw [hstep, AList.mem_erase]
        exact fun h => h.1 rfl
    · have hrest : nonceHex ∈ rest := (List.mem_cons.mp hmem).resolve_left (fun h => hk h.symm)
      have hkept : (helloStep P now raw s k).1.pendingHellos.lookup nonceHex = some entry := by
        rcases helloStep_pendingHellos P now raw s k with h | h
        · rw [h, hentry]
        · rw [h, lookup_erase_ite, if_neg (fun h => hk h.symm), hentry]
      obtain ⟨hadds, hgone⟩ := ih hrest hkept
      exact ⟨List.mem_append_right _ hadds, hgone⟩

/-- What the loop has opened satisfies what every hello that a pending key opens satisfies. -/
theorem helloLoop_opened {Q : Bytes → Prop} {s : Daemon × Opening} (order : List Bytes)
    (hkeys : ∀ nonceHex entry plaintext, s.1.pendingHellos.lookup nonceHex = some entry →
      decryptHello P (deriveHelloKey P entry.nonce) raw = .ok plaintext → Q plaintext)
    (hs : ∀ plaintext, s.2.decrypted = some plaintext → Q plaintext) :
    ∀ plaintext, (order.foldl (helloStep P now raw) s).2.decrypted = some plaintext →
      Q plaintext := by
  induction order generalizing s with
  | nil => exact hs
  | cons k rest ih =>
    rw [List.foldl_cons]
    rcases helloStep_cases P now raw s k with h | h | ⟨entry, _, _, plaintext, hentry, hdecrypt, -, h⟩
    · rw [h]
      exact ih hkeys hs
    · rw [h]
      exact ih (fun j entry p hj => hkeys j entry p (lookup_erase_eq_some.mp hj).2) hs
    · rw [h]
      refine ih (fun j entry p hj => hkeys j entry p (lookup_erase_eq_some.mp hj).2) ?_
      intro p hp
      obtain rfl := Option.some.inj hp
      exact hkeys k entry _ hentry hdecrypt

/-- After a loop that adds one peer and no other, perhaps for several nonces, that peer is known
under the nickname of its hello. -/
theorem helloLoop_known {s : Daemon × Opening} {order : List Bytes} {pubkey nickname : Bytes}
    (hall : ∀ a ∈ loopAdds P now raw s order, a.pubkey = pubkey ∧ a.nickname = nickname)
    (hne : loopAdds P now raw s order ≠ []) :
    (order.foldl (helloStep P now raw) s).1.peers.lookup pubkey = some ⟨nickname, pubkey⟩ := by
  rw [helloLoop_peers]
  generalize s.1.peers = peers
  obtain ⟨front, last, hlast⟩ := (List.eq_nil_or_concat (loopAdds P now raw s order)).resolve_left hne
  obtain ⟨rfl, rfl⟩ := hall last (by rw [hlast, List.concat_eq_append]; simp)
  rw [hlast, List.concat_eq_append, List.foldl_append]
  exact AList.lookup_insert _

end Loop

/-! ## From the code to the peer -/

/-- A hello for a nonce opens under no key that the inviter holds but its own. -/
structure HelloOnly (P : Primitives) (a : Daemon) (identity : KeyPair) (nonce raw : Bytes) :
    Prop where
  noPeer : ∀ pubkeyStr ∈ a.peers, openWithPeer P identity.privateKey raw pubkeyStr = none
  noOther : ∀ nonceHex entry plaintext, a.pendingHellos.lookup nonceHex = some entry →
    decryptHello P (deriveHelloKey P entry.nonce) raw = .ok plaintext →
    deriveHelloKey P entry.nonce = deriveHelloKey P nonce

theorem HelloOnly.byPeer {P : Primitives} {a : Daemon} {identity : KeyPair} {nonce raw : Bytes}
    (h : HelloOnly P a identity nonce raw) (env : Surroundings) :
    a.byPeer P identity env raw = ⟨.nobody, [], none⟩ := by
  have hnone : openWithPeers P identity.privateKey raw (rangeOrder env.peerHint a.peers) = none := by
    rw [openWithPeers, List.findSome?_eq_none_iff]
    intro pubkeyStr hmem
    rw [h.noPeer pubkeyStr ((mem_rangeOrder _ _ _).mp hmem)]
    rfl
  rw [Daemon.byPeer, hnone]

section Poll

variable {P : Primitives} {a : Daemon} {identity : KeyPair} {env : Surroundings}
  {pm : PolledMessage}

private theorem pollAdds_loop (ha : a.identity = some identity)
    (hlen : nonceLength ≤ pm.data.length)
    (hpeer : a.byPeer P identity env pm.data = ⟨.nobody, [], none⟩) :
    a.pollAdds P (.ok [(env, pm)]) = loopAdds P env.now pm.data (a, ⟨.nobody, [], none⟩)
      (rangeOrder env.helloHint a.pendingHellos) := by
  simp only [Daemon.pollAdds, ha, Daemon.allAdds, Daemon.messageAdds,
    if_neg (Nat.not_lt.mpr hlen), hpeer, if_true, List.append_nil]

/-- A text that no peer sealed and that goes to the user leaves what the loop over the pending
hellos leaves. -/
theorem poll_loop (ha : a.identity = some identity) (hlen : nonceLength ≤ pm.data.length)
    (hpeer : a.byPeer P identity env pm.data = ⟨.nobody, [], none⟩)
    (htext : ∀ content, ((rangeOrder env.helloHint a.pendingHellos).foldl
      (helloStep P env.now pm.data) (a, ⟨.nobody, [], none⟩)).2.decrypted = some content →
        ∀ groups fromPeer, dispatch P groups env.relays fromPeer content = .delivered content []) :
    (a.pollMessages P (.ok [(env, pm)])).1 =
      ((rangeOrder env.helloHint a.pendingHellos).foldl (helloStep P env.now pm.data)
        (a, ⟨.nobody, [], none⟩)).1 := by
  have hopen : a.openMessage P identity env pm.data =
      (rangeOrder env.helloHint a.pendingHellos).foldl (helloStep P env.now pm.data)
        (a, ⟨.nobody, [], none⟩) := by
    simp only [Daemon.openMessage, hpeer, if_true, Daemon.tryHellos]
  simp only [Daemon.pollMessages, ha, Daemon.processAll, Daemon.processMessage,
    if_neg (Nat.not_lt.mpr hlen), hopen]
  split
  next => rfl
  next content hcontent =>
    rw [htext content hcontent]
    rfl

end Poll

/-- The hello that `JoinViaCode` hands to the engine. -/
theorem joinViaCode_ok {P : Primitives} {d d' : Daemon} {identity : KeyPair}
    (hid : d.identity = some identity) {profileNickname code : Bytes} {helloNonce : Nonce}
    {joined : Joined}
    (h : d.joinViaCode P profileNickname code helloNonce = some (d', .ok joined)) :
    ∃ invite, parseInviteCode code = .ok invite ∧ joined.hello.payload =
      P.xchacha.sealFramed (deriveHelloKey P invite.nonce.val) helloNonce.val
        (helloPayload identity.pubkeyB64 (getMyNickname profileNickname)) := by
  unfold Daemon.joinViaCode at h
  split at h
  next => cases h
  next invite hinvite =>
    simp only [hid] at h
    split at h
    · cases h
    next encrypted hencrypt =>
      obtain ⟨-, hjoined⟩ := Prod.mk.inj (Option.some.inj h)
      obtain rfl := Except.ok.inj hjoined
      exact ⟨invite, hinvite, sealPrefixed_ok P hencrypt⟩

private theorem decryptHello_sealed (P : Primitives) (nonce : Bytes) (helloNonce : Nonce)
    (payload : Bytes) :
    decryptHello P (deriveHelloKey P nonce)
      (P.xchacha.sealFramed (deriveHelloKey P nonce) helloNonce.val payload) = .ok payload := by
  have hkey : (deriveHelloKey P nonce).length = keyLength := (P.hkdf nonce _).property
  have hlong : ¬ (P.xchacha.sealFramed (deriveHelloKey P nonce) helloNonce.val payload).length <
      nonceLength := by
    rw [Aead.Cipher.sealFramed, List.length_append, helloNonce.property]
    omega
  simp only [decryptHello, openPrefixed, newX, if_pos hkey, if_neg hlong,
    Aead.Cipher.openFramed_sealFramed P.xchacha helloNonce.property]
  rfl

private theorem getMyNickname_ne_nil (profileNickname : Bytes) :
    getMyNickname profileNickname ≠ [] := by
  unfold getMyNickname
  split
  next h => exact h
  next => decide

/-- An inviter holds the nonce of a code that is younger than a day, and the hello of a joiner
with that code arrives as it was sent. The poll adds the joiner, with its public key and its
nickname, and removes the nonce, exactly if the nickname has no quote, backslash or control
character and is well-formed UTF-8. -/
theorem handshake_iff {P : Primitives} {a b b' : Daemon} {ka kb : KeyPair}
    (ha : a.identity = some ka) (hb : b.identity = some kb)
    (hkey : kb.publicKey.length = keyLength) {profileNickname code : Bytes} {helloNonce : Nonce}
    {joined : Joined}
    (hjoin : b.joinViaCode P profileNickname code helloNonce = some (b', .ok joined))
    {invite : Invite} (hcode : parseInviteCode code = .ok invite) {entry : HelloEntry}
    (hpending : a.pendingHellos.lookup (hexEncode invite.nonce.val) = some entry)
    (hnonce : entry.nonce = invite.nonce.val) {env : Surroundings}
    (hyoung : env.now - entry.createdAt ≤ helloLifetime) {pm : PolledMessage}
    (hpm : pm.data = joined.hello.payload) (honly : HelloOnly P a ka invite.nonce.val pm.data) :
    (⟨invite.nonce.val, kb.pubkeyB64, getMyNickname profileNickname, env.now⟩ ∈
        a.pollAdds P (.ok [(env, pm)]) ∧
      (a.pollMessages P (.ok [(env, pm)])).1.peers.lookup kb.pubkeyB64 =
        some ⟨getMyNickname profileNickname, kb.pubkeyB64⟩ ∧
      hexEncode invite.nonce.val ∉ (a.pollMessages P (.ok [(env, pm)])).1.pendingHellos) ↔
      Json.Plain (getMyNickname profileNickname) ∧
        Utf8.WellFormed (getMyNickname profileNickname) := by
  obtain ⟨invite', hcode', hpayload⟩ := joinViaCode_ok hb hjoin
  obtain rfl := Except.ok.inj (hcode.symm.trans hcode')
  rw [hpayload] at hpm
  have hpubkey : Printable kb.pubkeyB64 := printable_base64 kb.publicKey
  have hread := helloOf_payload_iff hpubkey (pubkeyB64_ne_nil hkey)
    (getMyNickname_ne_nil profileNickname)
  have hdecrypt := decryptHello_sealed P invite.nonce.val helloNonce
    (helloPayload kb.pubkeyB64 (getMyNickname profileNickname))
  rw [← hpm] at hdecrypt
  generalize getMyNickname profileNickname = nickname at hpm hread hdecrypt ⊢
  -- every key that opens the hello opens it to the same text
  have hsame : ∀ nonceHex entry plaintext, a.pendingHellos.lookup nonceHex = some entry →
      decryptHello P (deriveHelloKey P entry.nonce) pm.data = .ok plaintext →
      plaintext = helloPayload kb.pubkeyB64 nickname := by
    intro nonceHex entry plaintext hentry hopen
    rw [honly.noOther nonceHex entry plaintext hentry hopen, hdecrypt] at hopen
    exact (Except.ok.inj hopen).symm
  have hlen : nonceLength ≤ pm.data.length := by
    rw [hpm, Aead.Cipher.sealFramed, List.length_append, helloNonce.property]
    omega
  rw [pollAdds_loop ha hlen (honly.byPeer env)]
  constructor
  · intro h
    obtain ⟨_, _, plaintext, hentry, -, hopen, hhello⟩ := mem_loopAdds h.1
    rw [hsame _ _ _ hentry hopen] at hhello
    exact hread.mp hhello
  · intro h
    have hhello := hread.mpr h
    obtain ⟨hplain, hwell⟩ := h
    have hopened : ∀ plaintext, ((rangeOrder env.helloHint a.pendingHellos).foldl
        (helloStep P env.now pm.data) (a, ⟨.nobody, [], none⟩)).2.decrypted = some plaintext →
        plaintext = helloPayload kb.pubkeyB64 nickname :=
      helloLoop_opened _ hsame (fun _ h => by cases h)
    have hdaemon := poll_loop ha hlen (honly.byPeer env) (fun content hcontent groups fromPeer => by
      rw [hopened content hcontent]
      exact dispatch_hello P groups env.relays fromPeer hpubkey hplain hwell)
    obtain ⟨hmem, hgone⟩ := loop_adds (s := (a, ⟨.nobody, [], none⟩))
      ((mem_rangeOrder env.helloHint a.pendingHellos _).mpr (mem_iff_lookup.mpr ⟨entry, hpending⟩))
      hpending hyoung (by rw [hnonce]; exact hdecrypt) hhello
    rw [hnonce] at hmem
    rw [hdaemon]
    refine ⟨hmem, helloLoop_known ?_ (List.ne_nil_of_mem hmem), hgone⟩
    intro added hadded
    obtain ⟨_, _, plaintext, hentry, -, hopen', hhello'⟩ := mem_loopAdds hadded
    rw [hsame _ _ _ hentry hopen', hhello] at hhello'
    obtain ⟨hk, hn⟩ := Prod.mk.inj (Option.some.inj hhello')
    exact ⟨hk.symm, hn.symm⟩

/-! ## A hello that arrives and one that does not -/

/-- The first identity, with one pending code. -/
def inviter : Daemon :=
  { knowing 1 [] with
    pendingHellos := AList.insert (hexEncode oneCode.val)
      ⟨oneCode.val, (identityOf 1).pubkeyB64, lit "al", 0⟩ ∅ }

def codeOfInviter : Bytes :=
  ((Crypto.generateInviteCode (keyOf 1) (lit "al") oneCode).toOption).getD []

theorem parse_codeOfInviter :
    parseInviteCode codeOfInviter = .ok ⟨keyOf 1, oneCode, lit "al"⟩ := by decide +kernel

/-- The hello of the second identity under some nickname. -/
def helloAs (nickname : Bytes) : Bytes :=
  Primitives.transparent.xchacha.sealFramed (deriveHelloKey .transparent oneCode.val) someNonce.val
    (helloPayload (identityOf 2).pubkeyB64 (getMyNickname nickname))

theorem join_codeOfInviter (nickname : Bytes) :
    ∃ joiner joined, (knowing 2 []).joinViaCode .transparent nickname codeOfInviter someNonce =
      some (joiner, .ok joined) ∧ joined.hello.payload = helloAs nickname := by
  simp only [Daemon.joinViaCode, parse_codeOfInviter]
  exact ⟨_, _, rfl, rfl⟩

private theorem inviter_pending : inviter.pendingHellos.lookup (hexEncode oneCode.val) =
    some ⟨oneCode.val, (identityOf 1).pubkeyB64, lit "al", 0⟩ := AList.lookup_insert _

private theorem inviter_helloOnly (raw : Bytes) :
    HelloOnly .transparent inviter (identityOf 1) oneCode.val raw where
  noPeer pubkeyStr hmem := absurd hmem (AList.notMem_empty pubkeyStr)
  noOther nonceHex entry plaintext hentry _ := by
    rw [show inviter.pendingHellos.lookup nonceHex = _ from lookup_insert_ite _ _ _ _] at hentry
    split at hentry
    · rw [← Option.some.inj hentry]
    · cases hentry

theorem handshake_iff_bo :
    (inviter.pollMessages .transparent (.ok [(quiet, polledAs (helloAs (lit "bo")))])).1.peers.lookup
        (identityOf 2).pubkeyB64 = some ⟨lit "bo", (identityOf 2).pubkeyB64⟩ ∧
      hexEncode oneCode.val ∉ (inviter.pollMessages .transparent
        (.ok [(quiet, polledAs (helloAs (lit "bo")))])).1.pendingHellos := by
  obtain ⟨joiner, joined, hjoin, hpayload⟩ := join_codeOfInviter (lit "bo")
  have harrives : (polledAs (helloAs (lit "bo"))).data = joined.hello.payload := hpayload.symm
  exact ((handshake_iff (a := inviter) rfl rfl List.length_replicate hjoin parse_codeOfInviter
    inviter_pending rfl (by decide) harrives (inviter_helloOnly _)).mpr (by decide +kernel)).2

/-- A nickname that goes on with another public key. -/
def steering : Bytes := lit "bo\",\"pubkey\":\"eve"

/-- The joiner is not added; a peer with the other key is. -/
theorem steering_substitutes :
    (∃ joiner joined, (knowing 2 []).joinViaCode .transparent steering codeOfInviter someNonce =
      some (joiner, .ok joined) ∧ joined.hello.payload = helloAs steering) ∧
    inviter.pollAdds .transparent (.ok [(quiet, polledAs (helloAs steering))]) =
      [⟨oneCode.val, lit "eve", lit "bo", 0⟩] ∧
    (inviter.pollMessages .transparent (.ok [(quiet, polledAs (helloAs steering))])).1.peers.lookup
      (identityOf 2).pubkeyB64 = none :=
  ⟨join_codeOfInviter steering, by decide +kernel, by decide +kernel⟩

end VRGram.Client
