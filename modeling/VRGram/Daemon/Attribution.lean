import VRGram.Daemon.Receive

/-!
# Whom a message is attributed to

The secret that opens a ciphertext belongs to one peer, but the sender's name is the
first line of the plaintext whenever it has the signed or the old format. The two
agree exactly when that line is the opening peer's own key.
-/
namespace VRGram.Client

open VRGram.Lib VRGram.Lib.Maps VRGram.Lib.Strings VRGram.Crypto VRGram.Encoding

set_option autoImplicit false

/-- A message that was opened with a peer's secret and not discarded carries that peer's
public key as its sender. -/
def SenderAuthentic (r : Processed) : Prop :=
  ∀ pubkeyStr, r.via = .peer pubkeyStr → r.outcome ≠ .dropped →
    Base64Std.decodeString r.fromPeer = Base64Std.decodeString pubkeyStr

/-- The sender line of the plaintext that the first fitting peer sealed, if it has one,
is that peer's own key, unless the content is discarded. -/
def NamesItself (P : Primitives) (identity : KeyPair) (d : Daemon)
    (m : Surroundings × PolledMessage) : Prop :=
  ∀ pubkeyStr plaintext signed, nonceLength ≤ m.2.data.length →
    openWithPeers P identity.privateKey m.2.data (rangeOrder m.1.peerHint d.peers) =
      some (pubkeyStr, plaintext) →
    parseSignedPayload P plaintext = .ok signed → signed.senderX25519Pubkey ≠ [] →
    Base64Std.decodeString signed.senderX25519Pubkey = Base64Std.decodeString pubkeyStr ∨
      dispatch P d.groups m.1.relays signed.senderX25519Pubkey signed.plaintext = .dropped

section

variable (P : Primitives) (identity : KeyPair) (d : Daemon) (env : Surroundings)
  (pm : PolledMessage)

/-- The fallback attributes a message to the peer that opened it. -/
theorem attributeSender_fallback {pubkeyStr plaintext : Bytes}
    (h : ∀ signed, parseSignedPayload P plaintext = .ok signed → signed.senderX25519Pubkey = []) :
    attributeSender P pubkeyStr plaintext =
      ⟨.peer pubkeyStr, pubkeyStr, nilIfEmpty plaintext⟩ := by
  unfold attributeSender
  split
  next => rfl
  next signed hs => rw [if_pos (h signed hs)]

private theorem attributeSender_signed {pubkeyStr plaintext : Bytes} {signed : SignedPayload}
    (hs : parseSignedPayload P plaintext = .ok signed) (hne : signed.senderX25519Pubkey ≠ []) :
    attributeSender P pubkeyStr plaintext =
      ⟨.peer pubkeyStr, signed.senderX25519Pubkey, some signed.plaintext⟩ := by
  simp only [attributeSender, hs, if_neg hne]

/-- A message whose payload names a sender is handled under that name. -/
theorem processMessage_signed {pubkeyStr plaintext : Bytes} {signed : SignedPayload}
    (hlen : nonceLength ≤ pm.data.length)
    (hopen : openWithPeers P identity.privateKey pm.data (rangeOrder env.peerHint d.peers) =
      some (pubkeyStr, plaintext))
    (hs : parseSignedPayload P plaintext = .ok signed) (hne : signed.senderX25519Pubkey ≠ []) :
    let outcome := dispatch P d.groups env.relays signed.senderX25519Pubkey signed.plaintext
    d.processMessage P identity env pm =
      ⟨d.applyOutcome env pm signed.senderX25519Pubkey outcome, .peer pubkeyStr,
        signed.senderX25519Pubkey, outcome⟩ := by
  have hpeer : d.byPeer P identity env pm.data =
      ⟨.peer pubkeyStr, signed.senderX25519Pubkey, some signed.plaintext⟩ := by
    simp only [Daemon.byPeer, hopen]
    exact attributeSender_signed P hs hne
  exact processMessage_opened P hlen hpeer

/-- A payload that names no sender is handled under the name of the peer that opened it. -/
theorem processMessage_unsigned {pubkeyStr plaintext : Bytes} (hlen : nonceLength ≤ pm.data.length)
    (hopen : openWithPeers P identity.privateKey pm.data (rangeOrder env.peerHint d.peers) =
      some (pubkeyStr, plaintext))
    (hs : ∀ signed, parseSignedPayload P plaintext = .ok signed → signed.senderX25519Pubkey = [])
    (hne : plaintext ≠ []) :
    (d.processMessage P identity env pm).outcome =
      dispatch P d.groups env.relays pubkeyStr plaintext := by
  have hpeer : d.byPeer P identity env pm.data = ⟨.peer pubkeyStr, pubkeyStr, some plaintext⟩ := by
    simp only [Daemon.byPeer, hopen]
    rw [attributeSender_fallback P hs, nilIfEmpty, if_neg hne]
  rw [processMessage_opened P hlen hpeer]

/-- A peer is credited with opening only what its secret opened. -/
theorem via_peer_inv {pubkeyStr : Bytes}
    (hvia : (d.processMessage P identity env pm).via = .peer pubkeyStr) :
    nonceLength ≤ pm.data.length ∧ ∃ plaintext,
      openWithPeers P identity.privateKey pm.data (rangeOrder env.peerHint d.peers) =
        some (pubkeyStr, plaintext) ∧
      (d.processMessage P identity env pm).fromPeer =
        (attributeSender P pubkeyStr plaintext).fromPeer := by
  by_cases hlen : pm.data.length < nonceLength
  · simp [Daemon.processMessage, hlen] at hvia
  have hproc : (d.processMessage P identity env pm).via =
        (d.openMessage P identity env pm.data).2.via ∧
      (d.processMessage P identity env pm).fromPeer =
        (d.openMessage P identity env pm.data).2.fromPeer := by
    simp only [Daemon.processMessage, if_neg hlen]
    split <;> exact ⟨rfl, rfl⟩
  rw [hproc.1] at hvia
  rcases (openMessage_spec P d identity env pm.data).2 with hp | hhello
  · refine ⟨Nat.not_lt.mp hlen, ?_⟩
    rw [hproc.2, hp]
    rw [hp] at hvia
    unfold Daemon.byPeer at hvia ⊢
    split at hvia
    next => cases hvia
    next key plaintext hopen =>
      rw [attributeSender_via] at hvia
      obtain rfl := Via.peer.inj hvia
      exact ⟨plaintext, hopen, rfl⟩
  · obtain ⟨pubkey, nick, plaintext, hopened, -⟩ := hhello
    rw [hopened] at hvia
    cases hvia

private theorem senderAuthentic_iff :
    SenderAuthentic (d.processMessage P identity env pm) ↔
      NamesItself P identity d (env, pm) := by
  constructor
  · intro h pubkeyStr plaintext signed hlen hopen hs hne
    have hp := processMessage_signed P identity d env pm hlen hopen hs hne
    by_cases hdrop : dispatch P d.groups env.relays signed.senderX25519Pubkey signed.plaintext =
        .dropped
    · exact Or.inr hdrop
    · have hkey := h pubkeyStr (by rw [hp]) (by rw [hp]; exact hdrop)
      rw [hp] at hkey
      exact Or.inl hkey
  · intro h pubkeyStr hvia hout
    obtain ⟨hlen, plaintext, hopen, hfrom⟩ := via_peer_inv P identity d env pm hvia
    by_cases hsigned : ∃ signed, parseSignedPayload P plaintext = .ok signed ∧
        signed.senderX25519Pubkey ≠ []
    · obtain ⟨signed, hs, hne⟩ := hsigned
      have hp := processMessage_signed P identity d env pm hlen hopen hs hne
      rcases h pubkeyStr plaintext signed hlen hopen hs hne with hkey | hdrop
      · rw [hp]
        exact hkey
      · rw [hp] at hout
        exact absurd hdrop hout
    · have hfall : ∀ signed, parseSignedPayload P plaintext = .ok signed →
          signed.senderX25519Pubkey = [] := by
        intro signed hs
        by_contra hne
        exact hsigned ⟨signed, hs, hne⟩
      rw [hfrom, attributeSender_fallback P hfall]

end

/-- Over a whole poll: every message is attributed to the peer that sealed it exactly
when every message names its own sender, in the state in which it is handled. -/
theorem poll_senders_authentic_iff (P : Primitives) (identity : KeyPair) (d : Daemon)
    (messages : List (Surroundings × PolledMessage)) :
    Machine.Meets (handling P identity)
        (fun d m => SenderAuthentic (d.processMessage P identity m.1 m.2)) d messages ↔
      Machine.Meets (handling P identity) (NamesItself P identity) d messages := by
  apply Machine.meets_congr
  intro d m
  exact senderAuthentic_iff P identity d m.1 m.2

/-! ## A peer that signs with another's name -/

/-- Peer 3 seals for daemon 2 an old-format payload whose first line is the key of peer 1. -/
def borrowedName : PolledMessage :=
  polledAs (Primitives.transparent.xchacha.sealFramed (blend (keyOf 2) (keyOf 3)) someNonce.val
    ((identityOf 1).pubkeyB64 ++ newline :: lit "hi"))

theorem borrowedName_delivered :
    ∃ r, r = (knowing 2 [1, 3]).processMessage .transparent (identityOf 2) quiet borrowedName ∧
      r.via = .peer (identityOf 3).pubkeyB64 ∧ r.fromPeer = (identityOf 1).pubkeyB64 ∧
      r.outcome = .delivered (lit "hi") [] ∧ ¬ SenderAuthentic r := by
  have hvia : ((knowing 2 [1, 3]).processMessage .transparent (identityOf 2) quiet
      borrowedName).via = .peer (identityOf 3).pubkeyB64 := by decide +kernel
  have hfrom : ((knowing 2 [1, 3]).processMessage .transparent (identityOf 2) quiet
      borrowedName).fromPeer = (identityOf 1).pubkeyB64 := by decide +kernel
  have hout : ((knowing 2 [1, 3]).processMessage .transparent (identityOf 2) quiet
      borrowedName).outcome = .delivered (lit "hi") [] := by decide +kernel
  refine ⟨_, rfl, hvia, hfrom, hout, ?_⟩
  intro h
  have hkey := h _ hvia (by rw [hout]; exact Outcome.noConfusion)
  rw [hfrom] at hkey
  revert hkey
  decide +kernel

end VRGram.Client
