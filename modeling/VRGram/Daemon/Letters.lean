import VRGram.Daemon.Invitations
import VRGram.Daemon.Peers
import VRGram.Daemon.Text
import VRGram.Lib.Hex

/-!
# A text among other messages

A daemon handles the messages of a poll one after the other, and each of them may change what it
knows: hellos add peers, profile updates rename them, key messages add groups. None of that keeps
a text from a known sender from being shown, as long as the text does not start with a brace.
-/
namespace VRGram.Client

open VRGram.Lib VRGram.Lib.Aead VRGram.Lib.Maps VRGram.Lib.Strings VRGram.Lib.Machine VRGram.Crypto
open VRGram.Encoding

set_option autoImplicit false

/-! ## Known senders stay known -/

/-- Some peer text of the daemon stands for the key. -/
def Daemon.Knows (d : Daemon) (publicKey : Bytes) : Prop :=
  ∃ known ∈ d.peers, Base64Std.decodeString known = some publicKey

theorem Daemon.Knows.mono {d d' : Daemon} {publicKey : Bytes} (h : d.Knows publicKey)
    (hpeers : ∀ k ∈ d.peers, k ∈ d'.peers) : d'.Knows publicKey := by
  obtain ⟨known, hmem, hdecode⟩ := h
  exact ⟨known, hpeers known hmem, hdecode⟩

section

variable (P : Primitives)

/-- No message makes the daemon forget a peer. -/
theorem processMessage_keepsPeers (d : Daemon) (identity : KeyPair) (env : Surroundings)
    (pm : PolledMessage) :
    ∀ k ∈ d.peers, k ∈ (d.processMessage P identity env pm).daemon.peers := by
  intro k hk
  exact (mem_messagePeers P d identity env pm k).mpr (Or.inl hk)

end

/-! ## Letters -/

/-- A text that its sender has sealed for its recipient; it does not start with a brace. -/
structure Letter (P : Primitives) where
  sender : KeyPair
  recipient : KeyPair
  text : Bytes
  nonce : Nonce
  secret : Bytes
  senderKey : KeyPair.Valid P sender
  recipientKey : KeyPair.Valid P recipient
  agreed : sharedSecret P sender.privateKey recipient.publicKey = .ok secret
  noBrace : text.head? ≠ some 123

variable {P : Primitives}

def Letter.content (l : Letter P) : Bytes := buildSignedPayload P l.sender l.text

def Letter.raw (l : Letter P) : Bytes :=
  l.nonce.val ++ P.xchacha.sealWith l.secret l.nonce.val l.content

/-- How the recipient's response shows the letter. -/
def Letter.message (l : Letter P) (pm : PolledMessage) : ReceivedMessage where
  messageId := hexEncode pm.msgID.val
  plaintext := l.text
  fromPeer := l.sender.pubkeyB64
  groupId := []
  serverTimestampMs := if pm.timestamp > 0 then pm.timestamp.toUInt64 else 0
  sequenceNumber := if pm.sequence > 0 then pm.sequence else 0

/-- A text without a brace is nothing but a text, whatever the daemon's groups. -/
theorem dispatch_noBrace {text : Bytes} (h : text.head? ≠ some 123) (groups : GoMap Bytes Group)
    (relays : List Bytes) (fromPeer : Bytes) :
    dispatch P groups relays fromPeer text = .delivered text [] := by
  have hjson : ∀ n, looksLikeJson n text = false := by
    intro n
    rw [looksLikeJson, beq_eq_false_iff_ne.mpr h, Bool.and_false]
  have hkey : keyDistOf text = none := by
    rw [Option.eq_none_iff_forall_ne_some]
    intro dist hdist
    rw [keyDistOf_some_iff, hjson] at hdist
    cases hdist.1
  have henvelope : envelopeOf text = none := by
    simp only [envelopeOf, hjson]
    rfl
  rw [dispatch_content P groups relays fromPeer hkey henvelope, contentOutcome, hjson]
  rfl

/-- When the message with the id is handled, nothing that the daemon then holds opens the payload
unless one of `calls` sealed it. -/
def Authentic (P : Primitives) (identity : KeyPair) (calls : List SealCall) (raw : Bytes)
    (id : MsgID) (d : Daemon) (x : Surroundings × PolledMessage) : Prop :=
  x.2.msgID = id → d.Unforged P identity calls raw

section

variable (l : Letter P) {calls : List SealCall}
  (hnonce : ∀ call ∈ calls, call.nonce = l.nonce.val → call.plaintext = l.content)

include hnonce

/-- A daemon that knows the sender shows the letter. -/
theorem Letter.received {d : Daemon} (hknows : d.Knows l.sender.publicKey) {pm : PolledMessage}
    (hpm : pm.data = l.raw) (hauth : d.Unforged P l.recipient calls pm.data) (env : Surroundings) :
    (d.processMessage P l.recipient env pm).received pm = some (l.message pm) := by
  obtain ⟨pubkeyStr, hopen⟩ := openWithPeers_sealed l.senderKey l.recipientKey hknows l.agreed hpm
    hauth hnonce env.peerHint
  obtain ⟨signed, hparse, hsender, htext⟩ := parseSignedPayload_build P l.sender l.text
  have hlong : nonceLength ≤ pm.data.length := by
    rw [hpm, Letter.raw, List.length_append, l.nonce.property]
    omega
  have hname : signed.senderX25519Pubkey ≠ [] := by
    rw [hsender]
    exact pubkeyB64_ne_nil l.senderKey.publicLength
  have hprocess := processMessage_signed P l.recipient d env pm hlong hopen hparse hname
  rw [hsender, htext, dispatch_noBrace l.noBrace] at hprocess
  rw [hprocess]
  rfl

omit hnonce in
private theorem received_messageId {r : Processed} {pm : PolledMessage} {m : ReceivedMessage}
    (h : r.received pm = some m) : m.messageId = hexEncode pm.msgID.val := by
  unfold Processed.received at h
  split at h
  · obtain rfl := Option.some.inj h
    rfl
  · cases h

/-- Of a whole poll, what the response shows under the id of the letter is the letter, as often
as it is in the poll. -/
theorem Letter.processAll {id : MsgID} {d : Daemon} (hknows : d.Knows l.sender.publicKey)
    {messages : List (Surroundings × PolledMessage)}
    (hdata : ∀ x ∈ messages, x.2.msgID = id → x.2.data = l.raw)
    (hmeets : Meets (handling P l.recipient) (Authentic P l.recipient calls l.raw id) d messages) :
    (d.processAll P l.recipient messages).2.filter (fun r => r.messageId = hexEncode id.val) =
      ((messages.map Prod.snd).filter (fun pm => pm.msgID = id)).map l.message := by
  induction messages generalizing d with
  | nil => rfl
  | cons x rest ih =>
    obtain ⟨env, pm⟩ := x
    have hrest := ih (hknows.mono (processMessage_keepsPeers P d l.recipient env pm))
      (fun x hx => hdata x (List.mem_cons_of_mem _ hx)) (hmeets.2 _ rfl)
    simp only [Daemon.processAll, List.filter_append, hrest, List.map_cons, List.filter_cons]
    by_cases hid : pm.msgID = id
    · have hraw : pm.data = l.raw := hdata _ List.mem_cons_self hid
      have hauth : d.Unforged P l.recipient calls pm.data := hraw ▸ hmeets.1 hid
      have hshown : (l.message pm).messageId = hexEncode id.val := by rw [← hid]; rfl
      rw [l.received hnonce hknows hraw hauth env, if_pos (decide_eq_true hid), List.map_cons,
        Option.toList_some, List.filter_cons_of_pos (by simpa using hshown), List.filter_nil,
        List.singleton_append]
    · rw [if_neg (by simpa using hid)]
      cases hr : (d.processMessage P l.recipient env pm).received pm with
      | none => rfl
      | some m =>
        have hother : ¬ m.messageId = hexEncode id.val := by
          rw [received_messageId hr]
          exact fun h => hid (Subtype.ext (Hex.hexEncode_inj h))
        rw [Option.toList_some, List.filter_cons_of_neg (by simpa using hother), List.filter_nil,
          List.nil_append]

end

end VRGram.Client
