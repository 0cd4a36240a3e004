import VRGram.Client.Transport
import VRGram.Daemon.Peers
import VRGram.Daemon.Receive
import VRGram.Daemon.Send

/-!
# Mailbox addresses

A recipient polls the mailbox of the canonical base64 text of its key. A sender puts the
hash of the text it was given into the chunks, and every text that decodes to the key is
accepted: the decoder skips line breaks and ignores the unused bits of the last digit.
-/
namespace VRGram.Client

open VRGram.Lib VRGram.Lib.Maps VRGram.Lib.Strings VRGram.Lib.Dns VRGram.Lib.Machine
open VRGram.Crypto VRGram.Encoding VRGram.Store VRGram.Relay

set_option autoImplicit false

/-- The text is taken for the public key. -/
def Names (pubkey key : Bytes) : Prop :=
  Base64Std.decodeString pubkey = some key ∧ key.length = keyLength

/-- `AddPeer` accepts the texts of keys, and keeps the text it was given. -/
theorem addPeer_ok_iff (d : Daemon) (nickname pubkey : Bytes) :
    (∃ d', d.addPeer nickname pubkey = .ok d' ∧ d'.peers.lookup pubkey = some ⟨nickname, pubkey⟩) ↔
      ∃ key, Names pubkey key := by
  unfold Daemon.addPeer Names
  cases h : Base64Std.decodeString pubkey with
  | none => simp
  | some key =>
    by_cases hlen : key.length = keyLength
    · simp [hlen]
    · simp [hlen]

/-- `SendMessage` hands over the text it was given, whatever key it decodes to. -/
theorem sendMessage_recipient {P : Primitives} {d : Daemon} {identity : KeyPair}
    (hid : d.identity = some identity) {req : SendRequest} (hgroup : req.groupId = [])
    {env : SendEnv} {sent : Sent} (h : d.sendMessage P req env = .ok sent) :
    (∃ key, Base64Std.decodeString req.peerPubkey = some key) ∧
      ∀ out ∈ sent.outgoing ++ sent.enqueued, out.recipient = req.peerPubkey := by
  obtain ⟨key, secret, hkey, -, hout, hqueued⟩ := sendMessage_ok hid hgroup h
  refine ⟨⟨key, hkey⟩, ?_⟩
  intro out hmem
  have hsent : out ∈ sent.outgoing := (List.mem_append.mp hmem).elim id (hqueued out)
  rw [hout, List.mem_singleton] at hsent
  rw [hsent]

theorem Names.ne_nil {pubkey key : Bytes} (h : Names pubkey key) : pubkey ≠ [] := by
  rintro rfl
  obtain rfl : [] = key := Option.some.inj h.1
  cases h.2

/-- Mailboxes are equal only for equal digests. -/
theorem mailboxOf_inj {sha256 : Bytes → Digest} {a b : Bytes} :
    mailboxOf sha256 a = mailboxOf sha256 b ↔ sha256 a = sha256 b := by
  constructor
  · intro h
    have hdecoded := congrArg unb32 h
    rw [mailboxOf, mailboxOf, unb32_b32, unb32_b32] at hdecoded
    exact Subtype.ext (Option.some.inj hdecoded)
  · exact fun h => by rw [mailboxOf, mailboxOf, h]

/-- A message for a text that decodes to a key, once its chunks have reached a relay: the
chunks carry the hash that the owner of the key polls with, and the POLL lists the message,
exactly if the text is the canonical one. -/
theorem addressing_agrees_iff (sha256 : Bytes → Digest) (owner : KeyPair) (pubkey : Bytes)
    (hnames : Names pubkey owner.publicKey)
    (hdistinct : sha256 pubkey = sha256 owner.pubkeyB64 → pubkey = owner.pubkeyB64)
    (zone : Bytes) (hz : ZoneOk zone) (msgID : MsgID) (payload : Bytes)
    (hlen : payload.length < 2 ^ 63) (maxChunkSize : Int64) (chunks : List Chunk)
    (hchunks : chunkMessage sha256 msgID payload maxChunkSize pubkey = some chunks)
    (hsome : 1 ≤ chunks.length) (hmany : chunks.length ≤ 65535)
    (s t : ChunkStore) (hm : msgID ∉ s.messages) (ho : msgID ∉ s.messageOwner)
    (events : List Event) (hok : Meets (relayStep zone) (Respects zone msgID chunks) s events)
    (hall : ∀ c ∈ chunks, ∃ e ∈ events, Delivers zone c e)
    (hr : run (relayStep zone) s events = some t) (ctx : Context) (hadm : ctx.admitted = true) :
    ((∀ c ∈ chunks, b32 c.recipientHash = mailboxOf sha256 owner.pubkeyB64) ∧
      msgID ∈ (parsePollResponseWithMeta (handleRequest zone ctx
        [questionName [lit "POLL", mailboxOf sha256 owner.pubkeyB64] zone] t).1).map
          PolledMessage.msgID) ↔
      pubkey = owner.pubkeyB64 := by
  have hne := hnames.ne_nil
  obtain ⟨-, howner⟩ := transported hz hlen hchunks hsome hmany hm ho hok hall hr
  have hpoll := (poll_lists_iff sha256 owner.pubkeyB64 hz hadm [] t msgID).2
  rw [hpoll, howner hne, Option.some.injEq, mailboxOf_inj]
  constructor
  · rintro ⟨-, hsame⟩
    exact hdistinct hsame
  · intro heq
    refine ⟨?_, by rw [heq]⟩
    intro c hc
    obtain ⟨p, rfl, -, -, -, hhash⟩ := parcel_of_chunkMessage hlen hchunks
      (List.length_pos_iff.mp hsome)
    obtain ⟨i, -, rfl⟩ := Parcel.mem_chunks.mp hc
    show b32 p.hash = _
    rw [hhash, recipientHashOf, if_neg hne, ← heq]
    rfl

/-- A digest that tells the two texts below apart by their length. -/
def lengthDigest (b : Bytes) : Digest := ⟨List.replicate 32 (octet b.length), List.length_replicate⟩

/-- The chunks of a short message for the given text. -/
def shortMessage (pubkey : Bytes) : List Chunk :=
  (chunkMessage lengthDigest (putUint64 9) [10, 20, 30] 2 pubkey).getD []

theorem addressing_agrees_iff_canonical :
    let chunks := shortMessage (identityOf 2).pubkeyB64
    ∃ t, run (relayStep (lit "z.org")) (newChunkStore 5)
        (backwardsTwice (lit "z.org") chunks) = some t ∧
      putUint64 9 ∈ (parsePollResponseWithMeta (handleRequest (lit "z.org") ⟨true, 0, true, []⟩
          [questionName [lit "POLL", mailboxOf lengthDigest (identityOf 2).pubkeyB64]
            (lit "z.org")] t).1).map PolledMessage.msgID := by
  intro chunks
  refine ⟨_, rfl, ?_⟩
  exact ((addressing_agrees_iff lengthDigest (identityOf 2) (identityOf 2).pubkeyB64
    ⟨Base64Std.decodeString_encode _, rfl⟩ (fun _ => rfl) (lit "z.org") (by decide) (putUint64 9)
    [10, 20, 30] (by decide) 2 chunks rfl (by decide) (by decide) (newChunkStore 5) _ (by decide)
    (by decide) (backwardsTwice (lit "z.org") chunks) (by decide +kernel) (by decide +kernel) rfl
    ⟨true, 0, true, []⟩ rfl).mpr rfl).2

/-- The key of daemon 2 with a line break after it. -/
def wrappedKey : Bytes := (identityOf 2).pubkeyB64 ++ [10]

/-- `AddPeer` and `SendMessage` accept the wrapped key as the key of daemon 2, and no POLL of
daemon 2 lists what is sent to it. -/
theorem wrappedKey_unlisted :
    ∃ t, Names wrappedKey (identityOf 2).publicKey ∧
      (∃ d, (knowing 1 []).addPeer [] wrappedKey = .ok d) ∧
      (∃ sent, (knowing 1 []).sendMessage .transparent ⟨wrappedKey, lit "hi", []⟩
        ⟨someNonce, [], fun _ => (putUint64 9, 2, true), true⟩ = .ok sent) ∧
      run (relayStep (lit "z.org")) (newChunkStore 5)
        (backwardsTwice (lit "z.org") (shortMessage wrappedKey)) = some t ∧
      putUint64 9 ∉ (parsePollResponseWithMeta (handleRequest (lit "z.org") ⟨true, 0, true, []⟩
          [questionName [lit "POLL", mailboxOf lengthDigest (identityOf 2).pubkeyB64]
            (lit "z.org")] t).1).map PolledMessage.msgID := by
  refine ⟨_, ⟨by decide +kernel, rfl⟩, ⟨_, rfl⟩, ⟨_, rfl⟩, rfl, ?_⟩
  decide +kernel

end VRGram.Client
