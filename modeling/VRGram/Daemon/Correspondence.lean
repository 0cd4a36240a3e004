import VRGram.Client.InTransit
import VRGram.Daemon.Arrival
import VRGram.Daemon.Letters

/-!
# From one user to the other

A daemon sends a text through its engine while the relays serve everybody else and the recipient
goes about its business, polling now and then. Whatever the order of all that, the recipient is
shown the text once: never something else in its place, never a second time, and certainly by the
first poll after the engine has reported success.
-/
namespace VRGram.Client

open VRGram.Lib VRGram.Lib.Aead VRGram.Lib.Maps VRGram.Lib.Strings VRGram.Lib.Machine VRGram.Crypto
open VRGram.Encoding VRGram.Store VRGram.Relay

set_option autoImplicit false

/-- A call of the sender's engine, with the relays it is for, and the recipient. -/
structure Correspondence where
  sending : Sending
  receiver : Node

/-- The call goes on, a relay gets a request or collects its garbage, or the recipient's daemon
is called. -/
inductive Happening where
  | send (a : Act)
  | traffic (site : Bytes) (e : Event)
  | receive (rpc : Rpc)

section

variable (P : Primitives)

def Correspondence.step (call : Call) (c : Correspondence) : Happening → Option Correspondence
  | .send a => (call.step c.sending a).map (fun s => { c with sending := s })
  | .traffic site e => (relayStep call.zone (c.sending.world site) e).map (fun store =>
      { c with sending := { c.sending with world := Function.update c.sending.world site store } })
  | .receive rpc => (c.receiver.step P rpc).map (fun n => { c with receiver := n })

/-- What a payload between two daemons needs of its surroundings: nobody else uses its id and no
garbage collection finds it overdue; a poll reaches the relays, as they are; and the recipient does
not remove the sender. -/
def Fair (call : Call) (sender recipient : KeyPair) (raw : Bytes) (calls : List SealCall)
    (id : MsgID) (c : Correspondence) : Happening → Prop
  | .send _ => True
  | .traffic site e => Respects call.zone id call.chunks (c.sending.world site) e
  | .receive (.pollMessages net w envs) => Reachable call.zone call.host net ∧ w = c.sending.world ∧
      ∀ msgs engine,
        (c.receiver.engine.pollMessages net P.sha256 recipient.pubkeyB64 w).1 =
          some (.ok msgs, engine) →
        Meets (handling P recipient) (Authentic P recipient calls raw id) c.receiver.daemon
          (msgs.map (fun m => (envs m.msgID, m)))
  | .receive (.removePeer pubkey) => Base64Std.decodeString pubkey ≠ some sender.publicKey
  | .receive _ => True

variable {P}

/-- What the recipient has been shown under an id. -/
def Correspondence.shown (c : Correspondence) (id : MsgID) : List ReceivedMessage :=
  c.receiver.delivered.filter (fun r => r.messageId = hexEncode id.val)

/-- Where the letter stands: the recipient has fetched it and was shown it, or neither. -/
structure Settled (call : Call) (p : Parcel) (l : Letter P) (start : Node) (c : Correspondence) :
    Prop where
  transit : InTransit call p c.sending
  owner : c.receiver.daemon.identity = some l.recipient
  knows : c.receiver.daemon.Knows l.sender.publicKey
  engine : c.receiver.engine = { start.engine with fetched := c.receiver.engine.fetched }
  unread : c.receiver.engine.hasFetched p.msgID = false → c.shown p.msgID = []
  read : c.receiver.engine.hasFetched p.msgID = true →
    ∃ m : PolledMessage, m.msgID = p.msgID ∧ c.shown p.msgID = [l.message m]

/-! ## One step -/

private theorem filter_msgID {msgs : List PolledMessage} (hn : (msgs.map PolledMessage.msgID).Nodup)
    {m : PolledMessage} (hm : m ∈ msgs) :
    msgs.filter (fun pm => pm.msgID = m.msgID) = [m] := by
  induction msgs with
  | nil => cases hm
  | cons x rest ih =>
    rw [List.map_cons, List.nodup_cons] at hn
    rcases List.mem_cons.mp hm with rfl | hrest
    · have hnone : rest.filter (fun pm => pm.msgID = m.msgID) = [] := by
        rw [List.filter_eq_nil_iff]
        intro pm hpm he
        exact hn.1 (of_decide_eq_true he ▸ List.mem_map_of_mem hpm)
      rw [List.filter_cons_of_pos (by simp), hnone]
    · have hne : ¬ x.msgID = m.msgID := fun he => hn.1 (he ▸ List.mem_map_of_mem hrest)
      rw [List.filter_cons_of_neg (by simpa using hne)]
      exact ih hn.2 hrest

private theorem step_knows {n n' : Node} {rpc : Rpc} (h : n.step P rpc = some n')
    (hpoll : ∀ net w envs, rpc ≠ .pollMessages net w envs) {publicKey : Bytes}
    (hkeeps : ∀ pubkey, rpc = .removePeer pubkey → Base64Std.decodeString pubkey ≠ some publicKey)
    (hknows : n.daemon.Knows publicKey) : n'.daemon.Knows publicKey := by
  cases rpc with
  | pollMessages net w envs => exact absurd rfl (hpoll net w envs)
  | removePeer pubkey =>
    obtain rfl := Option.some.inj h
    obtain ⟨known, hmem, hdecode⟩ := hknows
    refine ⟨known, AList.mem_erase.mpr ⟨?_, hmem⟩, hdecode⟩
    rintro rfl
    exact hkeeps _ rfl hdecode
  | addPeer nickname pubkey =>
    simp only [Node.step, Daemon.addPeer] at h
    split at h
    · obtain rfl := Option.some.inj h
      exact hknows
    next d hd =>
      obtain rfl := Option.some.inj h
      split at hd
      · cases hd
      · split at hd
        · cases hd
        · obtain rfl := Except.ok.inj hd
          exact hknows.mono (fun k hk => (AList.mem_insert _).mpr (Or.inr hk))
  | generateInviteCode profileNickname nickname nonce now =>
    obtain ⟨r, hr, rfl⟩ := Option.map_eq_some_iff.mp h
    unfold Daemon.generateInviteCode at hr
    split at hr
    · cases hr
    · simp only at hr
      split at hr
      · obtain rfl := Option.some.inj hr
        exact hknows
      · obtain rfl := Option.some.inj hr
        exact hknows
  | joinViaCode profileNickname code nonce =>
    obtain ⟨r, hr, rfl⟩ := Option.map_eq_some_iff.mp h
    unfold Daemon.joinViaCode at hr
    split at hr
    · obtain rfl := Option.some.inj hr
      exact hknows
    · simp only at hr
      split at hr
      · cases hr
      · split at hr
        · obtain rfl := Option.some.inj hr
          exact hknows.mono (fun k hk => (AList.mem_insert _).mpr (Or.inr hk))
        · obtain rfl := Option.some.inj hr
          exact hknows.mono (fun k hk => (AList.mem_insert _).mpr (Or.inr hk))

private theorem processAll_knows {identity : KeyPair} {d : Daemon} {publicKey : Bytes}
    (h : d.Knows publicKey) (messages : List (Surroundings × PolledMessage)) :
    (d.processAll P identity messages).1.Knows publicKey := by
  induction messages generalizing d with
  | nil => exact h
  | cons x rest ih => exact ih (h.mono (processMessage_keepsPeers P d identity x.1 x.2))

section

variable {call : Call} (hz : ZoneOk call.zone) {p : Parcel} (hsmall : p.n ≤ 65535)
  {l : Letter P} (hraw : p.payload = l.raw) {calls : List SealCall}
  (hnonce : ∀ call ∈ calls, call.nonce = l.nonce.val → call.plaintext = l.content)
  {start : Node} (he : start.engine.zone = call.zone) {c : Correspondence}
  (h : Settled call p l start c)

include hz hsmall hraw hnonce he h

/-- A poll returns; it shows the letter if the relays offer it and it is still unread, and then it
is read. -/
theorem Settled.poll {net : Network Relays} {w : Relays} {envs : MsgID → Surroundings}
    (hfair : Fair P call l.sender l.recipient l.raw calls p.msgID c
      (.receive (.pollMessages net w envs))) {n : Node} (hs : c.receiver.pollMessages P net w envs = some n) :
    Settled call p l start { c with receiver := n } ∧
      (∀ id, c.receiver.engine.hasFetched id = true → n.engine.hasFetched id = true) ∧
      ((∃ m, c.receiver.engine.offered P.sha256 call.host l.recipient.pubkeyB64 c.sending.world
        p.msgID = some m) → n.engine.hasFetched p.msgID = true) := by
  obtain ⟨hreach, rfl, hguarded⟩ := hfair
  have hez : c.receiver.engine.zone = call.zone := by rw [h.engine]; exact he
  obtain ⟨got, htracked⟩ := h.transit.followed.tracked
  obtain ⟨msgs, fetched', hpoll, hn, hmem, hfetched⟩ := pollMessages_offers hreach hz hez
    h.transit.stored P.sha256 l.recipient.pubkeyB64
  -- whatever the poll returns under the id of the letter is the letter
  have hdata : ∀ x ∈ msgs.map (fun m => (envs m.msgID, m)), x.2.msgID = p.msgID →
      x.2.data = l.raw := by
    intro x hx hid
    obtain ⟨m, hm, rfl⟩ := List.mem_map.mp hx
    have ho := ((hmem m).mp hm).2
    rw [hid] at ho
    exact (offered_carries hsmall htracked.holdings ho).2.trans hraw
  have hshown := l.processAll hnonce h.knows hdata (hguarded msgs _ hpoll)
  rw [List.map_map, show (Prod.snd ∘ fun m : PolledMessage => (envs m.msgID, m)) = id from rfl,
    List.map_id] at hshown
  simp only [Node.pollMessages, h.owner, hpoll, Except.map, Daemon.pollMessages,
    Option.some.injEq] at hs
  subst hs
  refine ⟨⟨h.transit, ?_, processAll_knows h.knows _, ?_, ?_, ?_⟩,
    fun id hid => (hfetched id).mpr (Or.inl hid), ?_⟩
  · exact (processAll_identity P l.recipient _ _).trans h.owner
  · show ({ c.receiver.engine with fetched := fetched' } : DNSClientEngine) =
      { start.engine with fetched := fetched' }
    rw [h.engine]
  · intro hunread
    have hnot : ¬ (c.receiver.engine.hasFetched p.msgID = true ∨
        p.msgID ∈ msgs.map PolledMessage.msgID) := by
      rw [← hfetched, Bool.not_eq_true]
      exact hunread
    obtain ⟨hold, hnew⟩ := not_or.mp hnot
    have hnone : msgs.filter (fun pm => pm.msgID = p.msgID) = [] := by
      rw [List.filter_eq_nil_iff]
      intro m hm hid
      exact hnew (of_decide_eq_true hid ▸ List.mem_map_of_mem hm)
    have hbefore := h.unread (Bool.not_eq_true _ ▸ hold)
    simp only [Correspondence.shown, List.filter_append, hshown, hnone] at hbefore ⊢
    rw [hbefore]
    rfl
  · intro hread
    cases hold : c.receiver.engine.hasFetched p.msgID with
    | true =>
      obtain ⟨m, hid, hbefore⟩ := h.read hold
      have hnone : msgs.filter (fun pm => pm.msgID = p.msgID) = [] := by
        rw [List.filter_eq_nil_iff]
        intro m' hm' hid'
        have hunfetched := ((hmem m').mp hm').1
        rw [of_decide_eq_true hid', hold] at hunfetched
        cases hunfetched
      refine ⟨m, hid, ?_⟩
      simp only [Correspondence.shown, List.filter_append, hshown, hnone] at hbefore ⊢
      rw [hbefore]
      rfl
    | false =>
      rcases (hfetched p.msgID).mp hread with hfalse | hlisted
      · rw [hold] at hfalse
        cases hfalse
      · obtain ⟨m, hm, hid⟩ := List.mem_map.mp hlisted
        have hbefore := h.unread hold
        have hone := filter_msgID hn hm
        rw [hid] at hone
        refine ⟨m, hid, ?_⟩
        simp only [Correspondence.shown, List.filter_append, hshown, hone] at hbefore ⊢
        rw [hbefore]
        rfl
  · rintro ⟨m, ho⟩
    have hid := (offered_source ho).1
    refine (hfetched p.msgID).mpr ?_
    cases hold : c.receiver.engine.hasFetched p.msgID with
    | true => exact Or.inl rfl
    | false =>
      refine Or.inr (List.mem_map.mpr ⟨m, (hmem m).mpr ⟨?_, ?_⟩, hid⟩)
      · rw [hid]
        exact hold
      · rw [hid]
        exact ho

/-- Whatever happens, the letter stays settled and what has been fetched stays fetched. -/
theorem Settled.step (hchunks : call.chunks = p.chunks) {a : Happening}
    (hfair : Fair P call l.sender l.recipient l.raw calls p.msgID c a) {d : Correspondence}
    (hs : c.step P call a = some d) :
    Settled call p l start d ∧
      ∀ id, c.receiver.engine.hasFetched id = true → d.receiver.engine.hasFetched id = true := by
  cases a with
  | send a =>
    obtain ⟨s, hstep, rfl⟩ := Option.map_eq_some_iff.mp hs
    exact ⟨⟨h.transit.step hz hsmall hchunks hstep, h.owner, h.knows, h.engine, h.unread, h.read⟩,
      fun _ hid => hid⟩
  | traffic site e =>
    obtain ⟨store, hstore, rfl⟩ := Option.map_eq_some_iff.mp hs
    rw [Fair, hchunks] at hfair
    exact ⟨⟨h.transit.traffic hz hsmall hfair hstore, h.owner, h.knows, h.engine, h.unread, h.read⟩,
      fun _ hid => hid⟩
  | receive rpc =>
    obtain ⟨n, hcall, rfl⟩ := Option.map_eq_some_iff.mp hs
    by_cases hpoll : ∃ net w envs, rpc = .pollMessages net w envs
    · obtain ⟨net, w, envs, rfl⟩ := hpoll
      obtain ⟨hsettled, hkept, -⟩ := h.poll hz hsmall hraw hnonce he hfair hcall
      exact ⟨hsettled, hkept⟩
    · have hother : ∀ net w envs, rpc ≠ .pollMessages net w envs :=
        fun net w envs hr => hpoll ⟨net, w, envs, hr⟩
      obtain ⟨hengine, hidentity, hdelivered⟩ := step_other P hcall hother
      have hknows : n.daemon.Knows l.sender.publicKey := by
        refine step_knows hcall hother ?_ h.knows
        rintro pubkey rfl
        exact hfair
      have hshown : Correspondence.shown ⟨c.sending, n⟩ p.msgID = c.shown p.msgID := by
        rw [Correspondence.shown, Correspondence.shown, hdelivered]
      refine ⟨⟨h.transit, hidentity.trans h.owner, hknows, ?_, ?_, ?_⟩, ?_⟩
      · show n.engine = { start.engine with fetched := n.engine.fetched }
        rw [hengine]
        exact h.engine
      · rw [hshown]
        show n.engine.hasFetched p.msgID = false → _
        rw [hengine]
        exact h.unread
      · rw [hshown]
        show n.engine.hasFetched p.msgID = true → _
        rw [hengine]
        exact h.read
      · intro id hid
        show n.engine.hasFetched id = true
        rw [hengine]
        exact hid

end

/-! ## Whole runs -/

end

/-! ## A greeting -/

end VRGram.Client
