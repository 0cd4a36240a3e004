import VRGram.Client.Offers
import VRGram.Daemon.Peers
import VRGram.Daemon.Receive
import VRGram.Daemon.Send

/-!
# When a message is read

The engine hands out every message once, and the daemon reads it with the peers, the
pending hellos and the groups that it has at that moment; there is no second attempt. Two
runs deliver the same when each message meets, whenever it is fetched, the peers that can
open it, the invitation it answers and the group it is for.
-/
namespace VRGram.Client

open VRGram.Lib VRGram.Lib.Maps VRGram.Lib.Strings VRGram.Lib.Dns VRGram.Lib.Machine VRGram.Crypto
open VRGram.Encoding VRGram.Store VRGram.Relay

set_option autoImplicit false

section Reading

variable (P : Primitives)

/-- The peer's key opens the message. -/
def Opens (identity : KeyPair) (raw pubkeyStr : Bytes) : Prop :=
  (openWithPeer P identity.privateKey raw pubkeyStr).isSome

/-- The sender and the text of a hello under the nonce of an invitation. -/
def helloReads (raw nonce : Bytes) : Option (Bytes × Bytes) :=
  match decryptHello P (deriveHelloKey P nonce) raw with
  | .error _ => none
  | .ok plaintext => (helloOf plaintext).map (fun hello => (hello.1, plaintext))

/-- The invitation with this nonce is pending and has not expired. -/
def Daemon.Awaits (d : Daemon) (now : Int) (nonce : Bytes) : Prop :=
  ∃ nonceHex entry, d.pendingHellos.lookup nonceHex = some entry ∧ entry.nonce = nonce ∧
    now - entry.createdAt ≤ helloLifetime

/-! ## Opening depends on the keys that fit -/

theorem opens_of_found {identity : KeyPair} {raw k : Bytes} {found : Bytes × Bytes}
    (h : (openWithPeer P identity.privateKey raw k).map (fun p => (k, p)) = some found) :
    Opens P identity raw k := by
  obtain ⟨p, hp, -⟩ := Option.map_eq_some_iff.mp h
  rw [Opens, hp]
  rfl

private theorem byPeer_congr {identity : KeyPair} {raw : Bytes} {d ref : Daemon}
    (hpeers : ∀ k, Opens P identity raw k → (k ∈ d.peers ↔ k ∈ ref.peers))
    (hone : ∀ k k', Opens P identity raw k → Opens P identity raw k' → k ∈ ref.peers →
      k' ∈ ref.peers → k = k') (env env' : Surroundings) :
    d.byPeer P identity env raw = ref.byPeer P identity env' raw := by
  -- in either order the loop stops at the one peer that fits
  have hloop : ∀ (order : List Bytes), (∀ k, Opens P identity raw k → (k ∈ order ↔ k ∈ ref.peers)) →
      ∀ found, openWithPeers P identity.privateKey raw order = some found ↔
        ∃ k ∈ ref.peers, (openWithPeer P identity.privateKey raw k).map (fun p => (k, p)) = some found := by
    intro order horder found
    constructor
    · intro hf
      obtain ⟨k, hk, hopen⟩ := List.exists_of_findSome?_eq_some hf
      have hfits := opens_of_found P hopen
      exact ⟨k, (horder k hfits).mp hk, hopen⟩
    · rintro ⟨k, hk, hopen⟩
      have hfits := opens_of_found P hopen
      have hsome : (openWithPeers P identity.privateKey raw order).isSome := by
        rw [openWithPeers, List.findSome?_isSome_iff]
        exact ⟨k, (horder k hfits).mpr hk, by rw [hopen]; rfl⟩
      obtain ⟨found', hfound'⟩ := Option.isSome_iff_exists.mp hsome
      obtain ⟨k', hk', hopen'⟩ := List.exists_of_findSome?_eq_some hfound'
      have hfits' := opens_of_found P hopen'
      obtain rfl := hone k k' hfits hfits' hk ((horder k' hfits').mp hk')
      rw [hfound', ← hopen, ← hopen']
  have heq : openWithPeers P identity.privateKey raw (rangeOrder env.peerHint d.peers) =
      openWithPeers P identity.privateKey raw (rangeOrder env'.peerHint ref.peers) := by
    ext found
    rw [hloop _ (fun k hk => by rw [mem_rangeOrder]; exact hpeers k hk),
      hloop _ (fun k _ => mem_rangeOrder env'.peerHint ref.peers k)]
  unfold Daemon.byPeer
  rw [heq]

/-- What one round of the hello loop makes of a message. -/
def Daemon.helloAt (d : Daemon) (now : Int) (raw nonceHex : Bytes) : Option Opening :=
  match d.pendingHellos.lookup nonceHex with
  | none => none
  | some entry =>
    if now - entry.createdAt > helloLifetime then none
    else (helloReads P raw entry.nonce).map (fun read => ⟨.hello, read.1, some read.2⟩)

private theorem helloStep_opening (now : Int) (raw : Bytes) (s : Daemon × Opening)
    (nonceHex : Bytes) :
    (helloStep P now raw s nonceHex).2 = (s.1.helloAt P now raw nonceHex).getD s.2 := by
  unfold helloStep helloRound Daemon.helloAt helloReads
  cases s.1.pendingHellos.lookup nonceHex with
  | none => rfl
  | some entry =>
    by_cases hold : now - entry.createdAt > helloLifetime
    · simp only [if_pos hold, Option.getD_none]
    · simp only [if_neg hold]
      cases decryptHello P (deriveHelloKey P entry.nonce) raw with
      | error e => rfl
      | ok plaintext =>
        simp only
        cases helloOf plaintext <;> rfl

private theorem helloStep_pending (now : Int) (raw : Bytes) (s : Daemon × Opening)
    {nonceHex j : Bytes} (hj : j ≠ nonceHex) :
    (helloStep P now raw s nonceHex).1.pendingHellos.lookup j = s.1.pendingHellos.lookup j := by
  rcases helloStep_cases P now raw s nonceHex with h | h | ⟨_, _, _, _, -, -, -, h⟩
  · rw [h]
  · rw [h]
    exact AList.lookup_erase_ne hj
  · rw [h]
    exact AList.lookup_erase_ne hj

/-- The loop keeps the opening it starts with unless some round reads a hello, and then it
ends with what one of the rounds reads. -/
theorem helloLoop_opening (now : Int) (raw : Bytes) {order : List Bytes} (hn : order.Nodup)
    (s : Daemon × Opening) :
    ((∀ k ∈ order, s.1.helloAt P now raw k = none) ∧
      (order.foldl (helloStep P now raw) s).2 = s.2) ∨
    ∃ k ∈ order, s.1.helloAt P now raw k = some (order.foldl (helloStep P now raw) s).2 := by
  induction order generalizing s with
  | nil => exact Or.inl ⟨by simp, rfl⟩
  | cons k rest ih =>
    rw [List.nodup_cons] at hn
    have hsame : ∀ j ∈ rest, (helloStep P now raw s k).1.helloAt P now raw j =
        s.1.helloAt P now raw j := by
      intro j hj
      have hne : j ≠ k := fun he => hn.1 (he ▸ hj)
      rw [Daemon.helloAt, helloStep_pending P now raw s hne, Daemon.helloAt]
    rw [List.foldl_cons]
    rcases ih hn.2 (helloStep P now raw s k) with ⟨hnone, hlast⟩ | ⟨j, hj, hread⟩
    · rw [hlast, helloStep_opening]
      cases hk : s.1.helloAt P now raw k with
      | some o => exact Or.inr ⟨k, List.mem_cons_self, hk⟩
      | none =>
        refine Or.inl ⟨?_, rfl⟩
        intro j hj
        rcases List.mem_cons.mp hj with rfl | htail
        · exact hk
        · rw [← hsame j htail]
          exact hnone j htail
    · refine Or.inr ⟨j, List.mem_cons_of_mem k hj, ?_⟩
      rw [← hsame j hj]
      exact hread

private theorem helloAt_eq_some {d : Daemon} {now : Int} {raw nonceHex : Bytes} {o : Opening}
    (h : d.helloAt P now raw nonceHex = some o) :
    ∃ nonce read, d.Awaits now nonce ∧ helloReads P raw nonce = some read ∧
      o = ⟨.hello, read.1, some read.2⟩ := by
  unfold Daemon.helloAt at h
  split at h
  next => cases h
  next entry hentry =>
    split at h
    · cases h
    next hfresh =>
      obtain ⟨read, hread, rfl⟩ := Option.map_eq_some_iff.mp h
      exact ⟨entry.nonce, read, ⟨nonceHex, entry, hentry, rfl, by omega⟩, hread, rfl⟩

private theorem exists_helloAt {d : Daemon} {now : Int} {raw nonce : Bytes} {read : Bytes × Bytes}
    (hawaits : d.Awaits now nonce) (hread : helloReads P raw nonce = some read) :
    ∃ k ∈ d.pendingHellos, d.helloAt P now raw k = some ⟨.hello, read.1, some read.2⟩ := by
  obtain ⟨nonceHex, entry, hentry, rfl, hfresh⟩ := hawaits
  refine ⟨nonceHex, mem_iff_lookup.mpr ⟨entry, hentry⟩, ?_⟩
  rw [Daemon.helloAt, hentry]
  simp only [if_neg (show ¬ now - entry.createdAt > helloLifetime by omega), hread, Option.map_some]

/-- The opening after the loop: that of any pending invitation that reads the message. -/
theorem tryHellos_opening (d : Daemon) (env : Surroundings) (raw : Bytes) (opening : Opening) :
    ((∀ nonce, d.Awaits env.now nonce → helloReads P raw nonce = none) ∧
      (d.tryHellos P env raw opening).2 = opening) ∨
    ∃ nonce read, d.Awaits env.now nonce ∧ helloReads P raw nonce = some read ∧
      (d.tryHellos P env raw opening).2 = ⟨.hello, read.1, some read.2⟩ := by
  rcases helloLoop_opening P env.now raw (rangeOrder_nodup env.helloHint d.pendingHellos)
    (d, opening) with ⟨hnone, hsame⟩ | ⟨k, -, hread⟩
  · refine Or.inl ⟨?_, hsame⟩
    intro nonce hawaits
    cases hr : helloReads P raw nonce with
    | none => rfl
    | some read =>
      obtain ⟨k, hk, hat⟩ := exists_helloAt P hawaits hr
      have hnot := hnone k ((mem_rangeOrder env.helloHint d.pendingHellos k).mpr hk)
      rw [hat] at hnot
      cases hnot
  · exact Or.inr (helloAt_eq_some P hread)

private theorem tryHellos_congr {raw : Bytes} {d ref : Daemon} {env env' : Surroundings}
    (hhellos : ∀ nonce, (helloReads P raw nonce).isSome →
      (d.Awaits env.now nonce ↔ ref.Awaits env'.now nonce))
    (hone : ∀ nonce nonce', (helloReads P raw nonce).isSome → (helloReads P raw nonce').isSome →
      ref.Awaits env'.now nonce → ref.Awaits env'.now nonce' → nonce = nonce') (opening : Opening) :
    (d.tryHellos P env raw opening).2 = (ref.tryHellos P env' raw opening).2 := by
  rcases tryHellos_opening P d env raw opening with ⟨hnone, hd⟩ | ⟨nonce, read, ha, hr, hd⟩
  · rcases tryHellos_opening P ref env' raw opening with ⟨-, hd'⟩ | ⟨nonce', read', ha', hr', -⟩
    · rw [hd, hd']
    · have hsome : (helloReads P raw nonce').isSome := by rw [hr']; rfl
      rw [hnone nonce' ((hhellos nonce' hsome).mpr ha')] at hr'
      cases hr'
  · have hsome : (helloReads P raw nonce).isSome := by rw [hr]; rfl
    have haref := (hhellos nonce hsome).mp ha
    rcases tryHellos_opening P ref env' raw opening with ⟨hnone, -⟩ | ⟨nonce', read', ha', hr', hd'⟩
    · rw [hnone nonce haref] at hr
      cases hr
    · have hsome' : (helloReads P raw nonce').isSome := by rw [hr']; rfl
      obtain rfl := hone nonce nonce' hsome hsome' haref ha'
      obtain rfl := Option.some.inj (hr.symm.trans hr')
      rw [hd, hd']

/-! ## Delivery depends on the group of the envelope -/

private theorem openEnvelope_congr {groups groups' : GoMap Bytes Group} {content : Bytes}
    (h : ∀ envelope, envelopeOf content = some envelope →
      groups.lookup envelope.g = groups'.lookup envelope.g) :
    openEnvelope P groups content = openEnvelope P groups' content := by
  unfold openEnvelope
  cases he : envelopeOf content with
  | none => rfl
  | some envelope => simp only [h envelope he]

theorem dispatch_delivered {groups groups' : GoMap Bytes Group} {relays : List Bytes}
    {fromPeer content text group : Bytes}
    (hg : ∀ envelope, envelopeOf content = some envelope →
      groups.lookup envelope.g = groups'.lookup envelope.g)
    (h : dispatch P groups relays fromPeer content = .delivered text group) (relays' : List Bytes) :
    dispatch P groups' relays' fromPeer content = .delivered text group := by
  unfold dispatch at h ⊢
  rw [← openEnvelope_congr P hg]
  split at h
  next => cases h
  next hkey =>
    split at h
    next => cases h
    next =>
      rw [contentOutcome_delivered_iff] at h ⊢
      exact h

/-! ## The reading of a message -/

/-- What reading a message in a state depends on is as it is in a reference state: the
peers among those whose key opens it, the pending invitations among those that read it,
and the group that its envelope names; and the reference state is of one mind. -/
structure Agrees (identity : KeyPair) (now : Int) (ref : Daemon) (env : Surroundings) (d : Daemon)
    (raw : Bytes) : Prop where
  peers : ∀ k, Opens P identity raw k → (k ∈ d.peers ↔ k ∈ ref.peers)
  onePeer : ∀ k k', Opens P identity raw k → Opens P identity raw k' → k ∈ ref.peers →
    k' ∈ ref.peers → k = k'
  hellos : ∀ nonce, (helloReads P raw nonce).isSome →
    (d.Awaits env.now nonce ↔ ref.Awaits now nonce)
  oneHello : ∀ nonce nonce', (helloReads P raw nonce).isSome → (helloReads P raw nonce').isSome →
    ref.Awaits now nonce → ref.Awaits now nonce' → nonce = nonce'
  group : ∀ content envelope, (d.openMessage P identity env raw).2.decrypted = some content →
    envelopeOf content = some envelope →
    d.groups.lookup envelope.g = ref.groups.lookup envelope.g

/-- The surroundings of a reader at a given time. -/
def readingAt (now : Int) : Surroundings where
  now := now
  peerHint := []
  helloHint := []
  relays := []
  download _ _ := none
  decryptFile _ _ := none
  writable _ := false

/-- What a state makes of a message. -/
def Daemon.reads (d : Daemon) (identity : KeyPair) (now : Int) (pm : PolledMessage) :
    Option ReceivedMessage :=
  (d.processMessage P identity (readingAt now) pm).received pm

private theorem openMessage_agrees {identity : KeyPair} {now : Int} {ref d : Daemon}
    {env : Surroundings} {raw : Bytes} (h : Agrees P identity now ref env d raw) :
    (d.openMessage P identity env raw).2 = (ref.openMessage P identity (readingAt now) raw).2 := by
  have hpeer := byPeer_congr P h.peers h.onePeer env (readingAt now)
  have hhello : ∀ opening, (d.tryHellos P env raw opening).2 =
      (ref.tryHellos P (readingAt now) raw opening).2 := tryHellos_congr P h.hellos h.oneHello
  simp only [Daemon.openMessage, hpeer]
  split
  · exact hhello _
  · rfl

private theorem received_congr {r r' : Processed} (hfrom : r.fromPeer = r'.fromPeer)
    (h : ∀ text group, r.outcome = .delivered text group ↔ r'.outcome = .delivered text group)
    (pm : PolledMessage) : r.received pm = r'.received pm := by
  unfold Processed.received
  cases ho : r.outcome with
  | delivered text group => rw [(h text group).mp ho, hfrom]
  | _ =>
    cases ho' : r'.outcome with
    | delivered text group =>
      rw [(h text group).mpr ho'] at ho
      cases ho
    | _ => rfl

/-- A message is read in a state as in any state that it agrees with. -/
theorem received_agrees {identity : KeyPair} {now : Int} {ref d : Daemon} {env : Surroundings}
    {pm : PolledMessage} (h : Agrees P identity now ref env d pm.data) :
    (d.processMessage P identity env pm).received pm = ref.reads P identity now pm := by
  unfold Daemon.reads Daemon.processMessage
  split
  · rfl
  have hopen := openMessage_agrees P h
  obtain ⟨hgroups, -⟩ := openMessage_spec P d identity env pm.data
  obtain ⟨hgroups', -⟩ := openMessage_spec P ref identity (readingAt now) pm.data
  have hgroup := h.group
  rw [hopen] at hgroup
  simp only [hopen, hgroups, hgroups']
  cases hc : (ref.openMessage P identity (readingAt now) pm.data).2.decrypted with
  | none => rfl
  | some content =>
    refine received_congr ?_ ?_ pm
    · rfl
    intro text group
    constructor
    · intro hd
      exact dispatch_delivered P (fun envelope he => hgroup content envelope hc he) hd []
    · intro hd
      exact dispatch_delivered P (fun envelope he => (hgroup content envelope hc he).symm) hd env.relays

private theorem processAll_agrees {identity : KeyPair} {now : Int} {ref : Daemon} {d : Daemon}
    {messages : List (Surroundings × PolledMessage)}
    (h : Meets (handling P identity) (fun d x => Agrees P identity now ref x.1 d x.2.data) d messages) :
    (d.processAll P identity messages).2 =
      messages.filterMap (fun x => ref.reads P identity now x.2) := by
  induction messages generalizing d with
  | nil => rfl
  | cons x rest ih =>
    have hrest := ih (h.2 _ rfl)
    simp only [Daemon.processAll, hrest, received_agrees P h.1, List.filterMap_cons]
    cases ref.reads P identity now x.2 <;> rfl

/-! ## The identity stays -/

theorem processAll_identity (identity : KeyPair) (d : Daemon)
    (messages : List (Surroundings × PolledMessage)) :
    (d.processAll P identity messages).1.identity = d.identity := by
  induction messages generalizing d with
  | nil => rfl
  | cons x rest ih =>
    simp only [Daemon.processAll, ih]
    exact (processMessage_fixed P d identity x.1 x.2).1

end Reading

/-! ## Runs of a daemon -/

/-- A running daemon, with all that `PollMessages` has returned so far. -/
structure Node where
  engine : DNSClientEngine
  daemon : Daemon
  delivered : List ReceivedMessage

/-- The calls that change what a daemon can read, with the choices each of them leaves open;
a poll meets a network, the relays behind it, and surroundings for each message. -/
inductive Rpc where
  | addPeer (nickname pubkey : Bytes)
  | removePeer (pubkey : Bytes)
  | generateInviteCode (profileNickname nickname : Bytes) (nonce : InviteNonce) (now : Int)
  | joinViaCode (profileNickname code : Bytes) (nonce : Nonce)
  | pollMessages (net : Network Relays) (w : Relays) (envs : MsgID → Surroundings)

section Runs

variable (P : Primitives)

def Node.pollMessages (n : Node) (net : Network Relays) (w : Relays) (envs : MsgID → Surroundings) :
    Option Node :=
  match n.daemon.identity with
  | none => some n
  | some identity =>
    match (n.engine.pollMessages net P.sha256 identity.pubkeyB64 w).1 with
    | none => none
    | some (polled, engine) =>
      let handled := n.daemon.pollMessages P
        (polled.map (fun msgs => msgs.map (fun m => (envs m.msgID, m))))
      some ⟨engine, handled.1, n.delivered ++ handled.2⟩

/-- One call; it is undefined where the daemon panics. -/
def Node.step (n : Node) : Rpc → Option Node
  | .addPeer nickname pubkey =>
    match n.daemon.addPeer nickname pubkey with
    | .error _ => some n
    | .ok d => some { n with daemon := d }
  | .removePeer pubkey => some { n with daemon := n.daemon.removePeer pubkey }
  | .generateInviteCode profileNickname nickname nonce now =>
    (n.daemon.generateInviteCode profileNickname nickname nonce now).map
      (fun r => { n with daemon := r.1 })
  | .joinViaCode profileNickname code nonce =>
    (n.daemon.joinViaCode P profileNickname code nonce).map (fun r => { n with daemon := r.1 })
  | .pollMessages net w envs => n.pollMessages P net w envs

/-- A call other than a poll leaves the engine, the identity and what was delivered. -/
theorem step_other {n n' : Node} {rpc : Rpc} (h : n.step P rpc = some n')
    (hpoll : ∀ net w envs, rpc ≠ .pollMessages net w envs) :
    n'.engine = n.engine ∧ n'.daemon.identity = n.daemon.identity ∧ n'.delivered = n.delivered := by
  cases rpc with
  | pollMessages net w envs => exact absurd rfl (hpoll net w envs)
  | removePeer pubkey =>
    obtain rfl := Option.some.inj h
    exact ⟨rfl, rfl, rfl⟩
  | addPeer nickname pubkey =>
    simp only [Node.step, Daemon.addPeer] at h
    split at h
    · obtain rfl := Option.some.inj h
      exact ⟨rfl, rfl, rfl⟩
    next d hd =>
      obtain rfl := Option.some.inj h
      split at hd
      · cases hd
      · split at hd
        · cases hd
        · obtain rfl := Except.ok.inj hd
          exact ⟨rfl, rfl, rfl⟩
  | generateInviteCode profileNickname nickname nonce now =>
    obtain ⟨r, hr, rfl⟩ := Option.map_eq_some_iff.mp h
    unfold Daemon.generateInviteCode at hr
    split at hr
    · cases hr
    · simp only at hr
      split at hr
      · obtain rfl := Option.some.inj hr
        exact ⟨rfl, rfl, rfl⟩
      · obtain rfl := Option.some.inj hr
        exact ⟨rfl, rfl, rfl⟩
  | joinViaCode profileNickname code nonce =>
    obtain ⟨r, hr, rfl⟩ := Option.map_eq_some_iff.mp h
    unfold Daemon.joinViaCode at hr
    split at hr
    · obtain rfl := Option.some.inj hr
      exact ⟨rfl, rfl, rfl⟩
    · simp only at hr
      split at hr
      · cases hr
      · split at hr
        · obtain rfl := Option.some.inj hr
          exact ⟨rfl, rfl, rfl⟩
        · obtain rfl := Option.some.inj hr
          exact ⟨rfl, rfl, rfl⟩

/-- In every poll the relays answer, and they offer nothing under an id but what they offer
in the end. -/
def SameMessages (zone : Bytes) (host : Bytes → Bytes) (e : DNSClientEngine) (recipient : Bytes)
    (w : Relays) : Rpc → Prop
  | .pollMessages net w' _ => Reachable zone host net ∧ (∀ site, Reached zone (w' site)) ∧
      ∀ id m, e.offered P.sha256 host recipient w' id = some m →
        e.offered P.sha256 host recipient w id = some m
  | _ => True

/-- Each message that a poll returns is handled in a state that agrees with the reference. -/
def Timely (identity : KeyPair) (now : Int) (ref : Daemon) (n : Node) : Rpc → Prop
  | .pollMessages net w envs => ∀ msgs engine,
      (n.engine.pollMessages net P.sha256 identity.pubkeyB64 w).1 = some (.ok msgs, engine) →
      Meets (handling P identity) (fun d x => Agrees P identity now ref x.1 d x.2.data) n.daemon
        (msgs.map (fun m => (envs m.msgID, m)))
  | _ => True

/-- Where a run that started at `start` stands: what it has fetched since is delivered as
the reference reads it. -/
structure CaughtUp (identity : KeyPair) (now : Int) (ref : Daemon) (host : Bytes → Bytes)
    (w : Relays) (start n : Node) : Prop where
  owner : n.daemon.identity = some identity
  engine : n.engine = { start.engine with fetched := n.engine.fetched }
  fetched : ∀ id, start.engine.hasFetched id = true → n.engine.hasFetched id = true
  delivered : ∀ r, r ∈ n.delivered ↔ r ∈ start.delivered ∨
    ∃ id m, start.engine.offered P.sha256 host identity.pubkeyB64 w id = some m ∧
      start.engine.hasFetched id = false ∧ n.engine.hasFetched id = true ∧
      ref.reads P identity now m = some r

variable {P}

section

variable {zone : Bytes} {host : Bytes → Bytes} {identity : KeyPair} {now : Int} {ref : Daemon}
  {w : Relays} {start n : Node} (hz : ZoneOk zone) (he : start.engine.zone = zone)
  (hn : CaughtUp P identity now ref host w start n)

include hz he hn

/-- A poll returns, and the run has then fetched all that the relays offered in it. -/
theorem caughtUp_poll {net : Network Relays} {w' : Relays} {envs : MsgID → Surroundings}
    (hsame : SameMessages P zone host start.engine identity.pubkeyB64 w (.pollMessages net w' envs))
    (htimely : Timely P identity now ref n (.pollMessages net w' envs)) :
    ∃ n', n.pollMessages P net w' envs = some n' ∧ CaughtUp P identity now ref host w start n' ∧
      ∀ id m, start.engine.offered P.sha256 host identity.pubkeyB64 w' id = some m →
        n'.engine.hasFetched id = true := by
  obtain ⟨hreach, hreached, hoffer⟩ := hsame
  have hez : n.engine.zone = zone := by rw [hn.engine]; exact he
  have hoffered : n.engine.offered = start.engine.offered := by
    rw [hn.engine]
    exact offered_congr start.engine n.engine.fetched
  obtain ⟨msgs, fetched', hpoll, -, hmem, hfetched⟩ := pollMessages_offers hreach hz hez
    (fun site => (hreached site).wellStored) P.sha256 identity.pubkeyB64
  rw [hoffered] at hmem
  have hread := processAll_agrees P (htimely msgs _ hpoll)
  rw [List.filterMap_map] at hread
  have hstep : n.pollMessages P net w' envs = some ⟨{ n.engine with fetched := fetched' },
      (n.daemon.processAll P identity (msgs.map (fun m => (envs m.msgID, m)))).1,
      n.delivered ++ msgs.filterMap (fun m => ref.reads P identity now m)⟩ := by
    simp only [Node.pollMessages, hn.owner, hpoll, Except.map, Daemon.pollMessages, hread]
    rfl
  refine ⟨_, hstep, ⟨?_, ?_, ?_, ?_⟩, ?_⟩
  · rw [processAll_identity]
    exact hn.owner
  · show ({ n.engine with fetched := fetched' } : DNSClientEngine) = { start.engine with fetched := fetched' }
    rw [hn.engine]
  · intro id hid
    exact (hfetched id).mpr (Or.inl (hn.fetched id hid))
  · intro r
    rw [List.mem_append, hn.delivered, List.mem_filterMap]
    constructor
    · rintro ((hold | ⟨id, m, ho, hnew, hf, hr⟩) | ⟨m, hm, hr⟩)
      · exact Or.inl hold
      · exact Or.inr ⟨id, m, ho, hnew, (hfetched id).mpr (Or.inl hf), hr⟩
      · obtain ⟨hunfetched, ho⟩ := (hmem m).mp hm
        have hnew : start.engine.hasFetched m.msgID = false := by
          rw [Bool.eq_false_iff]
          intro hf
          rw [hn.fetched _ hf] at hunfetched
          cases hunfetched
        exact Or.inr ⟨m.msgID, m, hoffer _ _ ho, hnew,
          (hfetched _).mpr (Or.inr (List.mem_map_of_mem hm)), hr⟩
    · rintro (hold | ⟨id, m, ho, hnew, hf, hr⟩)
      · exact Or.inl (Or.inl hold)
      · rcases (hfetched id).mp hf with hf' | hlisted
        · exact Or.inl (Or.inr ⟨id, m, ho, hnew, hf', hr⟩)
        · -- the poll returned something under this id, which is what is offered in the end
          obtain ⟨m', hm', hid⟩ := List.mem_map.mp hlisted
          have ho' := hoffer _ _ ((hmem m').mp hm').2
          rw [hid, ho] at ho'
          obtain rfl := Option.some.inj ho'
          exact Or.inr ⟨m, hm', hr⟩
  · intro id m ho
    apply (hfetched id).mpr
    by_cases hf : n.engine.hasFetched id = true
    · exact Or.inl hf
    · have hid := (offered_source ho).1
      refine Or.inr (List.mem_map.mpr ⟨m, (hmem m).mpr ⟨?_, ?_⟩, hid⟩)
      · rw [hid]
        exact Bool.eq_false_iff.mpr hf
      · rw [hid]
        exact ho

private theorem caughtUp_step {rpc : Rpc} {n' : Node}
    (hsame : SameMessages P zone host start.engine identity.pubkeyB64 w rpc)
    (htimely : Timely P identity now ref n rpc) (hs : n.step P rpc = some n') :
    CaughtUp P identity now ref host w start n' := by
  by_cases hpoll : ∃ net w' envs, rpc = .pollMessages net w' envs
  · obtain ⟨net, w', envs, rfl⟩ := hpoll
    obtain ⟨n'', hstep, hcaught, -⟩ := caughtUp_poll hz he hn hsame htimely
    obtain rfl := Option.some.inj (hstep.symm.trans hs)
    exact hcaught
  · obtain ⟨hengine, hidentity, hdelivered⟩ := step_other P hs
      (fun net w' envs h => hpoll ⟨net, w', envs, h⟩)
    refine ⟨hidentity.trans hn.owner, ?_, ?_, ?_⟩
    · rw [hengine]
      exact hn.engine
    · rw [hengine]
      exact hn.fetched
    · rw [hengine, hdelivered]
      exact hn.delivered

end

/-- A timely run that ends with a poll has delivered exactly what the reference reads of
the messages that were offered in the end and new at the start. -/
theorem run_delivered {zone : Bytes} (hz : ZoneOk zone) {host : Bytes → Bytes} {w : Relays}
    {start t : Node} (he : start.engine.zone = zone) {identity : KeyPair}
    (hid : start.daemon.identity = some identity) {now : Int} {ref : Daemon} {calls : List Rpc}
    {net : Network Relays} {envs : MsgID → Surroundings}
    (hsame : ∀ rpc ∈ calls ++ [.pollMessages net w envs],
      SameMessages P zone host start.engine identity.pubkeyB64 w rpc)
    (htimely : Meets (Node.step P) (Timely P identity now ref) start
      (calls ++ [.pollMessages net w envs]))
    (hr : run (Node.step P) start (calls ++ [.pollMessages net w envs]) = some t) (r : ReceivedMessage) :
    r ∈ t.delivered ↔ r ∈ start.delivered ∨
      ∃ id m, start.engine.offered P.sha256 host identity.pubkeyB64 w id = some m ∧
        start.engine.hasFetched id = false ∧ ref.reads P identity now m = some r := by
  have hstart : CaughtUp P identity now ref host w start start := by
    refine ⟨hid, rfl, fun _ hf => hf, fun r => ⟨Or.inl, ?_⟩⟩
    rintro (hold | ⟨id, m, -, hnew, hf, -⟩)
    · exact hold
    · rw [hf] at hnew
      cases hnew
  obtain ⟨n, hn, hlast⟩ := run_append.mp hr
  obtain ⟨hbefore, hfinal⟩ := meets_append.mp htimely
  have hmessages : Meets (Node.step P) (fun _ rpc =>
      SameMessages P zone host start.engine identity.pubkeyB64 w rpc) start calls :=
    meets_of_forall (fun rpc hrpc => hsame rpc (List.mem_append_left _ hrpc)) start
  have hcaught : CaughtUp P identity now ref host w start n :=
    run_guarded (fun n rpc n' h hok hs => caughtUp_step hz he h hok.1 hok.2 hs) hstart
      (meets_and hmessages hbefore) hn
  obtain ⟨t', hstep, hdone, hfetched⟩ :=
    caughtUp_poll hz he hcaught (hsame _ (List.mem_append_right _ List.mem_cons_self)) (hfinal n hn).1
  obtain ⟨t'', hs, ht⟩ := run_cons.mp hlast
  obtain rfl := Option.some.inj ht
  obtain rfl := Option.some.inj (hstep.symm.trans hs)
  rw [hdone.delivered]
  refine or_congr Iff.rfl ⟨?_, ?_⟩
  · rintro ⟨id, m, ho, hnew, -, hread⟩
    exact ⟨id, m, ho, hnew, hread⟩
  · rintro ⟨id, m, ho, hnew, hread⟩
    exact ⟨id, m, ho, hnew, hfetched id m ho, hread⟩

/-- A daemon with other pending hellos and groups. -/
def Daemon.recalling (d : Daemon) (invited : GoMap Bytes HelloEntry) (groups : GoMap Bytes Group) :
    Daemon :=
  { d with pendingHellos := invited, groups := groups }

theorem agrees_recalling {identity : KeyPair} {now : Int} {d₁ d₂ : Daemon}
    (hpeers : ∀ k, k ∈ d₁.peers ↔ k ∈ d₂.peers) (invited : GoMap Bytes HelloEntry)
    (groups : GoMap Bytes Group) {env : Surroundings} {d : Daemon} {raw : Bytes}
    (h : Agrees P identity now (d₁.recalling invited groups) env d raw) :
    Agrees P identity now (d₂.recalling invited groups) env d raw where
  peers k hk := (h.peers k hk).trans (hpeers k)
  onePeer k k' hk hk' hm hm' := h.onePeer k k' hk hk' ((hpeers k).mpr hm) ((hpeers k').mpr hm')
  hellos := h.hellos
  oneHello := h.oneHello
  group := h.group

private theorem timely_recalling {identity : KeyPair} {now : Int} {d₁ d₂ : Daemon}
    (hpeers : ∀ k, k ∈ d₁.peers ↔ k ∈ d₂.peers) (invited : GoMap Bytes HelloEntry)
    (groups : GoMap Bytes Group) (n : Node) (rpc : Rpc) :
    Timely P identity now (d₁.recalling invited groups) n rpc ↔
      Timely P identity now (d₂.recalling invited groups) n rpc := by
  cases rpc with
  | pollMessages net w envs =>
    refine forall₃_congr fun msgs engine _ => meets_congr (fun d x => ⟨?_, ?_⟩) _ _
    · exact agrees_recalling hpeers invited groups
    · exact agrees_recalling (fun k => (hpeers k).symm) invited groups
  | _ => exact Iff.rfl

/-- Two runs from the same state that poll the same messages and end with the same known
peers have delivered the same after a final poll, if every message meets, when it is
fetched, the peers known at the end whose key opens it, the invitation it answers and the
group key it needs; and then nothing that can be read at the end is missing. -/
theorem deliveries_agree {zone : Bytes} (hz : ZoneOk zone) {host : Bytes → Bytes} {w : Relays}
    {start t₁ t₂ : Node} (he : start.engine.zone = zone) {identity : KeyPair}
    (hid : start.daemon.identity = some identity) {calls₁ calls₂ : List Rpc}
    {net₁ net₂ : Network Relays} {envs₁ envs₂ : MsgID → Surroundings}
    (hsame₁ : ∀ rpc ∈ calls₁ ++ [.pollMessages net₁ w envs₁],
      SameMessages P zone host start.engine identity.pubkeyB64 w rpc)
    (hsame₂ : ∀ rpc ∈ calls₂ ++ [.pollMessages net₂ w envs₂],
      SameMessages P zone host start.engine identity.pubkeyB64 w rpc)
    (hr₁ : run (Node.step P) start (calls₁ ++ [.pollMessages net₁ w envs₁]) = some t₁)
    (hr₂ : run (Node.step P) start (calls₂ ++ [.pollMessages net₂ w envs₂]) = some t₂)
    (hpeers : ∀ k, k ∈ t₁.daemon.peers ↔ k ∈ t₂.daemon.peers)
    (now : Int) (invited : GoMap Bytes HelloEntry) (groups : GoMap Bytes Group)
    (ht₁ : Meets (Node.step P) (Timely P identity now (t₁.daemon.recalling invited groups)) start
      (calls₁ ++ [.pollMessages net₁ w envs₁]))
    (ht₂ : Meets (Node.step P) (Timely P identity now (t₂.daemon.recalling invited groups)) start
      (calls₂ ++ [.pollMessages net₂ w envs₂])) :
    (∀ r, r ∈ t₁.delivered ↔ r ∈ t₂.delivered) ∧
    ∀ id m r, start.engine.offered P.sha256 host identity.pubkeyB64 w id = some m →
      start.engine.hasFetched id = false →
      (t₁.daemon.recalling invited groups).reads P identity now m = some r → r ∈ t₁.delivered := by
  have ht₂' := (meets_congr (fun n rpc => timely_recalling (fun k => (hpeers k).symm) invited groups n rpc)
    start _).mp ht₂
  have h₁ := run_delivered hz he hid hsame₁ ht₁ hr₁
  have h₂ := run_delivered hz he hid hsame₂ ht₂' hr₂
  refine ⟨fun r => (h₁ r).trans (h₂ r).symm, ?_⟩
  intro id m r ho hnew hread
  exact (h₁ r).mpr (Or.inr ⟨id, m, ho, hnew, hread⟩)

end Runs

/-! ## A message and its late sender -/

/-- A signed text from the daemon with key 2 to the one with key 1. -/
def letter : Bytes :=
  ((transportPayload .transparent (identityOf 2) (blend (keyOf 2) (keyOf 1)) (lit "hi")
    someNonce).toOption).getD []

/-- The requests that send the letter in chunks of 32 octets. -/
def posting : List Event :=
  ((chunkMessage Primitives.transparent.sha256 firstID letter 32 (identityOf 1).pubkeyB64).getD []).map
    (fun c => .request ⟨true, 3000000, true, []⟩ [questionName c.bodyLabels (lit "z.org")])

/-- A relay after some requests. -/
def afterRequests (requests : List Event) : ChunkStore :=
  (run (relayStep (lit "z.org")) (newChunkStore 5) requests).getD (newChunkStore 5)

theorem afterRequests_reached (requests : List Event) :
    Reached (lit "z.org") (afterRequests requests) := by
  unfold afterRequests
  cases hr : run (relayStep (lit "z.org")) (newChunkStore 5) requests with
  | none => exact ⟨5, 100, none, [], rfl⟩
  | some s => exact ⟨5, 100, none, requests, hr⟩

def letterPosted : Relays := fun _ => afterRequests posting

def nothingPosted : Relays := fun _ => afterRequests []

def freshNode : Node :=
  ⟨newDNSClientEngine [lit "A"] (lit "z.org"), knowing 1 [], []⟩

def pollOf (w : Relays) : Rpc :=
  .pollMessages (directNetwork (lit "z.org") id ⟨true, 0, true, []⟩) w (fun _ => quiet)

def addSender : Rpc := .addPeer (lit "B") (identityOf 2).pubkeyB64

/-- What the engine returns to the daemon with key 1. -/
def Node.polled (n : Node) (w : Relays) : Option (List PolledMessage) :=
  (n.engine.pollMessages (directNetwork (lit "z.org") id ⟨true, 0, true, []⟩)
    Primitives.transparent.sha256 (identityOf 1).pubkeyB64 w).1.bind (fun r => r.1.toOption)

theorem mem_iff_of_keys {V : Type} {m : GoMap Bytes V} {keys : List Bytes} (h : m.keys = keys)
    (k : Bytes) : k ∈ m ↔ k ∈ keys := by
  rw [← h, AList.mem_keys]

/-- What the engine returns, and the keys of what the daemon would read it with. -/
def Node.glance (n : Node) (w : Relays) :
    Option (List PolledMessage) × List Bytes × List Bytes × List Bytes :=
  (n.polled w, n.daemon.peers.keys, n.daemon.pendingHellos.keys, n.daemon.groups.keys)

theorem polled_eq {n : Node} {w : Relays} {msgs : List PolledMessage} {engine : DNSClientEngine}
    (h : (n.engine.pollMessages (directNetwork (lit "z.org") id ⟨true, 0, true, []⟩)
      Primitives.transparent.sha256 (identityOf 1).pubkeyB64 w).1 = some (.ok msgs, engine)) :
    n.polled w = some msgs := by
  rw [Node.polled, h]
  rfl

private theorem timely_nothing {n : Node} {w : Relays} (h : n.polled w = some []) (now : Int)
    (ref : Daemon) :
    Timely .transparent (identityOf 1) now ref n (pollOf w) := by
  intro msgs engine hpoll
  obtain rfl := Option.some.inj ((polled_eq hpoll).symm.trans h)
  trivial

/-- One message, read by a daemon that knows one peer and has no invitation and no group. -/
theorem timely_alone {n t : Node} {w : Relays} {m : PolledMessage} {k₀ : Bytes}
    (h : n.glance w = (some [m], [k₀], [], [])) (ht : t.daemon.peers.keys = [k₀]) :
    Timely .transparent (identityOf 1) 0 (t.daemon.recalling ∅ ∅) n (pollOf w) := by
  simp only [Node.glance, Prod.mk.injEq] at h
  obtain ⟨hpolled, hpeers, hhellos, hgroups⟩ := h
  intro msgs engine hpoll
  obtain rfl := Option.some.inj ((polled_eq hpoll).symm.trans hpolled)
  have hnone : ∀ (d : Daemon) now nonce, d.pendingHellos.keys = [] → ¬ d.Awaits now nonce := by
    rintro d now nonce hk ⟨nonceHex, entry, hentry, -⟩
    have hm := (mem_iff_of_keys hk nonceHex).mp (mem_iff_lookup.mpr ⟨entry, hentry⟩)
    cases hm
  refine ⟨⟨?_, ?_, ?_, ?_, ?_⟩, fun _ _ => trivial⟩
  · intro k _
    show k ∈ n.daemon.peers ↔ k ∈ t.daemon.peers
    rw [mem_iff_of_keys hpeers, mem_iff_of_keys ht]
  · intro k k' _ _ hk hk'
    have hk₁ := List.mem_singleton.mp ((mem_iff_of_keys ht k).mp hk)
    have hk₂ := List.mem_singleton.mp ((mem_iff_of_keys ht k').mp hk')
    rw [hk₁, hk₂]
  · intro nonce _
    exact iff_of_false (hnone _ _ _ hhellos) (hnone _ _ _ rfl)
  · intro nonce _ _ _ ha
    exact absurd ha (hnone _ _ _ rfl)
  · intro content envelope _ _
    have hout : n.daemon.groups.lookup envelope.g = none := by
      rw [AList.lookup_eq_none, mem_iff_of_keys hgroups]
      simp
    rw [hout]
    rfl

theorem sameMessages_pollOf (requests : List Event) {w : Relays}
    (h : ∀ i m, freshNode.engine.offered Primitives.transparent.sha256 id (identityOf 1).pubkeyB64
        (fun _ => afterRequests requests) i = some m →
      freshNode.engine.offered Primitives.transparent.sha256 id (identityOf 1).pubkeyB64 w i = some m) :
    SameMessages .transparent (lit "z.org") id freshNode.engine (identityOf 1).pubkeyB64 w
      (pollOf (fun _ => afterRequests requests)) :=
  ⟨directNetwork_reachable _ _ _, fun _ => afterRequests_reached requests, h⟩

private theorem nothing_offered (i : MsgID) :
    freshNode.engine.offered Primitives.transparent.sha256 id
    (identityOf 1).pubkeyB64 nothingPosted i = none := by
  rfl

/-- A first poll finds nothing and the sender is added before the second, or there is no
first poll. -/
theorem deliveries_agree_addedInTime :
    ∃ t₁ t₂,
      run (Node.step .transparent) freshNode [addSender, pollOf letterPosted] = some t₁ ∧
      run (Node.step .transparent) freshNode
        [pollOf nothingPosted, addSender, pollOf letterPosted] = some t₂ ∧
      t₁.delivered.map ReceivedMessage.plaintext = [lit "hi"] ∧
      ∀ r, r ∈ t₁.delivered ↔ r ∈ t₂.delivered := by
  obtain ⟨hrun₁, hrun₂⟩ :
      (run (Node.step .transparent) freshNode [addSender, pollOf letterPosted]).map
        (fun t => (t.daemon.peers.keys, t.delivered.map ReceivedMessage.plaintext)) =
          some ([(identityOf 2).pubkeyB64], [lit "hi"]) ∧
      (run (Node.step .transparent) freshNode
        [pollOf nothingPosted, addSender, pollOf letterPosted]).map (fun t => t.daemon.peers.keys) =
          some [(identityOf 2).pubkeyB64] := by
    decide +kernel
  have hglance₁ : (run (Node.step .transparent) freshNode [addSender]).map
      (fun n => n.glance letterPosted) =
        some (some [⟨firstID, letter, 3, 0⟩], [(identityOf 2).pubkeyB64], [], []) := by decide +kernel
  have hglance₂ : (run (Node.step .transparent) freshNode [pollOf nothingPosted, addSender]).map
      (fun n => n.glance letterPosted) =
        some (some [⟨firstID, letter, 3, 0⟩], [(identityOf 2).pubkeyB64], [], []) := by decide +kernel
  obtain ⟨t₁, hr₁, h₁⟩ := Option.map_eq_some_iff.mp hrun₁
  obtain ⟨t₂, hr₂, hk₂⟩ := Option.map_eq_some_iff.mp hrun₂
  obtain ⟨n₁, hn₁, hg₁⟩ := Option.map_eq_some_iff.mp hglance₁
  obtain ⟨n₂, hn₂, hg₂⟩ := Option.map_eq_some_iff.mp hglance₂
  obtain ⟨hk₁, hd₁⟩ := Prod.mk.inj h₁
  refine ⟨t₁, t₂, hr₁, hr₂, hd₁, ?_⟩
  have hsame : ∀ i m, freshNode.engine.offered Primitives.transparent.sha256 id
      (identityOf 1).pubkeyB64 nothingPosted i = some m →
      freshNode.engine.offered Primitives.transparent.sha256 id (identityOf 1).pubkeyB64
        letterPosted i = some m := by
    intro i m hm
    rw [nothing_offered] at hm
    cases hm
  have hletter := sameMessages_pollOf posting (fun _ _ hm => hm)
  have hz : ZoneOk (lit "z.org") := by decide
  refine (@deliveries_agree .transparent (lit "z.org") hz id letterPosted freshNode t₁ t₂ rfl
    (identityOf 1) rfl [addSender] [pollOf nothingPosted, addSender]
    (directNetwork (lit "z.org") id ⟨true, 0, true, []⟩)
    (directNetwork (lit "z.org") id ⟨true, 0, true, []⟩) (fun _ => quiet) (fun _ => quiet)
    ?_ ?_ hr₁ hr₂ ?_ 0 ∅ ∅ ?_ ?_).1
  · intro rpc hrpc
    rcases List.mem_cons.mp hrpc with rfl | hlast
    · trivial
    · obtain rfl := List.mem_singleton.mp hlast
      exact hletter
  · intro rpc hrpc
    rcases List.mem_cons.mp hrpc with rfl | hmore
    · exact sameMessages_pollOf [] hsame
    · rcases List.mem_cons.mp hmore with rfl | hlast
      · trivial
      · obtain rfl := List.mem_singleton.mp hlast
        exact hletter
  · intro k
    rw [mem_iff_of_keys hk₁, mem_iff_of_keys hk₂]
  · refine meets_append.mpr ⟨⟨trivial, fun _ _ => trivial⟩, fun u hu => ⟨?_, fun _ _ => trivial⟩⟩
    obtain rfl := Option.some.inj (hn₁.symm.trans hu)
    exact timely_alone hg₁ hk₁
  · refine meets_append.mpr ⟨⟨?_, fun _ _ => ⟨trivial, fun _ _ => trivial⟩⟩,
      fun u hu => ⟨?_, fun _ _ => trivial⟩⟩
    · exact timely_nothing (by decide +kernel) 0 _
    · obtain rfl := Option.some.inj (hn₂.symm.trans hu)
      exact timely_alone hg₂ hk₂

/-- The sender is added after a poll that already listed their message, rather than before
it: the message is not delivered, then or later. -/
theorem lateSender_lost :
    let w := letterPosted
    (∀ site, Reached (lit "z.org") (w site)) ∧ ∃ t₁ t₂,
      run (Node.step .transparent) freshNode [addSender, pollOf w, pollOf w] = some t₁ ∧
      run (Node.step .transparent) freshNode [pollOf w, addSender, pollOf w] = some t₂ ∧
      t₁.daemon.peers.keys = t₂.daemon.peers.keys ∧
      t₁.delivered.map ReceivedMessage.plaintext = [lit "hi"] ∧ t₂.delivered = [] := by
  intro w
  refine ⟨fun site => afterRequests_reached posting, ?_⟩
  obtain ⟨hearly, hlate⟩ :
      (run (Node.step .transparent) freshNode [addSender, pollOf w, pollOf w]).map
        (fun t => (t.daemon.peers.keys, t.delivered.map ReceivedMessage.plaintext)) =
          some ([(identityOf 2).pubkeyB64], [lit "hi"]) ∧
      (run (Node.step .transparent) freshNode [pollOf w, addSender, pollOf w]).map
        (fun t => (t.daemon.peers.keys, t.delivered)) =
          some ([(identityOf 2).pubkeyB64], []) := by
    decide +kernel
  obtain ⟨t₁, hr₁, h₁⟩ := Option.map_eq_some_iff.mp hearly
  obtain ⟨t₂, hr₂, h₂⟩ := Option.map_eq_some_iff.mp hlate
  obtain ⟨hk₁, hd₁⟩ := Prod.mk.inj h₁
  obtain ⟨hk₂, hd₂⟩ := Prod.mk.inj h₂
  exact ⟨t₁, t₂, hr₁, hr₂, hk₁.trans hk₂.symm, hd₁, hd₂⟩

end VRGram.Client
