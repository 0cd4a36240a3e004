import VRGram.Daemon.Peers
import VRGram.Daemon.Receive

/-!
# Invitations

`GenerateInviteCode` notes the nonce of a code, and a hello that `PollMessages` opens with the key
of a noted nonce adds a peer and removes the note. The additions that a run of these calls makes
are recorded here beside the run: every nonce is used at most once and within its lifetime.
-/
namespace VRGram.Client

open VRGram.Lib VRGram.Lib.Maps VRGram.Lib.Strings VRGram.Lib.Machine VRGram.Crypto

set_option autoImplicit false

section Record

variable (P : Primitives)

/-- The peers that the hello loop adds. -/
def loopAdds (now : Int) (raw : Bytes) : Daemon × Opening → List Bytes → List Addition
  | _, [] => []
  | s, nonceHex :: rest =>
    (helloAdds P now raw s nonceHex).toList ++
      loopAdds now raw (helloStep P now raw s nonceHex) rest

/-- The peers that a message adds; the hellos are tried only when no peer's secret opened it. -/
def Daemon.messageAdds (d : Daemon) (identity : KeyPair) (env : Surroundings)
    (pm : PolledMessage) : List Addition :=
  if pm.data.length < nonceLength then []
  else
    let opening := d.byPeer P identity env pm.data
    if opening.decrypted = none then
      loopAdds P env.now pm.data (d, opening) (rangeOrder env.helloHint d.pendingHellos)
    else []

def Daemon.allAdds (d : Daemon) (identity : KeyPair) :
    List (Surroundings × PolledMessage) → List Addition
  | [] => []
  | (env, pm) :: rest =>
    d.messageAdds P identity env pm ++
      ((d.processMessage P identity env pm).daemon).allAdds identity rest

def Daemon.pollAdds (d : Daemon)
    (polled : Except EngineError (List (Surroundings × PolledMessage))) : List Addition :=
  match d.identity, polled with
  | some identity, .ok messages => d.allAdds P identity messages
  | _, _ => []

/-! ## The record is right -/

/-- A round adds nobody, and keeps the state or forgets an entry; or it adds the peer of a hello
that the key of an entry opens, if that has not expired, and forgets the entry. -/
theorem helloAdds_cases (now : Int) (raw : Bytes) (s : Daemon × Opening) (nonceHex : Bytes) :
    (helloAdds P now raw s nonceHex = none ∧
      ((helloStep P now raw s nonceHex).1 = s.1 ∨ (helloStep P now raw s nonceHex).1 =
        { s.1 with pendingHellos := s.1.pendingHellos.erase nonceHex })) ∨
    ∃ entry a, s.1.pendingHellos.lookup nonceHex = some entry ∧
      now - entry.createdAt ≤ helloLifetime ∧ helloAdds P now raw s nonceHex = some a ∧
      a.nonce = entry.nonce ∧ a.time = now ∧
      (∃ plaintext, decryptHello P (deriveHelloKey P entry.nonce) raw = .ok plaintext ∧
        helloOf plaintext = some (a.pubkey, a.nickname)) ∧
      (helloStep P now raw s nonceHex).1 =
        { s.1 with
          peers := s.1.peers.insert a.pubkey ⟨a.nickname, a.pubkey⟩
          pendingHellos := s.1.pendingHellos.erase nonceHex } := by
  unfold helloAdds helloStep helloRound
  split
  next => exact Or.inl ⟨rfl, Or.inl rfl⟩
  next entry hentry =>
    split
    next => exact Or.inl ⟨rfl, Or.inr rfl⟩
    next hyoung =>
      split
      next => exact Or.inl ⟨rfl, Or.inl rfl⟩
      next plaintext hdecrypt =>
        split
        next => exact Or.inl ⟨rfl, Or.inl rfl⟩
        next pubkey nick hhello =>
          exact Or.inr ⟨entry, ⟨entry.nonce, pubkey, nick, now⟩, hentry, Int.not_lt.mp hyoung, rfl,
            rfl, rfl, ⟨plaintext, hdecrypt, hhello⟩, rfl⟩

/-- The peers after the loop are those before it and the recorded ones. -/
theorem helloLoop_peers (now : Int) (raw : Bytes) (s : Daemon × Opening) (order : List Bytes) :
    (order.foldl (helloStep P now raw) s).1.peers =
      (loopAdds P now raw s order).foldl
        (fun peers a => peers.insert a.pubkey ⟨a.nickname, a.pubkey⟩) s.1.peers := by
  induction order generalizing s with
  | nil => rfl
  | cons nonceHex rest ih =>
    rw [List.foldl_cons, ih, loopAdds, List.foldl_append]
    rcases helloAdds_cases P now raw s nonceHex with
      ⟨hnone, hsame | hforgot⟩ | ⟨entry, a, -, -, hadds, -, -, -, hstep⟩
    · rw [hnone, hsame]
      rfl
    · rw [hnone, hforgot]
      rfl
    · rw [hadds, hstep]
      rfl

private theorem mem_added (adds : List Addition) (peers : GoMap Bytes PeerInfoEntry) (k : Bytes) :
    k ∈ adds.foldl (fun peers a => peers.insert a.pubkey ⟨a.nickname, a.pubkey⟩) peers ↔
      k ∈ peers ∨ k ∈ adds.map Addition.pubkey := by
  induction adds generalizing peers with
  | nil => simp
  | cons a rest ih =>
    rw [List.foldl_cons, ih, AList.mem_insert, List.map_cons, List.mem_cons, ← or_assoc,
      or_comm (b := k ∈ peers)]

/-- The peers after a message are those before it and the recorded ones. -/
theorem mem_messagePeers (d : Daemon) (identity : KeyPair) (env : Surroundings)
    (pm : PolledMessage) (k : Bytes) :
    k ∈ (d.processMessage P identity env pm).daemon.peers ↔
      k ∈ d.peers ∨ k ∈ (d.messageAdds P identity env pm).map Addition.pubkey := by
  unfold Daemon.messageAdds
  by_cases hlen : pm.data.length < nonceLength
  · rw [if_pos hlen, Daemon.processMessage, if_pos hlen]
    simp
  · rw [if_neg hlen, mem_processMessage_peers P d identity env (Nat.not_lt.mp hlen),
      Daemon.openMessage]
    dsimp only
    split
    · rw [Daemon.tryHellos, helloLoop_peers]
      exact mem_added _ _ k
    · simp

private theorem mem_allPeers (d : Daemon) (identity : KeyPair)
    (messages : List (Surroundings × PolledMessage)) (k : Bytes) :
    k ∈ (d.processAll P identity messages).1.peers ↔
      k ∈ d.peers ∨ k ∈ (d.allAdds P identity messages).map Addition.pubkey := by
  induction messages generalizing d with
  | nil => simp [Daemon.processAll, Daemon.allAdds]
  | cons m rest ih =>
    obtain ⟨env, pm⟩ := m
    have hrest := ih (d.processMessage P identity env pm).daemon
    rw [mem_messagePeers, or_assoc, ← List.mem_append, ← List.map_append] at hrest
    exact hrest

private theorem mem_pollPeers (d : Daemon)
    (polled : Except EngineError (List (Surroundings × PolledMessage))) (k : Bytes) :
    k ∈ (d.pollMessages P polled).1.peers ↔
      k ∈ d.peers ∨ k ∈ (d.pollAdds P polled).map Addition.pubkey := by
  unfold Daemon.pollMessages Daemon.pollAdds
  cases d.identity with
  | none => simp
  | some identity =>
    cases polled with
    | error e => simp
    | ok messages => exact mem_allPeers P d identity messages k

end Record

/-! ## What holds along a run -/

/-- The pending entries, the codes that were generated and the additions that were made: an entry
is of a generated code whose nonce has not been used, no nonce has been used twice, and every use
was in time. -/
structure Invited (pending : GoMap Bytes HelloEntry) (generated : List (Bytes × Int))
    (added : List Addition) : Prop where
  unused : ∀ nonceHex entry, pending.lookup nonceHex = some entry →
    nonceHex = hexEncode entry.nonce ∧ (entry.nonce, entry.createdAt) ∈ generated ∧
      entry.nonce ∉ added.map Addition.nonce
  once : (added.map Addition.nonce).Nodup
  inTime : ∀ a ∈ added, ∃ created, (a.nonce, created) ∈ generated ∧ a.time - created ≤ helloLifetime

section Steps

variable {P : Primitives} {generated : List (Bytes × Int)} {added : List Addition}

theorem Invited.erase {pending : GoMap Bytes HelloEntry} (h : Invited pending generated added)
    (nonceHex : Bytes) : Invited (pending.erase nonceHex) generated added := by
  refine ⟨fun k entry hk => ?_, h.once, h.inTime⟩
  exact h.unused k entry (lookup_erase_eq_some.mp hk).2

/-- A use removes the entry, and no other entry has its nonce. -/
theorem Invited.use {pending : GoMap Bytes HelloEntry} (h : Invited pending generated added)
    {nonceHex : Bytes} {entry : HelloEntry} (hentry : pending.lookup nonceHex = some entry)
    {a : Addition} (hnonce : a.nonce = entry.nonce)
    (htime : a.time - entry.createdAt ≤ helloLifetime) :
    Invited (pending.erase nonceHex) generated (added ++ [a]) := by
  obtain ⟨hhex, hgenerated, hfresh⟩ := h.unused nonceHex entry hentry
  constructor
  · intro k other hk
    obtain ⟨hne, hk⟩ := lookup_erase_eq_some.mp hk
    obtain ⟨hkhex, hkgen, hkfresh⟩ := h.unused k other hk
    refine ⟨hkhex, hkgen, ?_⟩
    rw [List.map_append, List.mem_append, List.map_singleton, List.mem_singleton, hnonce]
    intro hused
    rcases hused with hused | hsame
    · exact hkfresh hused
    · exact hne (by rw [hkhex, hhex, hsame])
  · rw [List.map_append, List.map_singleton, hnonce, ← List.concat_eq_append, List.nodup_concat]
    exact ⟨hfresh, h.once⟩
  · intro b hb
    rcases List.mem_append.mp hb with hb | hb
    · exact h.inTime b hb
    · obtain rfl := List.mem_singleton.mp hb
      exact ⟨entry.createdAt, by rw [hnonce]; exact hgenerated, htime⟩

private theorem invited_helloStep {now : Int} {raw : Bytes} {s : Daemon × Opening}
    {nonceHex : Bytes} (h : Invited s.1.pendingHellos generated added) :
    Invited (helloStep P now raw s nonceHex).1.pendingHellos generated
      (added ++ (helloAdds P now raw s nonceHex).toList) := by
  rcases helloAdds_cases P now raw s nonceHex with
    ⟨hnone, hsame | hforgot⟩ | ⟨entry, a, hentry, hfresh, hadds, hnonce, htime, -, hstep⟩
  · rw [hnone, hsame, Option.toList_none, List.append_nil]
    exact h
  · rw [hnone, hforgot, Option.toList_none, List.append_nil]
    exact h.erase nonceHex
  · rw [hadds, hstep]
    exact h.use hentry hnonce (by rw [htime]; exact hfresh)

private theorem invited_loop {now : Int} {raw : Bytes} {s : Daemon × Opening} (order : List Bytes)
    (h : Invited s.1.pendingHellos generated added) :
    Invited (order.foldl (helloStep P now raw) s).1.pendingHellos generated
      (added ++ loopAdds P now raw s order) := by
  induction order generalizing s added with
  | nil =>
    rw [loopAdds, List.append_nil]
    exact h
  | cons nonceHex rest ih =>
    rw [loopAdds, ← List.append_assoc]
    exact ih (invited_helloStep h)

private theorem invited_message {d : Daemon} (identity : KeyPair) (env : Surroundings)
    (pm : PolledMessage) (h : Invited d.pendingHellos generated added) :
    Invited (d.processMessage P identity env pm).daemon.pendingHellos generated
      (added ++ d.messageAdds P identity env pm) := by
  unfold Daemon.messageAdds
  by_cases hlen : pm.data.length < nonceLength
  · rw [if_pos hlen, List.append_nil, Daemon.processMessage, if_pos hlen]
    exact h
  · obtain ⟨_, _, _, hprocess⟩ := processMessage_frame P d identity env (Nat.not_lt.mp hlen)
    rw [if_neg hlen, hprocess, Daemon.openMessage]
    dsimp only
    split
    · exact invited_loop _ h
    · rw [List.append_nil]
      exact h

private theorem invited_all {d : Daemon} (identity : KeyPair)
    (messages : List (Surroundings × PolledMessage)) (h : Invited d.pendingHellos generated added) :
    Invited (d.processAll P identity messages).1.pendingHellos generated
      (added ++ d.allAdds P identity messages) := by
  induction messages generalizing d added with
  | nil =>
    rw [Daemon.allAdds, List.append_nil]
    exact h
  | cons m rest ih =>
    obtain ⟨env, pm⟩ := m
    rw [Daemon.allAdds, ← List.append_assoc]
    exact ih (invited_message identity env pm h)

private theorem invited_poll {d : Daemon}
    (polled : Except EngineError (List (Surroundings × PolledMessage)))
    (h : Invited d.pendingHellos generated added) :
    Invited (d.pollMessages P polled).1.pendingHellos generated (added ++ d.pollAdds P polled) := by
  unfold Daemon.pollMessages Daemon.pollAdds
  have hidle : Invited d.pendingHellos generated (added ++ []) := by
    rw [List.append_nil]
    exact h
  cases d.identity with
  | none => exact hidle
  | some identity =>
    cases polled with
    | error e => exact hidle
    | ok messages => exact invited_all identity messages h

/-- A code with a new nonce adds an entry. -/
theorem invited_generate {pending : GoMap Bytes HelloEntry} (h : Invited pending generated added)
    {nonce : Bytes} (hnew : nonce ∉ generated.map Prod.fst) (pubkey nickname : Bytes) (now : Int) :
    Invited (pending.insert (hexEncode nonce) ⟨nonce, pubkey, nickname, now⟩)
      (generated ++ [(nonce, now)]) added := by
  have hunused : nonce ∉ added.map Addition.nonce := by
    intro hused
    obtain ⟨a, ha, rfl⟩ := List.mem_map.mp hused
    obtain ⟨created, hcreated, -⟩ := h.inTime a ha
    exact hnew (List.mem_map.mpr ⟨_, hcreated, rfl⟩)
  constructor
  · intro k entry hk
    rw [lookup_insert_ite] at hk
    split at hk
    next hkey =>
      obtain rfl := Option.some.inj hk
      exact ⟨hkey, List.mem_append_right _ (List.mem_singleton.mpr rfl), hunused⟩
    next =>
      obtain ⟨hhex, hgenerated, hfresh⟩ := h.unused k entry hk
      exact ⟨hhex, List.mem_append_left _ hgenerated, hfresh⟩
  · exact h.once
  · intro a ha
    obtain ⟨created, hcreated, htime⟩ := h.inTime a ha
    exact ⟨created, List.mem_append_left _ hcreated, htime⟩

end Steps

/-! ## Runs -/

inductive InviteCall where
  | generateInviteCode (profileNickname nickname : Bytes) (nonce : InviteNonce) (now : Int)
  | pollMessages (polled : Except EngineError (List (Surroundings × PolledMessage)))

inductive InviteEvent where
  | generated (nonce : Bytes) (time : Int)
  | added (a : Addition)
  deriving DecidableEq

section Runs

variable (P : Primitives)

def inviteStep (d : Daemon) : InviteCall → Option Daemon
  | .generateInviteCode profileNickname nickname nonce now =>
    (d.generateInviteCode profileNickname nickname nonce now).map Prod.fst
  | .pollMessages polled => some (d.pollMessages P polled).1

/-- The codes that a call hands out and the peers that it adds. -/
def inviteEvents (d : Daemon) : InviteCall → List InviteEvent
  | .generateInviteCode profileNickname nickname nonce now =>
    match d.generateInviteCode profileNickname nickname nonce now with
    | some (_, .ok _) => [.generated nonce.val now]
    | _ => []
  | .pollMessages polled => (d.pollAdds P polled).map .added

/-- The nonces of the codes with the times at which they were generated. -/
def codesOf (events : List InviteEvent) : List (Bytes × Int) :=
  events.filterMap fun
    | .generated nonce time => some (nonce, time)
    | .added _ => none

def additionsOf (events : List InviteEvent) : List Addition :=
  events.filterMap fun
    | .generated _ _ => none
    | .added a => some a

variable {P}

theorem codesOf_append (xs ys : List InviteEvent) : codesOf (xs ++ ys) = codesOf xs ++ codesOf ys :=
  List.filterMap_append

theorem additionsOf_append (xs ys : List InviteEvent) :
    additionsOf (xs ++ ys) = additionsOf xs ++ additionsOf ys :=
  List.filterMap_append

private theorem codesOf_added (adds : List Addition) : codesOf (adds.map .added) = [] := by
  simp [codesOf, List.filterMap_map]

theorem additionsOf_added (adds : List Addition) : additionsOf (adds.map .added) = adds := by
  simp [additionsOf, List.filterMap_map]

/-- Generating a code notes its nonce, or fails and does nothing. -/
theorem generateInviteCode_cases {d t : Daemon} {profileNickname nickname : Bytes}
    {nonce : InviteNonce} {now : Int}
    (h : (d.generateInviteCode profileNickname nickname nonce now).map Prod.fst = some t) :
    (inviteEvents P d (.generateInviteCode profileNickname nickname nonce now) = [] ∧ t = d) ∨
    ∃ pubkey noted,
      inviteEvents P d (.generateInviteCode profileNickname nickname nonce now) =
        [.generated nonce.val now] ∧
      t = { d with pendingHellos :=
        d.pendingHellos.insert (hexEncode nonce.val) ⟨nonce.val, pubkey, noted, now⟩ } := by
  cases hid : d.identity with
  | none => simp [Daemon.generateInviteCode, hid] at h
  | some identity =>
    cases hcode : Crypto.generateInviteCode identity.publicKey
        (inviteNickname profileNickname nickname) nonce with
    | error e =>
      simp only [Daemon.generateInviteCode, hid, hcode, Option.map_some, Option.some.injEq] at h
      refine Or.inl ⟨?_, h.symm⟩
      simp only [inviteEvents, Daemon.generateInviteCode, hid, hcode]
    | ok code =>
      simp only [Daemon.generateInviteCode, hid, hcode, Option.map_some, Option.some.injEq] at h
      refine Or.inr ⟨identity.pubkeyB64, inviteNickname profileNickname nickname, ?_, h.symm⟩
      simp only [inviteEvents, Daemon.generateInviteCode, hid, hcode]

/-- One call, as long as the nonces of the codes are distinct. -/
theorem invited_step {d t : Daemon} {call : InviteCall} {events : List InviteEvent}
    (hstep : inviteStep P d call = some t)
    (hdistinct : ((codesOf (events ++ inviteEvents P d call)).map Prod.fst).Nodup)
    (h : Invited d.pendingHellos (codesOf events) (additionsOf events)) :
    Invited t.pendingHellos (codesOf (events ++ inviteEvents P d call))
      (additionsOf (events ++ inviteEvents P d call)) := by
  cases call with
  | generateInviteCode profileNickname nickname nonce now =>
    rcases generateInviteCode_cases (P := P) hstep with ⟨hnone, rfl⟩ | ⟨pubkey, noted, hevent, rfl⟩
    · rw [hnone, List.append_nil]
      exact h
    · rw [hevent, codesOf_append] at hdistinct
      rw [hevent, codesOf_append, additionsOf_append]
      have hnew : nonce.val ∉ (codesOf events).map Prod.fst := by
        rw [List.map_append] at hdistinct
        intro hmem
        exact (List.nodup_append.mp hdistinct).2.2 _ hmem _ (List.mem_singleton.mpr rfl) rfl
      show Invited _ (codesOf events ++ [(nonce.val, now)]) (additionsOf events ++ [])
      rw [List.append_nil]
      exact invited_generate h hnew pubkey noted now
  | pollMessages polled =>
    obtain rfl := Option.some.inj hstep
    rw [codesOf_append, additionsOf_append, inviteEvents, codesOf_added, additionsOf_added,
      List.append_nil]
    exact invited_poll polled h

/-- A run from a daemon without pending hellos, if the nonces of its codes are distinct. -/
theorem invited_run {d t : Daemon} (hfresh : d.pendingHellos = ∅) {calls : List InviteCall}
    (hrun : run (inviteStep P) d calls = some t)
    (hdistinct : ((codesOf (outputs (inviteStep P) (inviteEvents P) d calls)).map Prod.fst).Nodup) :
    Invited t.pendingHellos (codesOf (outputs (inviteStep P) (inviteEvents P) d calls))
      (additionsOf (outputs (inviteStep P) (inviteEvents P) d calls)) := by
  -- the nonces of a beginning of the run are distinct when those of the whole run are
  have hstep : ∀ (s : Daemon) (call : InviteCall) (s' : Daemon) (got : List InviteEvent),
      (((codesOf got).map Prod.fst).Nodup →
        Invited s.pendingHellos (codesOf got) (additionsOf got)) →
      inviteStep P s call = some s' →
      ((codesOf (got ++ inviteEvents P s call)).map Prod.fst).Nodup →
      Invited s'.pendingHellos (codesOf (got ++ inviteEvents P s call))
        (additionsOf (got ++ inviteEvents P s call)) := by
    intro s call s' got hgot hs hnodup
    have hfront : ((codesOf got).map Prod.fst).Nodup := by
      rw [codesOf_append, List.map_append] at hnodup
      exact (List.nodup_append.mp hnodup).1
    exact invited_step hs hnodup (hgot hfront)
  have hstart : ((codesOf []).map Prod.fst).Nodup →
      Invited d.pendingHellos (codesOf []) (additionsOf []) := by
    intro _
    rw [hfresh]
    refine ⟨?_, List.nodup_nil, ?_⟩
    · intro k entry hk
      rw [AList.lookup_empty] at hk
      cases hk
    · intro a ha
      cases ha
  have hinvited := run_outputs hstep hstart hrun
  rw [List.nil_append] at hinvited
  exact hinvited hdistinct

/-- The peers after a run are those before it and the recorded ones. -/
theorem mem_runPeers {d t : Daemon} {calls : List InviteCall}
    (hrun : run (inviteStep P) d calls = some t) (k : Bytes) :
    k ∈ t.peers ↔ k ∈ d.peers ∨
      k ∈ (additionsOf (outputs (inviteStep P) (inviteEvents P) d calls)).map Addition.pubkey := by
  have hstep : ∀ (s : Daemon) (call : InviteCall) (s' : Daemon) (got : List InviteEvent),
      (k ∈ s.peers ↔ k ∈ d.peers ∨ k ∈ (additionsOf got).map Addition.pubkey) →
      inviteStep P s call = some s' →
      (k ∈ s'.peers ↔ k ∈ d.peers ∨
        k ∈ (additionsOf (got ++ inviteEvents P s call)).map Addition.pubkey) := by
    intro s call s' got hgot hs
    cases call with
    | generateInviteCode profileNickname nickname nonce now =>
      rcases generateInviteCode_cases (P := P) hs with ⟨hnone, rfl⟩ | ⟨pubkey, noted, hevent, rfl⟩
      · rw [hnone, List.append_nil]
        exact hgot
      · rw [hevent, additionsOf_append]
        simpa [additionsOf] using hgot
    | pollMessages polled =>
      obtain rfl := Option.some.inj hs
      rw [mem_pollPeers, hgot, inviteEvents, additionsOf_append, additionsOf_added,
        List.map_append, List.mem_append, or_assoc]
  have hnothing : k ∈ d.peers ↔ k ∈ d.peers ∨ k ∈ (additionsOf []).map Addition.pubkey := by
    simp [additionsOf]
  exact run_outputs hstep hnothing hrun

/-- Along every run of `GenerateInviteCode` and `PollMessages` calls from a daemon without pending
hellos, over any messages, if the nonces of the codes are distinct: every nonce causes at most one
addition, every addition answers a code generated at most 24 hours before, and there are no more
additions than codes. The additions are the peers that the run adds, so that there are no more new
peers than codes either. -/
theorem invites_singleUse (P : Primitives) {d t : Daemon} (hfresh : d.pendingHellos = ∅)
    {calls : List InviteCall} (hrun : run (inviteStep P) d calls = some t)
    (hdistinct : ((codesOf (outputs (inviteStep P) (inviteEvents P) d calls)).map Prod.fst).Nodup) :
    (∀ nonce, ((additionsOf (outputs (inviteStep P) (inviteEvents P) d calls)).map
      Addition.nonce).count nonce ≤ 1) ∧
    (∀ a ∈ additionsOf (outputs (inviteStep P) (inviteEvents P) d calls), ∃ created,
      (a.nonce, created) ∈ codesOf (outputs (inviteStep P) (inviteEvents P) d calls) ∧
        a.time - created ≤ helloLifetime) ∧
    (additionsOf (outputs (inviteStep P) (inviteEvents P) d calls)).length ≤
      (codesOf (outputs (inviteStep P) (inviteEvents P) d calls)).length ∧
    (∀ pubkey, pubkey ∈ t.peers ↔ pubkey ∈ d.peers ∨
      pubkey ∈ (additionsOf (outputs (inviteStep P) (inviteEvents P) d calls)).map
        Addition.pubkey) ∧
    (t.peers.keys.filter (fun pubkey => pubkey ∉ d.peers)).length ≤
      (codesOf (outputs (inviteStep P) (inviteEvents P) d calls)).length := by
  obtain ⟨-, honce, htime⟩ := invited_run hfresh hrun hdistinct
  have hpeers := mem_runPeers (P := P) hrun
  have hsubset :
      (additionsOf (outputs (inviteStep P) (inviteEvents P) d calls)).map Addition.nonce ⊆
        (codesOf (outputs (inviteStep P) (inviteEvents P) d calls)).map Prod.fst := by
    intro nonce hnonce
    obtain ⟨a, ha, rfl⟩ := List.mem_map.mp hnonce
    obtain ⟨created, hcreated, -⟩ := htime a ha
    exact List.mem_map.mpr ⟨_, hcreated, rfl⟩
  have hlength := (List.subperm_of_subset honce hsubset).length_le
  rw [List.length_map, List.length_map] at hlength
  have hnew : t.peers.keys.filter (fun pubkey => pubkey ∉ d.peers) ⊆
      (additionsOf (outputs (inviteStep P) (inviteEvents P) d calls)).map Addition.pubkey := by
    intro pubkey hpubkey
    obtain ⟨hmem, hunknown⟩ := List.mem_filter.mp hpubkey
    exact ((hpeers pubkey).mp (AList.mem_keys.mpr hmem)).resolve_left (of_decide_eq_true hunknown)
  have hcount := (List.subperm_of_subset (t.peers.keys_nodup.filter _) hnew).length_le
  rw [List.length_map] at hcount
  exact ⟨List.nodup_iff_count_le_one.mp honce, htime, hlength, hpeers, hcount.trans hlength⟩

end Runs

def oneCode : InviteNonce := zeroID

/-- The hello of the second identity for that code. -/
def helloForOneCode : Bytes :=
  Primitives.transparent.xchacha.sealFramed (deriveHelloKey .transparent oneCode.val) someNonce.val
    (helloPayload (identityOf 2).pubkeyB64 (lit "bo"))

/-- A code is generated, and its hello arrives twice. -/
def helloTwice : List InviteCall :=
  [.generateInviteCode [] (lit "al") oneCode 0,
    .pollMessages (.ok [(quiet, polledAs helloForOneCode), (quiet, polledAs helloForOneCode)])]

theorem invites_singleUse_helloTwice :
    additionsOf (outputs (inviteStep .transparent) (inviteEvents .transparent) (knowing 1 [])
      helloTwice) = [⟨oneCode.val, (identityOf 2).pubkeyB64, lit "bo", 0⟩] ∧
    (additionsOf (outputs (inviteStep .transparent) (inviteEvents .transparent) (knowing 1 [])
      helloTwice)).length ≤ (codesOf (outputs (inviteStep .transparent) (inviteEvents .transparent)
        (knowing 1 []) helloTwice)).length := by
  refine ⟨by decide +kernel, ?_⟩
  obtain ⟨t, ht⟩ : ∃ t, run (inviteStep .transparent) (knowing 1 []) helloTwice = some t :=
    ⟨_, rfl⟩
  exact (invites_singleUse .transparent (d := knowing 1 []) rfl ht (by decide +kernel)).2.2.1

end VRGram.Client
