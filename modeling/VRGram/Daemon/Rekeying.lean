import VRGram.Daemon.Epochs

/-!
# Who can re-key a group

A key message is a text that any known peer can seal. `PollMessages` stores its key and
epoch without asking who the sender is, so whether only the admin re-keys a group is up to
what the other peers send.
-/
namespace VRGram.Client

open VRGram.Lib VRGram.Lib.Maps VRGram.Lib.Machine VRGram.Lib.Strings VRGram.Crypto VRGram.Encoding

set_option autoImplicit false

/-! ## Which messages are key messages -/

/-- A hello is no key message: one text has one type. -/
theorem keyDistOf_hello {plaintext : Bytes} {hello : Bytes × Bytes}
    (h : helloOf plaintext = some hello) : keyDistOf plaintext = none := by
  obtain ⟨ms, hms, htype⟩ := helloOf_type h
  have hsame : Json.stringField helloNames ms (lit "type") =
      Json.stringField keyDistNames ms (lit "type") :=
    Json.field_congr _ _ (by decide) (by decide) (by decide) (by decide) ms
  exact keyDistOf_eq_none hms (hsame.symm.trans htype) (by decide)

section

variable (P : Primitives)

private theorem contentOutcome_ne_groupKey (relays : List Bytes) (fromPeer content groupID : Bytes)
    (dist : KeyDist) : contentOutcome relays fromPeer content groupID ≠ .groupKey dist := by
  have hrelay : ∀ f : Bytes → Outcome, (∀ relay, f relay ≠ .groupKey dist) →
      withRelay relays f ≠ .groupKey dist := by
    intro f hf
    cases relays with
    | nil => exact Outcome.noConfusion
    | cons relay rest => exact hf relay
  have hmedia : mediaOrText relays content groupID ≠ .groupKey dist := by
    unfold mediaOrText
    split
    · exact hrelay _ (fun _ => Outcome.noConfusion)
    · exact Outcome.noConfusion
  unfold contentOutcome
  split
  · split
    · split
      · exact Outcome.noConfusion
      · split
        · exact hrelay _ (fun _ => Outcome.noConfusion)
        · exact hmedia
    · exact hmedia
  · exact Outcome.noConfusion

theorem dispatch_groupKey_iff (groups : GoMap Bytes Group) (relays : List Bytes)
    (fromPeer content : Bytes) (dist : KeyDist) :
    dispatch P groups relays fromPeer content = .groupKey dist ↔ keyDistOf content = some dist := by
  unfold dispatch
  cases hkey : keyDistOf content with
  | some other => simp
  | none =>
    simp only [reduceCtorEq, iff_false]
    split
    · exact Outcome.noConfusion
    · exact contentOutcome_ne_groupKey relays fromPeer _ _ dist

/-- The known peer whose secret opens the message, and the key message that it has sealed. -/
def Daemon.keyText (d : Daemon) (identity : KeyPair) (env : Surroundings) (pm : PolledMessage) :
    Option (Bytes × KeyDist) :=
  if pm.data.length < nonceLength then none
  else
    match d.byPeer P identity env pm.data with
    | ⟨.peer pubkeyStr, _, some content⟩ => (keyDistOf content).map (fun dist => (pubkeyStr, dist))
    | _ => none

/-- Whatever a peer's secret opens is on that peer's account. -/
theorem byPeer_cases (d : Daemon) (identity : KeyPair) (env : Surroundings) (raw : Bytes) :
    (d.byPeer P identity env raw).decrypted = none ∨
      ∃ pubkeyStr fromPeer content,
        d.byPeer P identity env raw = ⟨.peer pubkeyStr, fromPeer, some content⟩ := by
  unfold Daemon.byPeer
  split
  next => exact Or.inl rfl
  next pubkeyStr plaintext _ =>
    have hvia := attributeSender_via P pubkeyStr plaintext
    generalize attributeSender P pubkeyStr plaintext = opening at hvia
    obtain ⟨via, fromPeer, decrypted⟩ := opening
    cases decrypted with
    | none => exact Or.inl rfl
    | some content =>
      obtain rfl : via = .peer pubkeyStr := hvia
      exact Or.inr ⟨pubkeyStr, fromPeer, content, rfl⟩

/-- A message that no peer's secret opens is no key message, even if a hello key opens it. -/
theorem processMessage_of_unopened {d : Daemon} {identity : KeyPair} {env : Surroundings}
    {pm : PolledMessage} (h : (d.byPeer P identity env pm.data).decrypted = none)
    (dist : KeyDist) : (d.processMessage P identity env pm).outcome ≠ .groupKey dist := by
  unfold Daemon.processMessage
  split
  · exact Outcome.noConfusion
  · dsimp only
    rcases (openMessage_spec P d identity env pm.data).2 with ho | ⟨pubkey, nick, text, ho, hhello⟩
    · rw [ho, h]
      exact Outcome.noConfusion
    · rw [ho]
      dsimp only
      rw [Ne, dispatch_groupKey_iff, keyDistOf_hello hhello]
      exact (Option.some_ne_none dist).symm

/-- A message is handled as a key message exactly if a known peer has sealed one. -/
theorem keyText_cases (d : Daemon) (identity : KeyPair) (env : Surroundings) (pm : PolledMessage) :
    (d.keyText P identity env pm = none ∧
      ∀ dist, (d.processMessage P identity env pm).outcome ≠ .groupKey dist) ∨
    ∃ pubkeyStr dist, d.keyText P identity env pm = some (pubkeyStr, dist) ∧
      (d.processMessage P identity env pm).outcome = .groupKey dist ∧
      (d.processMessage P identity env pm).via = .peer pubkeyStr := by
  unfold Daemon.keyText
  by_cases hshort : pm.data.length < nonceLength
  · simp [Daemon.processMessage, hshort]
  · rw [if_neg hshort]
    rcases byPeer_cases P d identity env pm.data with hnone | ⟨pubkeyStr, fromPeer, content, hpeer⟩
    · refine Or.inl ⟨?_, processMessage_of_unopened P hnone⟩
      split
      next heq =>
        rw [heq] at hnone
        cases hnone
      next => rfl
    · rw [processMessage_opened P (Nat.not_lt.mp hshort) hpeer]
      simp only [hpeer, ne_eq, dispatch_groupKey_iff]
      cases keyDistOf content with
      | none => simp
      | some dist => simp

/-- The groups after a message: those of the key message that a known peer has sealed, or
the same as before. -/
theorem processMessage_rekeys (d : Daemon) (identity : KeyPair) (env : Surroundings)
    (pm : PolledMessage) :
    (d.keyText P identity env pm = none ∧
      (d.processMessage P identity env pm).daemon.groups = d.groups) ∨
    ∃ pubkeyStr dist, d.keyText P identity env pm = some (pubkeyStr, dist) ∧
      (d.processMessage P identity env pm).via = .peer pubkeyStr ∧
      (d.processMessage P identity env pm).daemon.groups = (d.storeGroupKey dist).groups := by
  rcases keyText_cases P d identity env pm with ⟨htext, hno⟩ | ⟨pubkeyStr, dist, htext, hout, hvia⟩
  · rcases processMessage_groups P d identity env pm with ⟨dist, hout, -⟩ | ⟨-, hg⟩
    · exact absurd hout (hno dist)
    · exact Or.inl ⟨htext, hg⟩
  · rcases processMessage_groups P d identity env pm with ⟨dist', hout', hg⟩ | ⟨hno, -⟩
    · obtain rfl : dist = dist' := Outcome.groupKey.inj (hout.symm.trans hout')
      exact Or.inr ⟨pubkeyStr, dist, htext, hvia, hg⟩
    · exact absurd hout (hno dist)

/-! ## Who may change a stored group -/

/-- The two texts name one public key. -/
def SameKey (pubkeyStr other : Bytes) : Prop :=
  Base64Std.decodeString pubkeyStr = Base64Std.decodeString other

/-- A message leaves every stored group as it is, apart from those whose creator's secret
has opened it. `creator` names the daemon that created each group. -/
def OnlyAdminRekeys (creator : Bytes → Bytes) (d : Daemon) : GroupEvent → Prop
  | .message env pm =>
    ∀ identity, d.identity = some identity → ∀ groupID group, d.groups.lookup groupID = some group →
      (d.processMessage P identity env pm).daemon.groups.lookup groupID = some group ∨
      ∃ pubkeyStr, (d.processMessage P identity env pm).via = .peer pubkeyStr ∧
        SameKey pubkeyStr (creator groupID)
  | _ => True

/-- A known peer that seals a key message for a stored group is the group's creator, or
the message repeats the version that is stored. -/
def KeysFromCreator (creator : Bytes → Bytes) (d : Daemon) : GroupEvent → Prop
  | .message env pm =>
    ∀ identity, d.identity = some identity → ∀ pubkeyStr dist,
      d.keyText P identity env pm = some (pubkeyStr, dist) →
        SameKey pubkeyStr (creator dist.groupID) ∨
        ∀ v, d.version dist.groupID = some v → v = ⟨dist.keyEpoch, dist.groupKey⟩
  | _ => True

private theorem groupAfter_eq_self_iff (dist : KeyDist) (group : Group) :
    dist.groupAfter (some group) = group ↔ group.version = ⟨dist.keyEpoch, dist.groupKey⟩ := by
  obtain ⟨groupID, name, adminPubkey, members, groupKey, keyEpoch⟩ := group
  simp only [KeyDist.groupAfter, Group.version, Group.mk.injEq, Version.mk.injEq, true_and]
  exact ⟨fun h => ⟨h.2.symm, h.1.symm⟩, fun h => ⟨h.2.symm, h.1.symm⟩⟩

/-- Storing a key message leaves the other groups alone, and its own if it brings nothing new. -/
theorem storeGroupKey_keeps_iff (d : Daemon) (dist : KeyDist) {groupID : Bytes} {group : Group}
    (h : d.groups.lookup groupID = some group) :
    (d.storeGroupKey dist).groups.lookup groupID = some group ↔
      (groupID = dist.groupID → group.version = ⟨dist.keyEpoch, dist.groupKey⟩) := by
  simp only [Daemon.storeGroupKey, lookup_insert_ite]
  by_cases hk : groupID = dist.groupID
  · rw [if_pos hk, ← hk, h, Option.some.injEq, groupAfter_eq_self_iff]
    simp
  · simp [hk, h]

private theorem onlyAdminRekeys_iff (creator : Bytes → Bytes) (d : Daemon) (ev : GroupEvent) :
    OnlyAdminRekeys P creator d ev ↔ KeysFromCreator P creator d ev := by
  cases ev with
  | message env pm =>
    refine forall_congr' fun identity => imp_congr_right fun _ => ?_
    rcases processMessage_rekeys P d identity env pm with
      ⟨htext, hg⟩ | ⟨pubkeyStr, dist, htext, hvia, hg⟩
    · rw [hg, htext]
      exact iff_of_true (fun groupID group hgroup => Or.inl hgroup) (by simp)
    · rw [hg, hvia, htext]
      constructor
      · intro h pubkeyStr' dist' hsome
        obtain ⟨rfl, rfl⟩ := Prod.mk.inj (Option.some.inj hsome)
        by_cases hsame : SameKey pubkeyStr (creator dist.groupID)
        · exact Or.inl hsame
        · refine Or.inr ?_
          intro v hv
          obtain ⟨group, hgroup, rfl⟩ := Option.map_eq_some_iff.mp hv
          rcases h dist.groupID group hgroup with hkept | ⟨pk, hpk, hsame'⟩
          · exact (storeGroupKey_keeps_iff d dist hgroup).mp hkept rfl
          · exact absurd (Via.peer.inj hpk ▸ hsame') hsame
      · intro h groupID group hgroup
        rw [storeGroupKey_keeps_iff d dist hgroup]
        by_cases hk : groupID = dist.groupID
        · subst hk
          rcases h pubkeyStr dist rfl with hsame | hrepeat
          · exact Or.inr ⟨pubkeyStr, rfl, hsame⟩
          · exact Or.inl (fun _ => hrepeat _ (by rw [Daemon.version, hgroup, Option.map_some]))
        · exact Or.inl (fun h => absurd h hk)
  | create => exact Iff.rfl
  | leave => exact Iff.rfl
  | remove => exact Iff.rfl

end

/-- In every run of a daemon, from any state: only messages of a group's creator change a
stored group, exactly when every key message for a stored group that a known peer has
sealed, in its turn, comes from the creator or repeats the stored version. -/
theorem only_admin_rekeys_iff (P : Primitives) (creator : Bytes → Bytes) (d : Daemon)
    (events : List GroupEvent) :
    Meets (groupStep P) (OnlyAdminRekeys P creator) d events ↔
      Meets (groupStep P) (KeysFromCreator P creator) d events :=
  meets_congr (onlyAdminRekeys_iff P creator) d events

/-! ## A removed member re-keys the group -/

/-- Daemon 1 creates a group with member 2 and removes that member. -/
def createThenRemove : List GroupEvent :=
  [.create (lit "team") [(identityOf 2).pubkeyB64] (keyOf 7) 5 ⟨[], fun _ => someNonce⟩,
    .remove (lit "g5") (identityOf 2).pubkeyB64 ⟨[], fun _ => someNonce⟩]

theorem removedMember_rekeys : ∃ (d : Daemon) (group : Group) (pm : PolledMessage),
    run (groupStep .transparent) (knowing 1 [2]) createThenRemove = some d ∧
    d.groups.lookup (lit "g5") = some group ∧ group.adminPubkey = (identityOf 1).pubkeyB64 ∧
    (identityOf 2).pubkeyB64 ∉ group.members ∧ group.keyEpoch = 2 ∧
    (d.processMessage .transparent (identityOf 1) quiet pm).via = .peer (identityOf 2).pubkeyB64 ∧
    (d.processMessage .transparent (identityOf 1) quiet pm).daemon.version (lit "g5") =
      some ⟨1, keyOf 8⟩ := by
  refine ⟨_, _, keyMessage 1 8, rfl, rfl, rfl, ?_, rfl, ?_, ?_⟩
  · decide +kernel
  · decide +kernel
  · decide +kernel

end VRGram.Client
