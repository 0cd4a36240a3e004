import VRGram.Daemon.Receive

/-!
# The stored version of a group key

A version is an epoch and a key. Key messages of one group arrive in any order, and
each overwrites what is stored. Beside the daemon a run keeps every version of the
group that it started with, received or made, so that the stored one can be compared
with all of them.
-/
namespace VRGram.Client

open VRGram.Lib VRGram.Lib.Maps VRGram.Lib.Strings VRGram.Crypto VRGram.Encoding

set_option autoImplicit false

structure Version where
  epoch : UInt64
  key : Bytes
  deriving DecidableEq

def Group.version (group : Group) : Version := ⟨group.keyEpoch, group.groupKey⟩

def Daemon.version (d : Daemon) (groupID : Bytes) : Option Version :=
  (d.groups.lookup groupID).map Group.version

/-- What a daemon does to its groups: one polled message, or one of the three calls. -/
inductive GroupEvent where
  | message (env : Surroundings) (pm : PolledMessage)
  | create (name : Bytes) (memberPubkeys : List Bytes) (groupKey : Bytes) (unixNano : Int)
      (draw : Draw)
  | leave (groupID : Bytes) (hint : List Bytes)
  | remove (groupID memberPubkey : Bytes) (draw : Draw)

section

variable (P : Primitives)

/-- The step of the daemon; a call that panics is not a step. -/
def groupStep (d : Daemon) : GroupEvent → Option Daemon
  | .message env pm =>
    match d.identity with
    | none => some d
    | some identity => handling P identity d (env, pm)
  | .create name memberPubkeys groupKey unixNano draw =>
    (d.createGroup P name memberPubkeys groupKey unixNano draw).map Prod.fst
  | .leave groupID hint => (d.leaveGroup groupID hint).map Prod.snd
  | .remove groupID memberPubkey draw =>
    (d.removeGroupMember P groupID memberPubkey draw).map Prod.snd

/-- The stored group that the daemon may remove the member from. -/
def Daemon.removable (d : Daemon) (groupID memberPubkey : Bytes) : Option Group :=
  match d.groups.lookup groupID, d.identity with
  | some group, some identity =>
    if group.adminPubkey = identity.pubkeyB64 ∧ memberPubkey ∈ group.members then some group
    else none
  | _, _ => none

/-- The version of the group that an event brings: the one in a key message, the first
one of a new group, or the next one of the stored group if the event removes a member. -/
def brings (groupID : Bytes) (d : Daemon) : GroupEvent → List Version
  | .message env pm =>
    match d.identity with
    | none => []
    | some identity =>
      match (d.processMessage P identity env pm).outcome with
      | .groupKey dist => if groupID = dist.groupID then [⟨dist.keyEpoch, dist.groupKey⟩] else []
      | _ => []
  | .create name memberPubkeys groupKey unixNano draw =>
    match d.createGroup P name memberPubkeys groupKey unixNano draw with
    | some _ => if groupID = newGroupID unixNano then [⟨1, groupKey⟩] else []
    | none => []
  | .leave _ _ => []
  | .remove removed memberPubkey _ =>
    match d.removable removed memberPubkey with
    | some group =>
      if groupID = removed then [⟨group.keyEpoch + 1, rotateGroupKey P group.groupKey⟩] else []
    | none => []

/-- The event deletes the stored group: the daemon leaves it and nobody else is a member. -/
def Deletes (groupID : Bytes) (d : Daemon) : GroupEvent → Prop
  | .leave left _ => groupID = left ∧ ∃ group identity, d.groups.lookup left = some group ∧
      d.identity = some identity ∧ ∀ pubkey ∈ group.members, pubkey = identity.pubkeyB64
  | _ => False

/-! ## What one event does to the stored version -/

theorem version_insert {d after : Daemon} {k : Bytes} {group : Group}
    (h : after.groups = d.groups.insert k group) (groupID : Bytes) :
    after.version groupID = if groupID = k then some group.version else d.version groupID := by
  simp only [Daemon.version, h, lookup_insert_ite]
  split <;> rfl

private theorem version_storeGroupKey (d : Daemon) (dist : KeyDist) (groupID : Bytes) :
    (d.storeGroupKey dist).version groupID =
      if groupID = dist.groupID then some ⟨dist.keyEpoch, dist.groupKey⟩
      else d.version groupID := by
  have hv : ∀ g, (dist.groupAfter g).version = ⟨dist.keyEpoch, dist.groupKey⟩ := by
    intro g
    cases g <;> rfl
  rw [version_insert (d := d) (k := dist.groupID) rfl, hv]

/-- Of all outcomes only a key message reaches the groups. -/
theorem applyOutcome_groups (d : Daemon) (env : Surroundings) (pm : PolledMessage)
    (fromPeer : Bytes) {outcome : Outcome} (h : ∀ dist, outcome ≠ .groupKey dist) :
    (d.applyOutcome env pm fromPeer outcome).groups = d.groups := by
  obtain ⟨peers, groups, files, heq, hgroups⟩ := applyOutcome_frame d env pm fromPeer outcome
  rw [heq]
  exact hgroups h

/-- The groups after a message: those of a key message, or the same as before. -/
theorem processMessage_groups (d : Daemon) (identity : KeyPair) (env : Surroundings)
    (pm : PolledMessage) :
    (∃ dist, (d.processMessage P identity env pm).outcome = .groupKey dist ∧
      (d.processMessage P identity env pm).daemon.groups = (d.storeGroupKey dist).groups) ∨
    (∀ dist, (d.processMessage P identity env pm).outcome ≠ .groupKey dist) ∧
      (d.processMessage P identity env pm).daemon.groups = d.groups := by
  have hopen := (openMessage_spec P d identity env pm.data).1
  unfold Daemon.processMessage
  split
  · exact Or.inr ⟨fun dist => Outcome.noConfusion, rfl⟩
  · dsimp only
    split
    next => exact Or.inr ⟨fun dist => Outcome.noConfusion, hopen⟩
    next content _ =>
      cases hout : dispatch P (d.openMessage P identity env pm.data).1.groups env.relays
          (d.openMessage P identity env pm.data).2.fromPeer content with
      | groupKey dist =>
        refine Or.inl ⟨dist, rfl, ?_⟩
        simp only [Daemon.applyOutcome, Daemon.storeGroupKey, hopen]
      | _ =>
        refine Or.inr ⟨fun dist => Outcome.noConfusion, ?_⟩
        rw [applyOutcome_groups _ _ _ _ (fun dist => Outcome.noConfusion), hopen]

/-- Nothing is brought and the version stays, or the version brought is stored, or the
group is deleted. -/
def Changes (brought : List Version) (deletes : Prop) (before after : Option Version) : Prop :=
  (brought = [] ∧ ¬ deletes ∧ after = before) ∨
    (∃ v, brought = [v] ∧ ¬ deletes ∧ after = some v) ∨ (brought = [] ∧ deletes ∧ after = none)

theorem changes_ite (c : Prop) [Decidable c] (v : Version) (before : Option Version) :
    Changes (if c then [v] else []) False before (if c then some v else before) := by
  by_cases h : c
  · rw [if_pos h, if_pos h]
    exact Or.inr (Or.inl ⟨v, rfl, not_false, rfl⟩)
  · rw [if_neg h, if_neg h]
    exact Or.inl ⟨rfl, not_false, rfl⟩

private theorem message_changes (d : Daemon) (groupID : Bytes) (env : Surroundings)
    (pm : PolledMessage) {after : Daemon} (h : groupStep P d (.message env pm) = some after) :
    Changes (brings P groupID d (.message env pm)) (Deletes groupID d (.message env pm))
      (d.version groupID) (after.version groupID) := by
  unfold groupStep at h
  unfold brings
  cases hid : d.identity with
  | none =>
    simp only [hid] at h
    obtain rfl := Option.some.inj h
    exact Or.inl ⟨rfl, not_false, rfl⟩
  | some identity =>
    simp only [hid] at h
    obtain rfl := Option.some.inj h
    rcases processMessage_groups P d identity env pm with ⟨dist, hout, hg⟩ | ⟨hout, hg⟩
    · have hv : (d.processMessage P identity env pm).daemon.version groupID =
          (d.storeGroupKey dist).version groupID := by simp only [Daemon.version, hg]
      simp only [hout, hv, version_storeGroupKey]
      exact changes_ite _ _ _
    · refine Or.inl ⟨?_, not_false, by simp only [Daemon.version, hg]⟩
      dsimp only
      split
      next dist hd => exact absurd hd (hout dist)
      next => rfl

private theorem create_changes (d : Daemon) (groupID name : Bytes) (memberPubkeys : List Bytes)
    (groupKey : Bytes) (unixNano : Int) (draw : Draw) {after : Daemon}
    (h : groupStep P d (.create name memberPubkeys groupKey unixNano draw) = some after) :
    Changes (brings P groupID d (.create name memberPubkeys groupKey unixNano draw))
      (Deletes groupID d (.create name memberPubkeys groupKey unixNano draw))
      (d.version groupID) (after.version groupID) := by
  obtain ⟨⟨state, outs⟩, hc, rfl⟩ := Option.map_eq_some_iff.mp h
  obtain ⟨identity, -, hg, -⟩ := createGroup_some P hc
  simp only [brings, hc, version_insert hg]
  exact changes_ite _ _ _

private theorem leave_changes (d : Daemon) (groupID left : Bytes) (hint : List Bytes)
    {after : Daemon} (h : groupStep P d (.leave left hint) = some after) :
    Changes (brings P groupID d (.leave left hint)) (Deletes groupID d (.leave left hint))
      (d.version groupID) (after.version groupID) := by
  obtain ⟨⟨result, state⟩, hl, rfl⟩ := Option.map_eq_some_iff.mp h
  rcases leaveGroup_some hl with ⟨hnone, hg⟩ | ⟨group, identity, hgroup, hid, hcases⟩
  · refine Or.inl ⟨rfl, ?_, by simp only [Daemon.version, hg]⟩
    rintro ⟨-, group, -, hgroup, -⟩
    cases hnone.symm.trans hgroup
  rw [ne_eq, Group.leave_empty_iff] at hcases
  have hdeletes : Deletes groupID d (.leave left hint) ↔
      groupID = left ∧ ∀ pubkey ∈ group.members, pubkey = identity.pubkeyB64 := by
    simp [Deletes, hgroup, hid]
  rw [hdeletes]
  rcases hcases with ⟨hall, hg⟩ | ⟨hothers, hg⟩
  · by_cases hk : groupID = left
    · refine Or.inr (Or.inr ⟨rfl, ⟨hk, hall⟩, ?_⟩)
      simp only [Daemon.version, hg, lookup_erase_ite, if_pos hk, Option.map_none]
    · refine Or.inl ⟨rfl, fun h => hk h.1, ?_⟩
      simp only [Daemon.version, hg, lookup_erase_ite, if_neg hk]
  · refine Or.inl ⟨rfl, fun h => hothers h.2, ?_⟩
    rw [version_insert hg]
    split
    next hk =>
      obtain ⟨hkey, hepoch⟩ := group.leave_key identity.pubkeyB64 hint
      rw [hk, Daemon.version, hgroup, Option.map_some, Group.version, Group.version, hkey, hepoch]
    next => rfl

/-- The daemon removes the member exactly from the group that it may remove it from. -/
theorem removable_iff {d : Daemon} {groupID memberPubkey : Bytes} {group : Group} :
    d.removable groupID memberPubkey = some group ↔ ∃ identity,
      d.groups.lookup groupID = some group ∧ d.identity = some identity ∧
        group.adminPubkey = identity.pubkeyB64 ∧ memberPubkey ∈ group.members := by
  unfold Daemon.removable
  cases d.groups.lookup groupID with
  | none => simp
  | some stored =>
    cases d.identity with
    | none => simp
    | some identity =>
      simp only [Option.ite_none_right_eq_some, Option.some.injEq, exists_and_left, exists_eq_left']
      constructor
      · rintro ⟨hmay, rfl⟩
        exact ⟨rfl, hmay⟩
      · rintro ⟨rfl, hmay⟩
        exact ⟨hmay, rfl⟩

private theorem remove_changes (d : Daemon) (groupID removed memberPubkey : Bytes) (draw : Draw)
    {after : Daemon} (h : groupStep P d (.remove removed memberPubkey draw) = some after) :
    Changes (brings P groupID d (.remove removed memberPubkey draw))
      (Deletes groupID d (.remove removed memberPubkey draw))
      (d.version groupID) (after.version groupID) := by
  obtain ⟨⟨result, state⟩, hr, rfl⟩ := Option.map_eq_some_iff.mp h
  cases hmay : d.removable removed memberPubkey with
  | none =>
    cases result with
    | error e =>
      rw [removeGroupMember_error P hr]
      exact Or.inl ⟨by simp only [brings, hmay], not_false, rfl⟩
    | ok outs =>
      obtain ⟨group, hgroup, hmem, -, identity, hid, hadmin, -⟩ := removeGroupMember_ok P hr
      cases hmay.symm.trans (removable_iff.mpr ⟨identity, hgroup, hid, hadmin, hmem⟩)
  | some group =>
    obtain ⟨identity, hgroup, hid, hadmin, hmem⟩ := removable_iff.mp hmay
    obtain ⟨outs, hok⟩ := removeGroupMember_of_admin P hgroup hid hadmin hmem draw
    have hgroups := congrArg Daemon.groups
      (Prod.mk.inj (Option.some.inj (hr.symm.trans hok))).2
    simp only [brings, hmay, version_insert hgroups]
    exact changes_ite _ _ _

theorem groupStep_changes {d after : Daemon} {ev : GroupEvent} (groupID : Bytes)
    (h : groupStep P d ev = some after) :
    Changes (brings P groupID d ev) (Deletes groupID d ev) (d.version groupID)
      (after.version groupID) := by
  cases ev with
  | message env pm => exact message_changes P d groupID env pm h
  | create name memberPubkeys groupKey unixNano draw =>
    exact create_changes P d groupID name memberPubkeys groupKey unixNano draw h
  | leave left hint => exact leave_changes P d groupID left hint h
  | remove removed memberPubkey draw =>
    exact remove_changes P d groupID removed memberPubkey draw h

/-- A call that panics brings and deletes nothing. -/
theorem panic_changes {d : Daemon} {ev : GroupEvent} (groupID : Bytes)
    (h : groupStep P d ev = none) : brings P groupID d ev = [] ∧ ¬ Deletes groupID d ev := by
  cases ev with
  | message env pm =>
    cases hid : d.identity <;> simp [groupStep, handling, hid] at h
  | create name memberPubkeys groupKey unixNano draw =>
    simp only [groupStep, Option.map_eq_none_iff] at h
    exact ⟨by simp only [brings, h], not_false⟩
  | leave left hint =>
    refine ⟨rfl, ?_⟩
    rintro ⟨-, group, identity, hgroup, hid, -⟩
    simp only [groupStep, Option.map_eq_none_iff, Daemon.leaveGroup, hgroup, hid] at h
    split at h <;> cases h
  | remove removed memberPubkey draw =>
    refine ⟨?_, not_false⟩
    cases hmay : d.removable removed memberPubkey with
    | none => simp only [brings, hmay]
    | some group =>
      obtain ⟨identity, hgroup, hid, hadmin, hmem⟩ := removable_iff.mp hmay
      obtain ⟨outs, hok⟩ := removeGroupMember_of_admin P hgroup hid hadmin hmem draw
      rw [groupStep, hok] at h
      cases h

/-! ## Whole runs -/

/-- A daemon and the versions of one group that it has known. -/
structure Watched where
  daemon : Daemon
  known : List Version

def Watched.start (groupID : Bytes) (d : Daemon) : Watched := ⟨d, (d.version groupID).toList⟩

def watchedStep (groupID : Bytes) (w : Watched) (ev : GroupEvent) : Option Watched :=
  (groupStep P w.daemon ev).map
    (fun after => ⟨after, brings P groupID w.daemon ev ++ w.known⟩)

/-- `u` is no newer than `v`, and the same version if it is of the same epoch. -/
def Version.Precedes (u v : Version) : Prop := u.epoch ≤ v.epoch ∧ (u.epoch = v.epoch → u = v)

/-- The daemon stores the newest of the versions it has known. -/
def Newest (groupID : Bytes) (w : Watched) : Prop :=
  match w.daemon.version groupID with
  | none => w.known = []
  | some v => v ∈ w.known ∧ ∀ u ∈ w.known, u.Precedes v

/-- The stored epoch does not go down, and the newest known version is stored. -/
def Advances (groupID : Bytes) (w w' : Watched) : Prop :=
  (∀ u, w.daemon.version groupID = some u →
    ∃ v, w'.daemon.version groupID = some v ∧ u.epoch ≤ v.epoch) ∧ Newest groupID w'

/-- What the event brings is not older than what is stored, and the event does not delete
the group. -/
def InOrder (groupID : Bytes) (w : Watched) (ev : GroupEvent) : Prop :=
  ∀ u, w.daemon.version groupID = some u →
    (∀ v ∈ brings P groupID w.daemon ev, u.Precedes v) ∧ ¬ Deletes groupID w.daemon ev

theorem Version.Precedes.trans {u v w : Version} (h : u.Precedes v) (h' : v.Precedes w) :
    u.Precedes w := by
  refine ⟨UInt64.le_trans h.1 h'.1, fun he => ?_⟩
  have hv : v.epoch = w.epoch := UInt64.le_antisymm h'.1 (he ▸ h.1)
  exact (h.2 (he.trans hv.symm)).trans (h'.2 hv)

theorem Version.Precedes.refl (v : Version) : v.Precedes v := ⟨UInt64.le_refl _, fun _ => rfl⟩

private theorem newest_start (groupID : Bytes) (d : Daemon) :
    Newest groupID (.start groupID d) := by
  unfold Newest Watched.start
  split
  next h => simp [h]
  next v h => simp [h, Version.Precedes.refl]

/-- The core of the argument: from the newest version `u`, storing `v` keeps the newest
version stored exactly when `u` precedes `v`. -/
theorem precedes_iff {known : List Version} {u v : Version} (hmem : u ∈ known)
    (hall : ∀ x ∈ known, x.Precedes u) :
    u.Precedes v ↔ ∀ x ∈ v :: known, x.Precedes v := by
  constructor
  · intro h x hx
    rcases List.mem_cons.mp hx with rfl | hx
    · exact Version.Precedes.refl x
    · exact (hall x hx).trans h
  · exact fun h => h u (List.mem_cons_of_mem v hmem)

/-- From a state that stores the newest version, one event advances exactly when it is in
order. -/
theorem advances_iff {groupID : Bytes} {w : Watched} (hw : Newest groupID w) (ev : GroupEvent) :
    InOrder P groupID w ev ↔
      ∀ w', watchedStep P groupID w ev = some w' → Advances groupID w w' := by
  cases hs : groupStep P w.daemon ev with
  | none =>
    obtain ⟨hb, hkept⟩ := panic_changes P groupID hs
    simp [InOrder, watchedStep, hs, hb, hkept]
  | some after =>
    have hchange := groupStep_changes P groupID hs
    simp only [InOrder, Advances, Newest, watchedStep, hs, Option.map_some, Option.some.injEq,
      forall_eq'] at hw ⊢
    cases hv : w.daemon.version groupID with
    | none =>
      rw [hv] at hchange hw
      rcases hchange with ⟨hb, -, ha⟩ | ⟨v, hb, -, ha⟩ | ⟨hb, -, ha⟩
      · simp [ha, hb, hw]
      · simp [ha, hb, hw, Version.Precedes.refl]
      · simp [ha, hb, hw]
    | some u =>
      rw [hv] at hchange hw
      obtain ⟨hmem, hall⟩ := hw
      rcases hchange with ⟨hb, hkept, ha⟩ | ⟨v, hb, hkept, ha⟩ | ⟨hb, hdeleted, ha⟩
      · simpa [ha, hb, hkept, hmem] using hall
      · have hiff := precedes_iff (v := v) hmem hall
        have hle : u.Precedes v → u.epoch ≤ v.epoch := fun h => h.1
        simp only [ha, hb, hkept, Option.some.injEq, forall_eq', List.mem_singleton, forall_eq,
          not_false_eq_true, and_true, exists_eq_left', List.cons_append,
          List.nil_append, List.mem_cons_self, true_and, ← hiff]
        exact ⟨fun h => ⟨hle h, h⟩, fun h => h.2⟩
      · simp [ha, hdeleted]

end

/-- In every run of a daemon, from any state: the stored epoch of the group never goes
down and the newest version known so far is stored after each event, exactly when each
event in its turn brings no older version and deletes nothing. -/
theorem epochs_never_roll_back_iff (P : Primitives) (groupID : Bytes) (d : Daemon)
    (events : List GroupEvent) :
    Machine.Meets (watchedStep P groupID)
        (fun w ev => ∀ w', watchedStep P groupID w ev = some w' → Advances groupID w w')
        (.start groupID d) events ↔
      Machine.Meets (watchedStep P groupID) (InOrder P groupID) (.start groupID d) events := by
  have hkeep : ∀ w ev w', Newest groupID w → InOrder P groupID w ev →
      watchedStep P groupID w ev = some w' → Newest groupID w' := by
    intro w ev w' hw hok hs
    exact ((advances_iff P hw ev).mp hok w' hs).2
  exact (Machine.meets_iff_of_invariant (fun w ev (hw : Newest groupID w) => advances_iff P hw ev)
    hkeep (newest_start groupID d) events).symm

/-! ## Two key messages in the wrong order -/

/-- A key message of the given epoch, as daemon 1 would send it behind its nonce. -/
def keyMessage (epoch : UInt64) (key : UInt8) : PolledMessage :=
  polledAs (Primitives.transparent.xchacha.sealFramed (blend (keyOf 2) (keyOf 1)) someNonce.val
    (distribution (lit "g5") (keyOf key) epoch none))

def newThenOld : List GroupEvent :=
  [.message quiet (keyMessage 2 8), .message quiet (keyMessage 1 7)]

/-- The version that daemon 2 stores after a run. -/
def versionAfter (events : List GroupEvent) : Option Version :=
  (Machine.run (groupStep .transparent) (knowing 2 [1]) events).bind
    (fun d => d.version (lit "g5"))

theorem newThenOld_rolls_back :
    ∃ events, versionAfter (events.take 1) = some ⟨2, keyOf 8⟩ ∧
      versionAfter events = some ⟨1, keyOf 7⟩ :=
  ⟨newThenOld, by decide +kernel, by decide +kernel⟩

end VRGram.Client
