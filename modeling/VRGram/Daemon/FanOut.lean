import VRGram.Daemon.Epochs
import VRGram.Daemon.Membership
import VRGram.Daemon.Revocation
import VRGram.Daemon.Send

/-!
# Who a group message goes to

`SendMessage` reads the recipients of a group message from the sender's own copy of the group.
The creator's copy has the members that were asked for. The key message does not name them,
so the copy that another member makes of it has none.
-/
namespace VRGram.Client

open VRGram.Lib VRGram.Lib.Maps VRGram.Lib.Strings VRGram.Crypto VRGram.Encoding

set_option autoImplicit false

section

variable (P : Primitives)

/-- A decrypted text with the surroundings it meets and the sender it is attributed to. -/
structure OpenedText where
  env : Surroundings
  pm : PolledMessage
  fromPeer : Bytes
  text : Bytes

/-- What `PollMessages` does with a text once it is decrypted. -/
def Daemon.receive (d : Daemon) (r : OpenedText) : Daemon :=
  d.applyOutcome r.env r.pm r.fromPeer (dispatch P d.groups r.env.relays r.fromPeer r.text)

/-- The daemon of a member once a group is set up: that of the creator after `CreateGroup`, or
that of another member, who did not know the group, after texts with the key message among
them. -/
inductive SetUp (creator : KeyPair) (after : Daemon) (groupID keyText : Bytes)
    (members : GoMap Bytes GroupMember) : KeyPair → Daemon → Prop
  | creator : SetUp creator after groupID keyText members creator after
  | member (identity : KeyPair) (b : Daemon) (received : List OpenedText)
      (hid : b.identity = some identity) (hmem : identity.pubkeyB64 ∈ members)
      (hother : identity.pubkeyB64 ≠ creator.pubkeyB64) (hfresh : b.groups.lookup groupID = none)
      (hkey : ∃ r ∈ received, r.text = keyText) :
      SetUp creator after groupID keyText members identity
        (received.foldl (Daemon.receive P) b)

/-- The call hands one payload to the engine for each other member and for nobody else. -/
def ReachesOthers (s : Daemon) (identity : KeyPair) (members : GoMap Bytes GroupMember)
    (req : SendRequest) (env : SendEnv) : Prop :=
  ∃ sent payload, s.sendMessage P req env = .ok sent ∧
    sent.outgoing.Perm ((members.keys.filter (fun pubkey => pubkey ≠ identity.pubkeyB64)).map
      (fun pubkey => ⟨payload, pubkey⟩))

/-! ## The creator -/

private theorem fanOut_perm (members : GoMap Bytes GroupMember) (myPubkey payload : Bytes)
    (hint : List Bytes) :
    (fanOut members myPubkey payload hint).Perm
      ((members.keys.filter (fun pubkey => pubkey ≠ myPubkey)).map
        (fun pubkey => ⟨payload, pubkey⟩)) :=
  ((rangeOrder_perm hint members).filter _).map _

/-- Whoever stores the group sends to the members in its copy. -/
theorem sendMessage_fanOut {s : Daemon} {identity : KeyPair} (hid : s.identity = some identity)
    {req : SendRequest} (hreq : req.groupId ≠ []) {group : Group}
    (hgroup : s.groups.lookup req.groupId = some group) (hkey : group.groupKey.length = keyLength)
    (env : SendEnv) :
    ∃ sent payload, s.sendMessage P req env = .ok sent ∧
      sent.outgoing = fanOut group.members identity.pubkeyB64 payload env.hint := by
  have henc : encryptGroupMessage P group.groupKey req.plaintext env.nonce =
      .ok (P.xchacha.sealFramed group.groupKey env.nonce.val req.plaintext) := by
    rw [encryptGroupMessage, sealPrefixed, newX, if_pos hkey]
    rfl
  simp only [Daemon.sendMessage, hid, if_pos hreq, Daemon.sendGroupMessage, hgroup, henc]
  exact ⟨_, _, rfl, rfl⟩

/-! ## The other members -/

/-- The daemon's copy of the group, if it has one, lists nobody. -/
def Daemon.Memberless (d : Daemon) (groupID : Bytes) : Prop :=
  ∀ group, d.groups.lookup groupID = some group → group.members = ∅

/-- A key message makes a group without members and keeps the members of a group that exists. -/
theorem memberless_storeGroupKey {d : Daemon} {groupID : Bytes} (h : d.Memberless groupID)
    (dist : KeyDist) : (d.storeGroupKey dist).Memberless groupID := by
  intro group hgroup
  have hstored : (d.storeGroupKey dist).groups =
      d.groups.insert dist.groupID (dist.groupAfter (d.groups.lookup dist.groupID)) := rfl
  rw [hstored, lookup_insert_ite] at hgroup
  split at hgroup
  next hid =>
    obtain rfl := Option.some.inj hgroup
    subst hid
    cases hold : d.groups.lookup dist.groupID with
    | none => rfl
    | some old => exact h old hold
  next => exact h group hgroup

private theorem memberless_receive {d : Daemon} {groupID : Bytes} (h : d.Memberless groupID)
    (r : OpenedText) : (d.receive P r).Memberless groupID := by
  unfold Daemon.receive
  cases hout : dispatch P d.groups r.env.relays r.fromPeer r.text with
  | groupKey dist => exact memberless_storeGroupKey h dist
  | _ =>
    intro group hgroup
    rw [applyOutcome_groups _ _ _ _ (fun dist => Outcome.noConfusion)] at hgroup
    exact h group hgroup

private theorem memberless_receiveAll {d : Daemon} {groupID : Bytes} (h : d.Memberless groupID)
    (received : List OpenedText) : (received.foldl (Daemon.receive P) d).Memberless groupID := by
  induction received generalizing d with
  | nil => exact h
  | cons r rest ih => exact ih (memberless_receive P h r)

/-- A group without members, or none at all, makes `SendMessage` send nothing. -/
theorem sendMessage_nobody {s : Daemon} {req : SendRequest} (hreq : req.groupId ≠ [])
    (hempty : s.Memberless req.groupId)
    {env : SendEnv} {sent : Sent} (h : s.sendMessage P req env = .ok sent) : sent.outgoing = [] := by
  unfold Daemon.sendMessage at h
  split at h
  next => cases h
  next identity _ =>
    rw [if_pos hreq] at h
    unfold Daemon.sendGroupMessage at h
    split at h
    next => cases h
    next group hgroup =>
      split at h
      next => cases h
      next ciphertext _ =>
        obtain rfl := Except.ok.inj h
        have hnone : rangeOrder env.hint group.members = [] := by
          have hperm := rangeOrder_perm env.hint group.members
          rw [hempty group hgroup] at hperm ⊢
          exact List.perm_nil.mp hperm
        rw [fanOut, hnone]
        rfl

/-! ## Everybody -/

private theorem newGroupID_ne_nil (unixNano : Int) : newGroupID unixNano ≠ [] :=
  List.cons_ne_nil _ _

private theorem createGroup_identity {d after : Daemon} {name : Bytes} {memberPubkeys : List Bytes}
    {groupKey : Bytes} {unixNano : Int} {draw : Draw} {outs : List Outgoing}
    (h : d.createGroup P name memberPubkeys groupKey unixNano draw = some (after, outs)) :
    after.identity = d.identity := by
  unfold Daemon.createGroup at h
  split at h
  next => cases h
  next =>
    obtain ⟨rfl, -⟩ := Prod.mk.inj (Option.some.inj h)
    rfl

private theorem creator_mem_newMembers (myPubkey name : Bytes) (memberPubkeys : List Bytes) :
    myPubkey ∈ newMembers myPubkey name memberPubkeys := by
  rw [mem_iff_lookup, lookup_newMembers]
  by_cases hlisted : myPubkey ∈ memberPubkeys
  · exact ⟨_, if_pos hlisted⟩
  · exact ⟨_, (if_neg hlisted).trans (if_pos rfl)⟩

end

/-- Once a group is set up, a group message of a member reaches every other one, and nobody
else, exactly if the member is the one who created the group. -/
theorem groupFanOut_iff (P : Primitives) (a after : Daemon) (creator : KeyPair)
    (hid : a.identity = some creator) (name : Bytes) (memberPubkeys : List Bytes) (created : Bytes)
    (hkey : created.length = keyLength) (unixNano : Int) (draw : Draw) (outs : List Outgoing)
    (hcreate : a.createGroup P name memberPubkeys created unixNano draw = some (after, outs))
    (sender : KeyPair) (s : Daemon)
    (hs : SetUp P creator after (newGroupID unixNano)
      (distribution (newGroupID unixNano) created 1 (some name))
      (newMembers creator.pubkeyB64 name memberPubkeys) sender s)
    (req : SendRequest) (hreq : req.groupId = newGroupID unixNano) (env : SendEnv) :
    ReachesOthers P s sender (newMembers creator.pubkeyB64 name memberPubkeys) req env ↔
      sender.pubkeyB64 = creator.pubkeyB64 := by
  have hne : req.groupId ≠ [] := hreq ▸ newGroupID_ne_nil unixNano
  cases hs with
  | creator =>
    refine iff_of_true ?_ rfl
    obtain ⟨identity, hid', hgroups, -⟩ := createGroup_some P hcreate
    obtain rfl := Option.some.inj (hid.symm.trans hid')
    have hgroup := AList.lookup_insert (s := a.groups) (a := newGroupID unixNano)
      (b := newGroup creator.pubkeyB64 (newGroupID unixNano) name memberPubkeys created)
    rw [← hgroups, ← hreq] at hgroup
    obtain ⟨sent, payload, hsent, hout⟩ := sendMessage_fanOut P
      ((createGroup_identity P hcreate).trans hid) hne hgroup hkey env
    exact ⟨sent, payload, hsent, hout ▸ fanOut_perm _ _ _ _⟩
  | member _ b received _ _ hother hfresh _ =>
    refine iff_of_false ?_ hother
    intro hreach
    obtain ⟨sent, payload, hsent, hperm⟩ := hreach
    have hfirst : b.Memberless req.groupId := by
      intro group hgroup
      rw [hreq, hfresh] at hgroup
      cases hgroup
    have hnone := sendMessage_nobody P hne (memberless_receiveAll P hfirst received) hsent
    -- the creator is a member that the sender has to reach
    rw [hnone] at hperm
    have hall := List.map_eq_nil_iff.mp (List.nil_perm.mp hperm)
    have hcreator : creator.pubkeyB64 ∈
        (newMembers creator.pubkeyB64 name memberPubkeys).keys.filter
          (fun pubkey => pubkey ≠ sender.pubkeyB64) := by
      rw [List.mem_filter]
      exact ⟨AList.mem_keys.mp (creator_mem_newMembers _ _ _), by simpa using Ne.symm hother⟩
    rw [hall] at hcreator
    cases hcreator

/-! ### A group of three -/

def invitedPubkeys : List Bytes := [(identityOf 2).pubkeyB64, (identityOf 3).pubkeyB64]

def teamMembers : GoMap Bytes GroupMember :=
  newMembers (identityOf 1).pubkeyB64 (lit "team") invitedPubkeys

def teamOfCreator : Group :=
  newGroup (identityOf 1).pubkeyB64 (newGroupID 5) (lit "team") invitedPubkeys (keyOf 7)

/-- The daemon of the creator after the call. -/
def teamCreated : Daemon :=
  { knowing 1 [2, 3] with groups := (∅ : GoMap Bytes Group).insert (newGroupID 5) teamOfCreator }

def teamKeyText : Bytes := distribution (newGroupID 5) (keyOf 7) 1 (some (lit "team"))

def teamOpened : OpenedText := ⟨quiet, polledAs [], (identityOf 1).pubkeyB64, teamKeyText⟩

/-- The daemon of a member that has processed the key message. -/
def teamJoined : Daemon := [teamOpened].foldl (Daemon.receive .transparent) (knowing 2 [1, 3])

def teamRequest : SendRequest := ⟨[], lit "hello", newGroupID 5⟩

def teamEnv : SendEnv where
  nonce := someNonce
  hint := []
  engine _ := (zeroID, 1, true)
  queueAccepts := true

theorem setUp_teamJoined : SetUp .transparent (identityOf 1) teamCreated (newGroupID 5) teamKeyText
    teamMembers (identityOf 2) teamJoined :=
  .member (identityOf 2) (knowing 2 [1, 3]) [teamOpened] rfl (by decide +kernel)
    (by decide +kernel) rfl ⟨teamOpened, List.mem_singleton.mpr rfl, rfl⟩

theorem groupFanOut_iff_ofThree :
    ReachesOthers .transparent teamCreated (identityOf 1) teamMembers teamRequest teamEnv ∧
    ¬ ReachesOthers .transparent teamJoined (identityOf 2) teamMembers teamRequest teamEnv := by
  have hcreator := groupFanOut_iff .transparent (knowing 1 [2, 3]) teamCreated (identityOf 1) rfl
    (lit "team") invitedPubkeys (keyOf 7) rfl 5 fixedDraw _ rfl (identityOf 1) teamCreated .creator
    teamRequest rfl teamEnv
  have hmember := groupFanOut_iff .transparent (knowing 1 [2, 3]) teamCreated (identityOf 1) rfl
    (lit "team") invitedPubkeys (keyOf 7) rfl 5 fixedDraw _ rfl (identityOf 2) teamJoined
    setUp_teamJoined teamRequest rfl teamEnv
  refine ⟨hcreator.mpr rfl, fun hreach => ?_⟩
  have hsame : (identityOf 2).pubkeyB64 = (identityOf 1).pubkeyB64 := hmember.mp hreach
  exact absurd hsame (by decide +kernel)

/-- The member stores the group with its key and is told that the message was sent, but no
payload goes to the engine although two others are members. -/
theorem teamJoined_reaches_nobody :
    SetUp .transparent (identityOf 1) teamCreated (newGroupID 5) teamKeyText teamMembers
      (identityOf 2) teamJoined ∧
    (teamJoined.groups.lookup (newGroupID 5)).map Group.groupKey = some (keyOf 7) ∧
    (∃ sent, teamJoined.sendMessage .transparent teamRequest teamEnv = .ok sent ∧
      sent.outgoing = []) ∧
    (teamMembers.keys.filter (fun pubkey => pubkey ≠ (identityOf 2).pubkeyB64)).length = 2 := by
  refine ⟨setUp_teamJoined, by decide +kernel, ?_, by decide +kernel⟩
  have hsent : (teamJoined.sendMessage .transparent teamRequest teamEnv).toOption.map Sent.outgoing =
      some [] := by decide +kernel
  obtain ⟨sent, hok, hout⟩ := Option.map_eq_some_iff.mp hsent
  refine ⟨sent, ?_, hout⟩
  cases hres : teamJoined.sendMessage .transparent teamRequest teamEnv with
  | error e =>
    rw [hres] at hok
    cases hok
  | ok sent' =>
    rw [hres] at hok
    rw [Option.some.inj hok]

end VRGram.Client
