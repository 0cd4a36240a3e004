import VRGram.Crypto.Message
import VRGram.Lib.Maps

/-!
# The daemon's state and its group operations

`CreateGroup`, `LeaveGroup`, `RemoveGroupMember` and `distributeGroupKey`. What a call
hands to `engine.SendMessage` is part of its result. A nil identity is dereferenced,
so a call without one panics, which is `none`.
-/
namespace VRGram.Client

open VRGram.Lib VRGram.Lib.Maps VRGram.Lib.Strings VRGram.Crypto

set_option autoImplicit false

inductive Role where
  | admin
  | member
  deriving DecidableEq

structure GroupMember where
  pubkey : Bytes
  nickname : Bytes
  role : Role
  deriving DecidableEq

structure Group where
  groupID : Bytes
  name : Bytes
  adminPubkey : Bytes
  members : GoMap Bytes GroupMember
  groupKey : Bytes
  keyEpoch : UInt64

structure PeerInfoEntry where
  nickname : Bytes
  pubkey : Bytes
  deriving DecidableEq

structure HelloEntry where
  nonce : Bytes
  pubkey : Bytes
  nickname : Bytes
  /-- In nanoseconds. -/
  createdAt : Int
  deriving DecidableEq

/-- What a file holds: bytes, or the rendering of a string map. -/
inductive FileContent where
  | raw (data : Bytes)
  | json (fields : List (Bytes × Bytes))
  deriving DecidableEq

structure Daemon where
  identity : Option KeyPair
  peers : GoMap Bytes PeerInfoEntry
  groups : GoMap Bytes Group
  pendingHellos : GoMap Bytes HelloEntry
  dataDir : Bytes
  files : GoMap Bytes FileContent

/-- An argument pair of `engine.SendMessage`. -/
structure Outgoing where
  payload : Bytes
  recipient : Bytes
  deriving DecidableEq

inductive GroupError where
  | groupNotFound (groupID : Bytes)
  | onlyAdmin
  | memberNotInGroup
  deriving DecidableEq

/-- The choices that one call leaves open: the order of its loop over the members and
the nonce drawn for each. -/
structure Draw where
  hint : List Bytes
  nonces : Bytes → Nonce

section Operations

variable (P : Primitives)

/-- The group key message; only `CreateGroup` adds the group's name. -/
def distribution (groupID groupKey : Bytes) (epoch : UInt64) (name : Option Bytes) : Bytes :=
  lit "\x7b\"type\":\"group_key\",\"group_id\":\"" ++ groupID ++
    lit "\",\"group_key_b64\":\"" ++ Base64Std.encodeToString groupKey ++
    lit "\",\"key_epoch\":" ++ decimal epoch.toNat ++
    (match name with
      | some name => lit ",\"name\":\"" ++ name ++ lit "\""
      | none => []) ++
    lit "\x7d"

/-- The body of the two distribution loops: the ciphertext goes out without its nonce. -/
def sendKeyTo (identity : KeyPair) (text : Bytes) (draw : Draw) (pubkeyB64 : Bytes) :
    Option Outgoing :=
  if pubkeyB64 = identity.pubkeyB64 then none
  else
    match Base64Std.decodeString pubkeyB64 with
    | none => none
    | some pubkey =>
      match sharedSecret P identity.privateKey pubkey with
      | .error _ => none
      | .ok secret =>
        match encryptMessage P secret text (draw.nonces pubkeyB64) with
        | .error _ => some ⟨[], pubkeyB64⟩
        | .ok (ciphertext, _) => some ⟨ciphertext, pubkeyB64⟩

def distribute (identity : KeyPair) (members : GoMap Bytes GroupMember) (text : Bytes)
    (draw : Draw) : List Outgoing :=
  (rangeOrder draw.hint members).filterMap (sendKeyTo P identity text draw)

def newGroupID (unixNano : Int) : Bytes := lit "g" ++ decimalInt unixNano

/-- The admin first, then the requested members, who may include the admin. -/
def newMembers (myPubkey name : Bytes) (memberPubkeys : List Bytes) : GoMap Bytes GroupMember :=
  memberPubkeys.foldl (fun members mpk => members.insert mpk ⟨mpk, [], .member⟩)
    ((∅ : GoMap Bytes GroupMember).insert myPubkey ⟨myPubkey, name ++ lit "_admin", .admin⟩)

def newGroup (myPubkey groupID name : Bytes) (memberPubkeys : List Bytes) (groupKey : Bytes) :
    Group where
  groupID := groupID
  name := name
  adminPubkey := myPubkey
  members := newMembers myPubkey name memberPubkeys
  groupKey := groupKey
  keyEpoch := 1

/-- `groupKey` is what `GenerateGroupKey` draws. -/
def Daemon.createGroup (d : Daemon) (name : Bytes) (memberPubkeys : List Bytes)
    (groupKey : Bytes) (unixNano : Int) (draw : Draw) : Option (Daemon × List Outgoing) :=
  match d.identity with
  | none => none
  | some identity =>
    let groupID := newGroupID unixNano
    let group := newGroup identity.pubkeyB64 groupID name memberPubkeys groupKey
    some ({ d with groups := d.groups.insert groupID group },
      distribute P identity group.members (distribution groupID groupKey 1 (some name)) draw)

def Daemon.distributeGroupKey (d : Daemon) (identity : KeyPair) (groupID : Bytes) (draw : Draw) :
    List Outgoing :=
  match d.groups.lookup groupID with
  | none => []
  | some group => distribute P identity group.members
      (distribution groupID group.groupKey group.keyEpoch none) draw

/-- The group after `myPubkey` left it; the order of the loop picks the next admin. -/
def Group.leave (group : Group) (myPubkey : Bytes) (hint : List Bytes) : Group :=
  let members := group.members.erase myPubkey
  if group.adminPubkey = myPubkey then
    match rangeOrder hint members with
    | [] => { group with members := members }
    | pubkey :: _ =>
      match members.lookup pubkey with
      | none => { group with members := members }
      | some m => { group with
          adminPubkey := pubkey
          members := members.insert pubkey { m with role := .admin } }
  else { group with members := members }

def Daemon.leaveGroup (d : Daemon) (groupID : Bytes) (hint : List Bytes) :
    Option (Except GroupError Unit × Daemon) :=
  match d.groups.lookup groupID with
  | none => some (.error (.groupNotFound groupID), d)
  | some group =>
    match d.identity with
    | none => none
    | some identity =>
      let group := group.leave identity.pubkeyB64 hint
      if group.members.keys = [] then some (.ok (), { d with groups := d.groups.erase groupID })
      else some (.ok (), { d with groups := d.groups.insert groupID group })

/-- The group without `memberPubkey`, under the next key. -/
def Group.remove (group : Group) (memberPubkey : Bytes) : Group :=
  { group with
    members := group.members.erase memberPubkey
    groupKey := rotateGroupKey P group.groupKey
    keyEpoch := group.keyEpoch + 1 }

def Daemon.removeGroupMember (d : Daemon) (groupID memberPubkey : Bytes) (draw : Draw) :
    Option (Except GroupError (List Outgoing) × Daemon) :=
  match d.groups.lookup groupID with
  | none => some (.error (.groupNotFound groupID), d)
  | some group =>
    match d.identity with
    | none => none
    | some identity =>
      if group.adminPubkey ≠ identity.pubkeyB64 then some (.error .onlyAdmin, d)
      else if memberPubkey ∉ group.members then some (.error .memberNotInGroup, d)
      else
        let after := { d with groups := d.groups.insert groupID (group.remove P memberPubkey) }
        some (.ok (after.distributeGroupKey P identity group.groupID draw), after)

/-! ## What the group operations send and store -/

/-- A distributed payload is a bare ciphertext of the key message. -/
theorem mem_distribute {identity : KeyPair} {members : GoMap Bytes GroupMember} {text : Bytes}
    {draw : Draw} {out : Outgoing} (h : out ∈ distribute P identity members text draw) :
    ∃ pubkey secret, Base64Std.decodeString out.recipient = some pubkey ∧
      sharedSecret P identity.privateKey pubkey = .ok secret ∧
      out.payload = P.xchacha.sealWith secret (draw.nonces out.recipient).val text := by
  obtain ⟨pubkeyB64, -, hsend⟩ := List.mem_filterMap.mp h
  unfold sendKeyTo at hsend
  split at hsend
  · cases hsend
  · split at hsend
    next => cases hsend
    next pubkey hpub =>
      split at hsend
      next => cases hsend
      next secret hsecret =>
        rw [encryptMessage_ok P (sharedSecret_length P hsecret)] at hsend
        obtain rfl := Option.some.inj hsend
        exact ⟨pubkey, secret, hpub, hsecret, rfl⟩

theorem createGroup_some {d after : Daemon} {name : Bytes} {memberPubkeys : List Bytes}
    {groupKey : Bytes} {unixNano : Int} {draw : Draw} {outs : List Outgoing}
    (h : d.createGroup P name memberPubkeys groupKey unixNano draw = some (after, outs)) :
    ∃ identity, d.identity = some identity ∧
      after.groups = d.groups.insert (newGroupID unixNano)
        (newGroup identity.pubkeyB64 (newGroupID unixNano) name memberPubkeys groupKey) ∧
      outs = distribute P identity (newMembers identity.pubkeyB64 name memberPubkeys)
        (distribution (newGroupID unixNano) groupKey 1 (some name)) draw := by
  unfold Daemon.createGroup at h
  split at h
  next => cases h
  next identity hid =>
    obtain ⟨rfl, rfl⟩ := Prod.mk.inj (Option.some.inj h)
    exact ⟨identity, hid, rfl, rfl⟩

/-- A removal that succeeds stores the group without the member, under the next key. -/
theorem removeGroupMember_ok {d after : Daemon} {groupID memberPubkey : Bytes} {draw : Draw}
    {outs : List Outgoing}
    (h : d.removeGroupMember P groupID memberPubkey draw = some (.ok outs, after)) :
    ∃ group, d.groups.lookup groupID = some group ∧ memberPubkey ∈ group.members ∧
      after = { d with groups := d.groups.insert groupID (group.remove P memberPubkey) } ∧
      ∃ identity, d.identity = some identity ∧ group.adminPubkey = identity.pubkeyB64 ∧
        outs = after.distributeGroupKey P identity group.groupID draw := by
  unfold Daemon.removeGroupMember at h
  split at h
  next => cases h
  next group hgroup =>
    split at h
    next => cases h
    next identity hid =>
      split at h
      · cases h
      next hadmin =>
        split at h
        · cases h
        next hmem =>
          obtain ⟨hout, rfl⟩ := Prod.mk.inj (Option.some.inj h)
          exact ⟨group, hgroup, not_not.mp hmem, rfl, identity, hid, not_not.mp hadmin,
            (Except.ok.inj hout).symm⟩

/-- The admin's removal of a member succeeds. -/
theorem removeGroupMember_of_admin {d : Daemon} {groupID memberPubkey : Bytes} {group : Group}
    {identity : KeyPair} (hgroup : d.groups.lookup groupID = some group)
    (hid : d.identity = some identity) (hadmin : group.adminPubkey = identity.pubkeyB64)
    (hmem : memberPubkey ∈ group.members) (draw : Draw) :
    ∃ outs, d.removeGroupMember P groupID memberPubkey draw = some (.ok outs,
      { d with groups := d.groups.insert groupID (group.remove P memberPubkey) }) := by
  simp only [Daemon.removeGroupMember, hgroup, hid, hadmin, ne_eq, not_true_eq_false, if_false,
    hmem]
  exact ⟨_, rfl⟩

/-- A refused removal changes nothing. -/
theorem removeGroupMember_error {d after : Daemon} {groupID memberPubkey : Bytes} {draw : Draw}
    {e : GroupError}
    (h : d.removeGroupMember P groupID memberPubkey draw = some (.error e, after)) : after = d := by
  unfold Daemon.removeGroupMember at h
  split at h
  next => exact (Prod.mk.inj (Option.some.inj h)).2.symm
  next =>
    split at h
    next => cases h
    next =>
      split at h
      · exact (Prod.mk.inj (Option.some.inj h)).2.symm
      · split at h
        · exact (Prod.mk.inj (Option.some.inj h)).2.symm
        · cases (Prod.mk.inj (Option.some.inj h)).1

/-- Leaving changes members and admin, not the key. -/
theorem Group.leave_key (group : Group) (myPubkey : Bytes) (hint : List Bytes) :
    (group.leave myPubkey hint).groupKey = group.groupKey ∧
      (group.leave myPubkey hint).keyEpoch = group.keyEpoch := by
  unfold Group.leave
  dsimp only
  split
  · split
    next => exact ⟨rfl, rfl⟩
    next => split <;> exact ⟨rfl, rfl⟩
  · exact ⟨rfl, rfl⟩

/-- The members after leaving are the others. -/
theorem Group.mem_leave (group : Group) (myPubkey : Bytes) (hint : List Bytes) (pubkey : Bytes) :
    pubkey ∈ (group.leave myPubkey hint).members ↔ pubkey ≠ myPubkey ∧ pubkey ∈ group.members := by
  unfold Group.leave
  dsimp only
  split
  · split
    next => exact AList.mem_erase
    next next _ _ =>
      split
      next => exact AList.mem_erase
      next m hm =>
        -- the next admin is one of them already
        rw [AList.mem_insert, AList.mem_erase]
        refine or_iff_right_of_imp ?_
        rintro rfl
        exact AList.mem_erase.mp (mem_iff_lookup.mpr ⟨m, hm⟩)
  · exact AList.mem_erase

theorem Group.leave_empty_iff (group : Group) (myPubkey : Bytes) (hint : List Bytes) :
    (group.leave myPubkey hint).members.keys = [] ↔
      ∀ pubkey ∈ group.members, pubkey = myPubkey := by
  rw [List.eq_nil_iff_forall_not_mem]
  refine forall_congr' (fun pubkey => ?_)
  rw [← AList.mem_keys, Group.mem_leave, not_and', not_ne_iff]

/-- Leaving fails without the group, and otherwise deletes it or stores what is left of it. -/
theorem leaveGroup_some {d after : Daemon} {groupID : Bytes} {hint : List Bytes}
    {result : Except GroupError Unit} (h : d.leaveGroup groupID hint = some (result, after)) :
    (d.groups.lookup groupID = none ∧ after.groups = d.groups) ∨
      ∃ group identity, d.groups.lookup groupID = some group ∧ d.identity = some identity ∧
        (((group.leave identity.pubkeyB64 hint).members.keys = [] ∧
            after.groups = d.groups.erase groupID) ∨
          ((group.leave identity.pubkeyB64 hint).members.keys ≠ [] ∧
            after.groups = d.groups.insert groupID (group.leave identity.pubkeyB64 hint))) := by
  unfold Daemon.leaveGroup at h
  split at h
  next hnone =>
    obtain ⟨-, rfl⟩ := Prod.mk.inj (Option.some.inj h)
    exact Or.inl ⟨hnone, rfl⟩
  next group hgroup =>
    split at h
    next => cases h
    next identity hid =>
      refine Or.inr ⟨group, identity, hgroup, hid, ?_⟩
      dsimp only at h
      split at h
      next hkeys =>
        obtain ⟨-, rfl⟩ := Prod.mk.inj (Option.some.inj h)
        exact Or.inl ⟨hkeys, rfl⟩
      next hkeys =>
        obtain ⟨-, rfl⟩ := Prod.mk.inj (Option.some.inj h)
        exact Or.inr ⟨hkeys, rfl⟩

end Operations

end VRGram.Client
