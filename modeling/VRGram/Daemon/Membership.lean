import VRGram.Daemon.Receive
import VRGram.Lib.Machine

/-!
# Who is a member and who is the admin

`CreateGroup`, `LeaveGroup`, `RemoveGroupMember` and the restart of the daemon, which reads
back the groups file that each successful call has tried to write. The file is the groups
map itself, JSON being its own inverse.
-/
namespace VRGram.Client

open VRGram.Lib VRGram.Lib.Maps VRGram.Lib.Machine VRGram.Lib.Strings VRGram.Crypto

set_option autoImplicit false

/-- Nobody but the admin has the role. -/
def Group.Exclusive (group : Group) : Prop :=
  ∀ pubkey m, group.members.lookup pubkey = some m → m.role = .admin → pubkey = group.adminPubkey

/-- The admin is a member and has the role. -/
def Group.Seated (group : Group) : Prop :=
  ∃ m, group.members.lookup group.adminPubkey = some m ∧ m.role = .admin

instance (group : Group) : Decidable group.Seated :=
  decidable_of_iff ((group.members.lookup group.adminPubkey).map GroupMember.role = some .admin)
    Option.map_eq_some_iff

/-- A group with an admin is seated, and no other member has the role. -/
def Group.Administered (group : Group) : Prop :=
  group.adminPubkey ≠ [] → group.Seated ∧ group.Exclusive

/-! ## New groups -/

private theorem lookup_foldl_members (pubkeys : List Bytes) (members : GoMap Bytes GroupMember)
    (pubkey : Bytes) :
    (pubkeys.foldl (fun members mpk => members.insert mpk ⟨mpk, [], .member⟩) members).lookup pubkey =
      if pubkey ∈ pubkeys then some ⟨pubkey, [], .member⟩ else members.lookup pubkey := by
  induction pubkeys generalizing members with
  | nil => simp
  | cons mpk rest ih =>
    rw [List.foldl_cons, ih, lookup_insert_ite]
    by_cases hrest : pubkey ∈ rest
    · simp [hrest]
    · by_cases hmpk : pubkey = mpk <;> simp [hrest, hmpk]

section NewGroup

variable (myPubkey groupID name : Bytes) (memberPubkeys : List Bytes) (groupKey : Bytes)

theorem lookup_newMembers (pubkey : Bytes) :
    (newMembers myPubkey name memberPubkeys).lookup pubkey =
      if pubkey ∈ memberPubkeys then some ⟨pubkey, [], .member⟩
      else if pubkey = myPubkey then some ⟨myPubkey, name ++ lit "_admin", .admin⟩
      else none := by
  rw [newMembers, lookup_foldl_members, lookup_insert_ite]
  rfl

theorem newGroup_exclusive : (newGroup myPubkey groupID name memberPubkeys groupKey).Exclusive := by
  intro pubkey m hm hrole
  have hm' : (newMembers myPubkey name memberPubkeys).lookup pubkey = some m := hm
  rw [lookup_newMembers] at hm'
  split_ifs at hm' with hmember hadmin
  · obtain rfl := Option.some.inj hm'
    cases hrole
  · exact hadmin

/-- A creator who is also listed as a member loses the role. -/
theorem newGroup_seated_iff :
    (newGroup myPubkey groupID name memberPubkeys groupKey).Seated ↔ myPubkey ∉ memberPubkeys := by
  have hself := lookup_newMembers myPubkey name memberPubkeys myPubkey
  constructor
  · rintro ⟨m, hm, hrole⟩ hmem
    rw [if_pos hmem] at hself
    obtain rfl := Option.some.inj (hself.symm.trans hm)
    cases hrole
  · intro hnot
    rw [if_neg hnot, if_pos rfl] at hself
    exact ⟨_, hself, rfl⟩

end NewGroup

/-! ## Leaving and removing -/

theorem Group.Exclusive.leave {group : Group} (h : group.Exclusive) (myPubkey : Bytes)
    (hint : List Bytes) : (group.leave myPubkey hint).Exclusive := by
  have herased : ∀ pubkey m, (group.members.erase myPubkey).lookup pubkey = some m →
      m.role = .admin → pubkey ≠ myPubkey ∧ pubkey = group.adminPubkey := by
    intro pubkey m hm hrole
    obtain ⟨hme, hm⟩ := lookup_erase_eq_some.mp hm
    exact ⟨hme, h pubkey m hm hrole⟩
  unfold Group.leave
  dsimp only
  split_ifs with hadmin
  · cases horder : rangeOrder hint (group.members.erase myPubkey) with
    | nil => exact fun pubkey m hm hrole => (herased pubkey m hm hrole).2
    | cons next rest =>
      cases hnext : (group.members.erase myPubkey).lookup next with
      | none =>
        simp only [hnext]
        exact fun pubkey m hm hrole => (herased pubkey m hm hrole).2
      | some nextMember =>
        simp only [hnext]
        intro pubkey m hm hrole
        rw [lookup_insert_ite] at hm
        split_ifs at hm with hpubkey
        · exact hpubkey
        · -- the leaving admin was the only one with the role
          obtain ⟨hme, hwas⟩ := herased pubkey m hm hrole
          exact absurd (hwas.trans hadmin) hme
  · exact fun pubkey m hm hrole => (herased pubkey m hm hrole).2

/-- Somebody has the seat as long as anybody remains. -/
theorem Group.Seated.leave {group : Group} {myPubkey : Bytes}
    (h : group.adminPubkey ≠ myPubkey → group.Seated) (hint : List Bytes)
    (hkeys : (group.leave myPubkey hint).members.keys ≠ []) :
    (group.leave myPubkey hint).Seated := by
  unfold Group.leave at hkeys ⊢
  dsimp only at hkeys ⊢
  split_ifs at hkeys ⊢ with hadmin
  · cases horder : rangeOrder hint (group.members.erase myPubkey) with
    | nil =>
      simp only [horder] at hkeys
      have hperm := rangeOrder_perm hint (group.members.erase myPubkey)
      rw [horder] at hperm
      exact absurd hperm.nil_eq.symm hkeys
    | cons next rest =>
      have hmem : next ∈ group.members.erase myPubkey := by
        rw [← mem_rangeOrder hint, horder]
        exact List.mem_cons_self
      obtain ⟨m, hm⟩ := mem_iff_lookup.mp hmem
      simp only [hm]
      refine ⟨{ m with role := .admin }, ?_, rfl⟩
      rw [lookup_insert_ite, if_pos rfl]
  · obtain ⟨m, hm, hrole⟩ := h hadmin
    refine ⟨m, ?_, hrole⟩
    rw [lookup_erase_ite, if_neg hadmin, hm]

section Remove

variable (P : Primitives) {group : Group} (memberPubkey : Bytes)

theorem Group.Exclusive.remove (h : group.Exclusive) :
    (group.remove P memberPubkey).Exclusive := by
  intro pubkey m hm hrole
  exact h pubkey m (lookup_erase_eq_some.mp hm).2 hrole

theorem remove_seated_iff (h : group.Seated) :
    (group.remove P memberPubkey).Seated ↔ memberPubkey ≠ group.adminPubkey := by
  obtain ⟨m, hm, hrole⟩ := h
  have hself := lookup_erase_ite group.members memberPubkey group.adminPubkey
  constructor
  · rintro ⟨m', hm', -⟩ heq
    rw [if_pos heq.symm] at hself
    cases hself.symm.trans hm'
  · intro hne
    rw [if_neg (Ne.symm hne), hm] at hself
    exact ⟨m, hself, hrole⟩

end Remove

/-! ## Runs with restarts -/

/-- The daemon and its groups file. -/
structure StoredGroups where
  daemon : Daemon
  file : GoMap Bytes Group

/-- One call, with whether its `WriteFile` succeeds, or a restart. -/
inductive MembershipEvent where
  | create (name : Bytes) (memberPubkeys : List Bytes) (groupKey : Bytes) (unixNano : Int)
      (draw : Draw) (written : Bool)
  | leave (groupID : Bytes) (hint : List Bytes) (written : Bool)
  | remove (groupID memberPubkey : Bytes) (draw : Draw) (written : Bool)
  | restart

/-- `saveGroups` after a call. -/
def StoredGroups.saveGroups (s : StoredGroups) (after : Daemon) (written : Bool) : StoredGroups :=
  ⟨after, if written then after.groups else s.file⟩

/-- A refused call returns before it saves. -/
def StoredGroups.returned (s : StoredGroups) {α : Type} (written : Bool)
    (r : Except GroupError α × Daemon) : StoredGroups :=
  match r.1 with
  | .ok _ => s.saveGroups r.2 written
  | .error _ => { s with daemon := r.2 }

variable (P : Primitives)

def membershipStep (s : StoredGroups) : MembershipEvent → Option StoredGroups
  | .create name memberPubkeys groupKey unixNano draw written =>
    (s.daemon.createGroup P name memberPubkeys groupKey unixNano draw).map
      (fun r => s.saveGroups r.1 written)
  | .leave groupID hint written => (s.daemon.leaveGroup groupID hint).map (s.returned written)
  | .remove groupID memberPubkey draw written =>
    (s.daemon.removeGroupMember P groupID memberPubkey draw).map (s.returned written)
  | .restart => some { s with daemon := { s.daemon with groups := s.file } }

/-- What an event can do to the groups in memory. -/
inductive GroupsChange (s : StoredGroups) : MembershipEvent → GoMap Bytes Group → Prop where
  | kept (e : MembershipEvent) : GroupsChange s e s.daemon.groups
  | created {identity : KeyPair} (hid : s.daemon.identity = some identity) (name : Bytes)
      (memberPubkeys : List Bytes) (groupKey : Bytes) (unixNano : Int) (draw : Draw)
      (written : Bool) :
      GroupsChange s (.create name memberPubkeys groupKey unixNano draw written)
        (s.daemon.groups.insert (newGroupID unixNano)
          (newGroup identity.pubkeyB64 (newGroupID unixNano) name memberPubkeys groupKey))
  | deleted (groupID : Bytes) (hint : List Bytes) (written : Bool) :
      GroupsChange s (.leave groupID hint written) (s.daemon.groups.erase groupID)
  | left {groupID : Bytes} {group : Group} (hgroup : s.daemon.groups.lookup groupID = some group)
      (myPubkey : Bytes) (hint : List Bytes) (written : Bool)
      (hkeys : (group.leave myPubkey hint).members.keys ≠ []) :
      GroupsChange s (.leave groupID hint written)
        (s.daemon.groups.insert groupID (group.leave myPubkey hint))
  | removed {groupID memberPubkey : Bytes} {group : Group} {identity : KeyPair}
      (hgroup : s.daemon.groups.lookup groupID = some group)
      (hid : s.daemon.identity = some identity) (hadmin : group.adminPubkey = identity.pubkeyB64)
      (hmem : memberPubkey ∈ group.members) (draw : Draw) (written : Bool) :
      GroupsChange s (.remove groupID memberPubkey draw written)
        (s.daemon.groups.insert groupID (group.remove P memberPubkey))
  | loaded : GroupsChange s .restart s.file

variable {P}

theorem returned_eq (s : StoredGroups) {α : Type} (written : Bool)
    (r : Except GroupError α × Daemon) :
    (s.returned written r).daemon = r.2 ∧
      ((s.returned written r).file = s.file ∨ (s.returned written r).file = r.2.groups) := by
  obtain ⟨result, after⟩ := r
  cases result with
  | ok v => cases written <;> simp [StoredGroups.returned, StoredGroups.saveGroups]
  | error e => simp [StoredGroups.returned]

theorem membershipStep_change {s t : StoredGroups} {e : MembershipEvent}
    (h : membershipStep P s e = some t) :
    GroupsChange P s e t.daemon.groups ∧ (t.file = s.file ∨ t.file = t.daemon.groups) := by
  cases e with
  | create name memberPubkeys groupKey unixNano draw written =>
    obtain ⟨⟨after, outs⟩, hcall, rfl⟩ := Option.map_eq_some_iff.mp h
    obtain ⟨identity, hid, hgroups, -⟩ := createGroup_some P hcall
    refine ⟨?_, ?_⟩
    · show GroupsChange P s _ after.groups
      rw [hgroups]
      exact .created hid name memberPubkeys groupKey unixNano draw written
    · cases written
      · exact Or.inl rfl
      · exact Or.inr rfl
  | leave groupID hint written =>
    obtain ⟨⟨result, after⟩, hcall, rfl⟩ := Option.map_eq_some_iff.mp h
    obtain ⟨hdaemon, hfile⟩ := returned_eq s written (result, after)
    rw [hdaemon]
    refine ⟨?_, hfile⟩
    rcases leaveGroup_some hcall with
      ⟨-, hg⟩ | ⟨group, identity, hgroup, -, ⟨-, hg⟩ | ⟨hkeys, hg⟩⟩
    · exact hg ▸ .kept _
    · exact hg ▸ .deleted groupID hint written
    · exact hg ▸ .left hgroup identity.pubkeyB64 hint written hkeys
  | remove groupID memberPubkey draw written =>
    obtain ⟨⟨result, after⟩, hcall, rfl⟩ := Option.map_eq_some_iff.mp h
    obtain ⟨hdaemon, hfile⟩ := returned_eq s written (result, after)
    rw [hdaemon]
    refine ⟨?_, hfile⟩
    cases result with
    | error e => exact removeGroupMember_error P hcall ▸ .kept _
    | ok outs =>
      obtain ⟨group, hgroup, hmem, rfl, identity, hid, hadmin, -⟩ := removeGroupMember_ok P hcall
      exact .removed hgroup hid hadmin hmem draw written
  | restart =>
    obtain rfl := Option.some.inj h
    exact ⟨.loaded, Or.inl rfl⟩

/-! ## The invariant -/

/-- Every stored group has the property. -/
def Throughout (Q : Group → Prop) (groups : GoMap Bytes Group) : Prop :=
  ∀ groupID group, groups.lookup groupID = some group → Q group

theorem Throughout.insert {Q : Group → Prop} {groups : GoMap Bytes Group} (h : Throughout Q groups)
    {group : Group} (hgroup : Q group) (groupID : Bytes) :
    Throughout Q (groups.insert groupID group) := by
  intro j g hj
  rw [lookup_insert_ite] at hj
  split_ifs at hj with hid
  · obtain rfl := Option.some.inj hj
    exact hgroup
  · exact h j g hj

theorem Throughout.erase {Q : Group → Prop} {groups : GoMap Bytes Group} (h : Throughout Q groups)
    (groupID : Bytes) : Throughout Q (groups.erase groupID) := by
  intro j g hj
  exact h j g (lookup_erase_eq_some.mp hj).2

/-- What a call must not ask for: a creator among the listed members, or the admin's removal
of the admin. -/
def Proper (s : StoredGroups) : MembershipEvent → Prop
  | .create _ memberPubkeys _ _ _ _ => ∀ identity, s.daemon.identity = some identity →
      identity.pubkeyB64 ≠ [] → identity.pubkeyB64 ∉ memberPubkeys
  | .remove groupID memberPubkey _ _ => ∀ group identity,
      s.daemon.groups.lookup groupID = some group → s.daemon.identity = some identity →
      group.adminPubkey = identity.pubkeyB64 → group.adminPubkey ≠ [] →
      memberPubkey ≠ group.adminPubkey
  | _ => True

/-- Beside what is asked of the groups in memory: the same of the file, and the role is never
given twice, whatever the calls ask for. -/
structure Governed (s : StoredGroups) : Prop where
  memory : Throughout Group.Administered s.daemon.groups
  file : Throughout Group.Administered s.file
  exclusive : Throughout Group.Exclusive s.daemon.groups
  exclusiveFile : Throughout Group.Exclusive s.file

theorem GroupsChange.exclusive {s : StoredGroups} (h : Governed s) {e : MembershipEvent}
    {groups : GoMap Bytes Group} (hchange : GroupsChange P s e groups) :
    Throughout Group.Exclusive groups := by
  cases hchange with
  | kept => exact h.exclusive
  | created hid name memberPubkeys groupKey unixNano =>
    exact h.exclusive.insert (newGroup_exclusive _ _ name memberPubkeys groupKey) _
  | deleted groupID => exact h.exclusive.erase groupID
  | left hgroup myPubkey hint =>
    exact h.exclusive.insert ((h.exclusive _ _ hgroup).leave myPubkey hint) _
  | removed hgroup => exact h.exclusive.insert ((h.exclusive _ _ hgroup).remove P _) _
  | loaded => exact h.exclusiveFile

private theorem leave_adminPubkey {group : Group} {myPubkey : Bytes}
    (h : group.adminPubkey ≠ myPubkey)
    (hint : List Bytes) : (group.leave myPubkey hint).adminPubkey = group.adminPubkey := by
  unfold Group.leave
  rw [if_neg h]

theorem GroupsChange.administered {s : StoredGroups} (h : Governed s) {e : MembershipEvent}
    (hproper : Proper s e) {groups : GoMap Bytes Group} (hchange : GroupsChange P s e groups) :
    Throughout Group.Administered groups := by
  cases hchange with
  | kept => exact h.memory
  | @created identity hid name memberPubkeys groupKey unixNano draw written =>
    refine h.memory.insert ?_ _
    intro hne
    exact ⟨(newGroup_seated_iff _ _ name memberPubkeys groupKey).mpr (hproper identity hid hne),
      newGroup_exclusive _ _ name memberPubkeys groupKey⟩
  | deleted groupID => exact h.memory.erase groupID
  | @left groupID group hgroup myPubkey hint written hkeys =>
    refine h.memory.insert ?_ _
    intro hne
    refine ⟨Group.Seated.leave ?_ hint hkeys, (h.exclusive _ _ hgroup).leave myPubkey hint⟩
    intro hother
    rw [leave_adminPubkey hother] at hne
    exact (h.memory _ _ hgroup hne).1
  | @removed groupID memberPubkey group identity hgroup hid hadmin hmem draw written =>
    refine h.memory.insert ?_ _
    intro hne
    have hseated : group.Seated := (h.memory _ _ hgroup hne).1
    exact ⟨(remove_seated_iff P memberPubkey hseated).mpr
      (hproper group identity hgroup hid hadmin hne), (h.exclusive _ _ hgroup).remove P memberPubkey⟩
  | loaded => exact h.file

variable (P) in
/-- The groups in memory are administered after the event. -/
def Keeps (s : StoredGroups) (e : MembershipEvent) : Prop :=
  ∀ t, membershipStep P s e = some t → Throughout Group.Administered t.daemon.groups

private theorem keeps_iff_proper {s : StoredGroups} (h : Governed s) (e : MembershipEvent) :
    Keeps P s e ↔ Proper s e := by
  constructor
  · intro hkeeps
    cases e with
    | create name memberPubkeys groupKey unixNano draw written =>
      intro identity hid hne
      obtain ⟨t, ht⟩ : ∃ t, membershipStep P s
          (.create name memberPubkeys groupKey unixNano draw written) = some t := by
        simp only [membershipStep, Daemon.createGroup, hid, Option.map_some]
        exact ⟨_, rfl⟩
      obtain ⟨⟨after, outs⟩, hcall, rfl⟩ := Option.map_eq_some_iff.mp ht
      obtain ⟨identity', hid', hgroups, -⟩ := createGroup_some P hcall
      obtain rfl : identity = identity' := Option.some.inj (hid.symm.trans hid')
      have hnew : after.groups.lookup (newGroupID unixNano) = some (newGroup identity.pubkeyB64
          (newGroupID unixNano) name memberPubkeys groupKey) := by
        rw [hgroups, lookup_insert_ite, if_pos rfl]
      exact (newGroup_seated_iff _ _ name memberPubkeys groupKey).mp (hkeeps _ ht _ _ hnew hne).1
    | remove groupID memberPubkey draw written =>
      rintro group identity hgroup hid hadmin hne rfl
      have hseated := (h.memory _ _ hgroup hne).1
      obtain ⟨m, hm, -⟩ := id hseated
      obtain ⟨outs, hcall⟩ := removeGroupMember_of_admin P hgroup hid hadmin
        (mem_iff_lookup.mpr ⟨m, hm⟩) draw
      have ht : membershipStep P s (.remove groupID group.adminPubkey draw written) = some _ :=
        Option.map_eq_some_iff.mpr ⟨_, hcall, rfl⟩
      have hafter : (s.daemon.groups.insert groupID (group.remove P group.adminPubkey)).lookup
          groupID = some (group.remove P group.adminPubkey) := by
        rw [lookup_insert_ite, if_pos rfl]
      exact (remove_seated_iff P group.adminPubkey hseated).mp
        (hkeeps _ ht groupID _ hafter hne).1 rfl
    | _ => trivial
  · intro hproper t ht
    exact (membershipStep_change ht).1.administered h hproper

theorem Governed.step {s t : StoredGroups} {e : MembershipEvent} (h : Governed s)
    (hkeeps : Keeps P s e) (hst : membershipStep P s e = some t) : Governed t := by
  obtain ⟨hchange, hfile⟩ := membershipStep_change hst
  have hmemory := hkeeps t hst
  have hexclusive := hchange.exclusive h
  rcases hfile with hfile | hfile
  · exact ⟨hmemory, hfile ▸ h.file, hexclusive, hfile ▸ h.exclusiveFile⟩
  · exact ⟨hmemory, hfile ▸ hmemory, hexclusive, hfile ▸ hexclusive⟩

variable (P) in
/-- From a daemon without groups, a run keeps every stored group administered exactly if no
call of it asks for what breaks a group. -/
theorem membership_kept_iff (d : Daemon) (events : List MembershipEvent) :
    Meets (membershipStep P) (Keeps P) ⟨{ d with groups := ∅ }, ∅⟩ events ↔
      Meets (membershipStep P) Proper ⟨{ d with groups := ∅ }, ∅⟩ events := by
  have hempty : ∀ Q, Throughout Q (∅ : GoMap Bytes Group) := fun Q groupID group h => nomatch h
  have hstart : Governed ⟨{ d with groups := ∅ }, ∅⟩ :=
    ⟨hempty _, hempty _, hempty _, hempty _⟩
  exact meets_iff_of_invariant (fun s e h => keeps_iff_proper h e)
    (fun s e t h hkeeps hst => h.step hkeeps hst) hstart events

/-- Daemon 1 creates a group at time 7 with the given members. -/
def createAt7 (members : List UInt8) : MembershipEvent :=
  .create (lit "team") (members.map (fun b => (identityOf b).pubkeyB64)) (keyOf 9) 7
    ⟨[], fun _ => someNonce⟩ true

/-- The creator lists itself, or removes itself: the admin is then no admin, or no member. -/
theorem ownKey_unseats :
    let start : StoredGroups := ⟨knowing 1 [], ∅⟩
    let removal : MembershipEvent := .remove (newGroupID 7) (identityOf 1).pubkeyB64
      ⟨[], fun _ => someNonce⟩ true
    (∃ t group, run (membershipStep .transparent) start [createAt7 [1, 2]] = some t ∧
      t.daemon.groups.lookup (newGroupID 7) = some group ∧ group.adminPubkey ≠ [] ∧
      ¬ group.Seated) ∧
    ∃ t group, run (membershipStep .transparent) start [createAt7 [2], removal] = some t ∧
      t.daemon.groups.lookup (newGroupID 7) = some group ∧ group.adminPubkey ≠ [] ∧
      ¬ group.Seated := by
  intro start removal
  constructor
  · exact ⟨_, _, rfl, rfl, by decide +kernel, by decide +kernel⟩
  · exact ⟨_, _, rfl, rfl, by decide +kernel, by decide +kernel⟩

end VRGram.Client
