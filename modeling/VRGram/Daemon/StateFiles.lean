import VRGram.Daemon.PeerCalls
import VRGram.Lib.JsonMap
import VRGram.Lib.StateFile

/-!
# The daemon's state files

`daemon_peers.json`, `daemon_groups.json` and `profile.json` as `savePeers`, `saveGroups` and
`saveProfile` write them and the loaders read them. The loaded maps hold pointers, since a file
may have `null` for an entry, and a member's role is any text. A nil map of members is read as
the empty one.
-/
namespace VRGram.Client

open VRGram.Lib VRGram.Lib.Maps VRGram.Lib.Strings VRGram.Lib.Json VRGram.Lib.Utf8
open VRGram.Lib.StateFile

set_option autoImplicit false

/-- A map of pointers; nil is `none`. -/
abbrev Pointers (α : Type) := GoMap Bytes (Option α)

/-- `loadPeers` and `loadGroups`: a file that cannot be parsed leaves the map alone. -/
def loadEntries {α : Type} (read : Value → Option α) (hint : List Bytes) (m : Pointers α)
    (data : Bytes) : Pointers α :=
  match (parse data).bind (readMap (pointer read) ∅) with
  | some loaded => putAll hint m loaded
  | none => m

section

variable {α β : Type}

theorem loadEntries_written {read : Value → Option α} {doc : β → Doc}
    {m : GoMap Bytes β} {loaded : Pointers α} {bound : Nat} (hdoc : ∀ v, (doc v).height ≤ bound)
    (hbound : bound < maxNestingDepth)
    (h : readMap (pointer read) ∅ (mapDoc doc m).value = some loaded) (hint : List Bytes)
    (k : Bytes) :
    (loadEntries read hint ∅ ((mapDoc doc m).write twoSpaces 0)).lookup k = loaded.lookup k := by
  have hparse := parse_write twoSpaces (mapDoc doc m) ((mapDoc_height hdoc m).trans hbound)
  rw [loadEntries, hparse, Option.bind_some, h]
  exact lookup_putAll_empty hint loaded k

theorem loadEntries_cut (read : Value → Option α) (doc : β → Doc) (m : GoMap Bytes β)
    {bound : Nat} (hdoc : ∀ v, (doc v).height ≤ bound) (hbound : bound < maxNestingDepth)
    (hint : List Bytes) (start : Pointers α) (n : Nat) :
    loadEntries read hint start (((mapDoc doc m).write twoSpaces 0).dropLast.take n) = start := by
  have hparse := parse_cut twoSpaces (mapMembers doc m) ((mapDoc_height hdoc m).trans hbound) n
  rw [loadEntries, mapDoc, hparse]
  rfl

end

/-! ## Peers -/

def peerFields (e : PeerInfoEntry) : List (Bytes × Doc) :=
  [(lit "nickname", .text e.nickname), (lit "pubkey", .text e.pubkey)]

def peerNames : List Bytes := [lit "nickname", lit "pubkey"]

def readPeer (v : Value) : Option PeerInfoEntry := do
  let ms ← structMembers v
  let nickname ← stringField peerNames ms (lit "nickname")
  let pubkey ← stringField peerNames ms (lit "pubkey")
  pure ⟨nickname, pubkey⟩

def peersText (peers : Pointers PeerInfoEntry) : Bytes :=
  (mapDoc (pointerDoc (fun e => .object (peerFields e))) peers).write twoSpaces 0

def loadPeersFile (hint : List Bytes) (peers : Pointers PeerInfoEntry) (data : Bytes) :
    Pointers PeerInfoEntry :=
  loadEntries readPeer hint peers data

theorem peerFields_height (e : Option PeerInfoEntry) :
    (pointerDoc (fun e => .object (peerFields e)) e).height ≤ 1 := by
  cases e <;> simp [pointerDoc, peerFields, Doc.height, membersHeight, memberHeight]

private theorem readPeer_fields (e : PeerInfoEntry) :
    readPeer (Doc.object (peerFields e)).value = some ⟨reread e.nickname, reread e.pubkey⟩ := by
  have hfields : Labelled peerNames (peerFields e) := ⟨List.Sublist.refl _, by decide, by decide⟩
  have hnickname := hfields.text (List.mem_of_getElem? (i := 0) rfl)
  have hpubkey := hfields.text (List.mem_of_getElem? (i := 1) rfl)
  rw [readPeer, hfields.structMembers]
  simp only [Option.bind_eq_bind, Option.bind_some, hnickname, hpubkey, Option.pure_def]

/-- The map update of a call, on pointers. -/
def PeersCall.store (peers : Pointers PeerInfoEntry) (call : PeersCall) : Pointers PeerInfoEntry :=
  match call.entry with
  | some e => peers.insert call.pubkey (some e)
  | none => peers.erase call.pubkey

def PeersCall.WellFormed (call : PeersCall) : Prop :=
  Utf8.WellFormed call.pubkey ∧ ∀ e ∈ call.entry, Utf8.WellFormed e.nickname

instance (call : PeersCall) : Decidable call.WellFormed := by
  unfold PeersCall.WellFormed
  infer_instance

theorem lookup_store (peers : Pointers PeerInfoEntry) (call : PeersCall) (pubkey : Bytes) :
    (call.store peers).lookup pubkey =
      if call.pubkey = pubkey then call.entry.map some else peers.lookup pubkey := by
  unfold PeersCall.store
  cases call.entry with
  | none =>
    simp only [lookup_erase_ite, eq_comm (a := pubkey), Option.map_none]
  | some e =>
    simp only [lookup_insert_ite, eq_comm (a := pubkey), Option.map_some]

/-- All texts of the map are UTF-8, so that JSON keeps them. -/
def Storable (peers : Pointers PeerInfoEntry) : Prop :=
  ∀ pubkey entry, peers.lookup pubkey = some entry → WellFormed pubkey ∧
    ∀ e ∈ entry, WellFormed e.nickname ∧ WellFormed e.pubkey

theorem Storable.store {peers : Pointers PeerInfoEntry} (h : Storable peers) {call : PeersCall}
    (hcall : call.WellFormed) : Storable (call.store peers) := by
  intro pubkey entry hentry
  rw [lookup_store] at hentry
  split_ifs at hentry with hkey
  · subst hkey
    obtain ⟨e, he, rfl⟩ := Option.map_eq_some_iff.mp hentry
    refine ⟨hcall.1, ?_⟩
    rintro _ ⟨⟩
    refine ⟨hcall.2 e he, ?_⟩
    rw [call.entry_pubkey he]
    exact hcall.1
  · exact h pubkey entry hentry

/-- A restart finds the map that was written. -/
theorem lookup_loadPeersFile {peers : Pointers PeerInfoEntry} (h : Storable peers)
    (hint : List Bytes) (pubkey : Bytes) :
    (loadPeersFile hint ∅ (peersText peers)).lookup pubkey = peers.lookup pubkey := by
  have hentry : ∀ k v, peers.lookup k = some v →
      pointer readPeer (pointerDoc (fun e => .object (peerFields e)) v).value = some v := by
    intro k v hv
    cases v with
    | none => rfl
    | some e =>
      obtain ⟨hnick, hkey⟩ := (h k _ hv).2 e rfl
      rw [pointerDoc, pointer_object, readPeer_fields, (reread_eq_self_iff _).mpr hkey,
        (reread_eq_self_iff _).mpr hnick]
      rfl
  obtain ⟨loaded, hloaded, -⟩ := readMap_total (fun k v hv => ⟨v, hentry k v hv⟩)
  have hkeys : ∀ k ∈ peers, WellFormed k := by
    intro k hk
    obtain ⟨v, hv⟩ := mem_iff_lookup.mp hk
    exact (h k v hv).1
  rw [loadPeersFile, peersText,
    loadEntries_written peerFields_height (by decide) hloaded hint pubkey,
    readMap_lookup hkeys hloaded]
  cases hv : peers.lookup pubkey with
  | none => rfl
  | some v => exact hentry pubkey v hv

/-- What the calls have made of the peers, and that all of it can be written. -/
structure Holds (calls : List PeersCall) (peers : Pointers PeerInfoEntry) : Prop where
  entries : ∀ pubkey, peers.lookup pubkey =
    ((calls.foldl PeersCall.update ∅).lookup pubkey).map some
  wellFormed : ∀ pubkey e, (calls.foldl PeersCall.update ∅).lookup pubkey = some e →
    e.pubkey = pubkey ∧ WellFormed pubkey ∧ WellFormed e.nickname

theorem Holds.store {calls : List PeersCall} {peers : Pointers PeerInfoEntry}
    (h : Holds calls peers) {call : PeersCall} (hcall : call.WellFormed) :
    Holds (calls ++ [call]) (call.store peers) := by
  have hfold : (calls ++ [call]).foldl PeersCall.update ∅ =
      call.update (calls.foldl PeersCall.update ∅) := by
    rw [List.foldl_append, List.foldl_cons, List.foldl_nil]
  constructor
  · intro pubkey
    rw [hfold, lookup_store, lookup_update, h.entries]
    split <;> rfl
  · intro pubkey e he
    rw [hfold, lookup_update] at he
    split_ifs at he with hkey
    · obtain rfl := hkey
      exact ⟨call.entry_pubkey he, hcall.1, hcall.2 e he⟩
    · exact h.wellFormed pubkey e he

theorem Holds.load {calls : List PeersCall} {peers : Pointers PeerInfoEntry}
    (h : Holds calls peers) (hint : List Bytes) :
    Holds calls (loadPeersFile hint ∅ (peersText peers)) := by
  have hstorable : Storable peers := by
    intro pubkey entry hentry
    rw [h.entries, Option.map_eq_some_iff] at hentry
    obtain ⟨e, he, rfl⟩ := hentry
    obtain ⟨rfl, hkey, hnick⟩ := h.wellFormed pubkey e he
    refine ⟨hkey, ?_⟩
    rintro _ ⟨⟩
    exact ⟨hnick, hkey⟩
  refine ⟨fun pubkey => ?_, h.wellFormed⟩
  rw [lookup_loadPeersFile hstorable, h.entries]

/-- A `GroupMember` as a file has it. -/
structure StoredMember where
  pubkey : Bytes
  nickname : Bytes
  role : Bytes
  deriving DecidableEq

structure StoredGroup where
  groupID : Bytes
  name : Bytes
  adminPubkey : Bytes
  members : Pointers StoredMember
  groupKey : Bytes
  keyEpoch : UInt64

def Role.text : Role → Bytes
  | .admin => lit "admin"
  | .member => lit "member"

def GroupMember.stored (m : GroupMember) : StoredMember := ⟨m.pubkey, m.nickname, m.role.text⟩

def memberFields (m : GroupMember) : List (Bytes × Doc) :=
  [(lit "pubkey", .text m.pubkey), (lit "nickname", .text m.nickname),
    (lit "role", .text m.role.text)]

def membersDoc (members : GoMap Bytes GroupMember) : Doc :=
  mapDoc (fun m => .object (memberFields m)) members

def groupFields (g : Group) : List (Bytes × Doc) :=
  [(lit "group_id", .text g.groupID), (lit "name", .text g.name),
    (lit "admin_pubkey", .text g.adminPubkey), (lit "members", membersDoc g.members),
    (lit "group_key", .text (Base64Std.encodeToString g.groupKey)),
    (lit "key_epoch", .number g.keyEpoch.toNat)]

def memberNames : List Bytes := [lit "pubkey", lit "nickname", lit "role"]

def groupNames : List Bytes :=
  [lit "group_id", lit "name", lit "admin_pubkey", lit "members", lit "group_key", lit "key_epoch"]

def readMember (v : Value) : Option StoredMember := do
  let ms ← structMembers v
  let pubkey ← stringField memberNames ms (lit "pubkey")
  let nickname ← stringField memberNames ms (lit "nickname")
  let role ← stringField memberNames ms (lit "role")
  pure ⟨pubkey, nickname, role⟩

def readGroup (v : Value) : Option StoredGroup := do
  let ms ← structMembers v
  let groupID ← stringField groupNames ms (lit "group_id")
  let name ← stringField groupNames ms (lit "name")
  let adminPubkey ← stringField groupNames ms (lit "admin_pubkey")
  let members ← fill (readMap (pointer readMember)) ∅ groupNames ms (lit "members")
  let groupKey ← fill (fun _ v => asByteSlice v) [] groupNames ms (lit "group_key")
  let keyEpoch ← uint64Field groupNames ms (lit "key_epoch")
  pure ⟨groupID, name, adminPubkey, members, groupKey, keyEpoch⟩

def groupsText (groups : GoMap Bytes Group) : Bytes :=
  (mapDoc (fun g => .object (groupFields g)) groups).write twoSpaces 0

def loadGroupsFile (hint : List Bytes) (groups : Pointers StoredGroup) (data : Bytes) :
    Pointers StoredGroup :=
  loadEntries readGroup hint groups data

theorem readMember_fields (m : GroupMember) :
    readMember (Doc.object (memberFields m)).value =
      some ⟨reread m.pubkey, reread m.nickname, m.role.text⟩ := by
  have hfields : Labelled memberNames (memberFields m) :=
    ⟨List.Sublist.refl _, by decide, by decide⟩
  have hpubkey := hfields.text (List.mem_of_getElem? (i := 0) rfl)
  have hnickname := hfields.text (List.mem_of_getElem? (i := 1) rfl)
  have hrole := hfields.text (List.mem_of_getElem? (i := 2) rfl)
  have hplain : reread m.role.text = m.role.text := by
    rw [reread_eq_self_iff]
    cases m.role <;> decide
  rw [readMember, hfields.structMembers]
  simp only [Option.bind_eq_bind, Option.bind_some, hpubkey, hnickname, hrole, hplain,
    Option.pure_def]

/-- Every member that is found was written, under a key that was coerced to UTF-8. -/
theorem readMembers_total (members : GoMap Bytes GroupMember) :
    ∃ after, readMap (pointer readMember) ∅ (membersDoc members).value = some after ∧
      ∀ k w, after.lookup k = some w → ∃ k' m, members.lookup k' = some m ∧ k = reread k' ∧
        w = some ⟨reread m.pubkey, reread m.nickname, m.role.text⟩ := by
  have hread : ∀ m : GroupMember, pointer readMember (Doc.object (memberFields m)).value =
      some (some ⟨reread m.pubkey, reread m.nickname, m.role.text⟩) := by
    intro m
    rw [pointer_object, readMember_fields]
    rfl
  obtain ⟨after, hafter, horigin⟩ := readMap_total (fun k m (_ : members.lookup k = some m) =>
    ⟨_, hread m⟩)
  refine ⟨after, hafter, fun k w hw => ?_⟩
  obtain ⟨k', m, hm, hk, hval⟩ := horigin k w hw
  rw [hread] at hval
  exact ⟨k', m, hm, hk, (Option.some.inj hval).symm⟩

/-- What a group is read as. -/
structure GroupRead (g : Group) (stored : StoredGroup) : Prop where
  groupID : stored.groupID = reread g.groupID
  name : stored.name = reread g.name
  adminPubkey : stored.adminPubkey = reread g.adminPubkey
  members : readMap (pointer readMember) ∅ (membersDoc g.members).value = some stored.members
  groupKey : stored.groupKey = g.groupKey
  keyEpoch : stored.keyEpoch = g.keyEpoch

private theorem readGroup_fields (g : Group) :
    ∃ stored, readGroup (Doc.object (groupFields g)).value = some stored ∧ GroupRead g stored := by
  have hfields : Labelled groupNames (groupFields g) := ⟨List.Sublist.refl _, by decide, by decide⟩
  have hid := hfields.text (List.mem_of_getElem? (i := 0) rfl)
  have hname := hfields.text (List.mem_of_getElem? (i := 1) rfl)
  have hadmin := hfields.text (List.mem_of_getElem? (i := 2) rfl)
  obtain ⟨members, hread, -⟩ := readMembers_total g.members
  have hmembers := (hfields.fill (List.mem_of_getElem? (i := 3) rfl)
    (readMap (pointer readMember)) ∅).trans hread
  have hkey : fill (fun _ v => asByteSlice v) [] groupNames (fieldValues (groupFields g))
      (lit "group_key") = some g.groupKey := by
    have hplain := (reread_eq_self_iff _).mpr (printable_base64 g.groupKey).wellFormed
    refine (hfields.fill (List.mem_of_getElem? (i := 4) rfl) _ _).trans ?_
    rw [Doc.value, asByteSlice, hplain, Base64Std.decodeString_encode]
  have hepoch : uint64Field groupNames (fieldValues (groupFields g)) (lit "key_epoch") =
      some g.keyEpoch := by
    have hne : (Doc.number g.keyEpoch.toNat).value ≠ .null := by
      rw [Doc.value]
      exact Value.noConfusion
    refine (hfields.field (List.mem_of_getElem? (i := 5) rfl) hne asUint64 0).trans ?_
    rw [Doc.value, asUint64]
    exact parseUint_decimal g.keyEpoch
  refine ⟨⟨reread g.groupID, reread g.name, reread g.adminPubkey, members, g.groupKey, g.keyEpoch⟩,
    ?_, ⟨rfl, rfl, rfl, hread, rfl, rfl⟩⟩
  rw [readGroup, hfields.structMembers]
  simp only [Option.bind_eq_bind, Option.bind_some, hid, hname, hadmin, hmembers, hkey, hepoch,
    Option.pure_def]

/-- A loaded pointer stands for the group that was saved. -/
structure SameGroup (g : Group) (stored : StoredGroup) : Prop where
  groupID : stored.groupID = g.groupID
  name : stored.name = g.name
  adminPubkey : stored.adminPubkey = g.adminPubkey
  members : ∀ k, stored.members.lookup k = (g.members.lookup k).map (fun m => some m.stored)
  groupKey : stored.groupKey = g.groupKey
  keyEpoch : stored.keyEpoch = g.keyEpoch

/-- The loaded map has the groups that were saved, and no others. -/
def SameGroups (groups : GoMap Bytes Group) (loaded : Pointers StoredGroup) : Prop :=
  ∀ id, Option.Rel (fun g s => ∃ stored, s = some stored ∧ SameGroup g stored)
    (groups.lookup id) (loaded.lookup id)

/-- All texts of a group are UTF-8. -/
structure Group.WellFormed (g : Group) : Prop where
  groupID : Utf8.WellFormed g.groupID
  name : Utf8.WellFormed g.name
  adminPubkey : Utf8.WellFormed g.adminPubkey
  members : ∀ k m, g.members.lookup k = some m →
    Utf8.WellFormed k ∧ Utf8.WellFormed m.pubkey ∧ Utf8.WellFormed m.nickname

theorem wellFormed_reread (s : Bytes) : WellFormed (reread s) := wellFormed_unquote _ _

theorem GroupRead.same {g : Group} {stored : StoredGroup} (h : GroupRead g stored)
    (hg : g.WellFormed) : SameGroup g stored := by
  refine ⟨?_, ?_, ?_, fun k => ?_, h.groupKey, h.keyEpoch⟩
  · rw [h.groupID, (reread_eq_self_iff _).mpr hg.groupID]
  · rw [h.name, (reread_eq_self_iff _).mpr hg.name]
  · rw [h.adminPubkey, (reread_eq_self_iff _).mpr hg.adminPubkey]
  · have hkeys : ∀ k ∈ g.members, WellFormed k := by
      intro k hk
      obtain ⟨m, hm⟩ := mem_iff_lookup.mp hk
      exact (hg.members k m hm).1
    rw [readMap_lookup hkeys h.members]
    cases hm : g.members.lookup k with
    | none => rfl
    | some m =>
      obtain ⟨-, hpubkey, hnickname⟩ := hg.members k m hm
      rw [Option.bind_some, pointer_object, readMember_fields, (reread_eq_self_iff _).mpr hpubkey,
        (reread_eq_self_iff _).mpr hnickname]
      rfl

/-- What can be read at all is UTF-8, so a group that comes back was. -/
theorem SameGroup.wellFormed {g g' : Group} {stored : StoredGroup} (h : SameGroup g stored)
    (hread : GroupRead g' stored) : g.WellFormed := by
  refine ⟨?_, ?_, ?_, fun k m hm => ?_⟩
  · rw [← h.groupID, hread.groupID]
    exact wellFormed_reread _
  · rw [← h.name, hread.name]
    exact wellFormed_reread _
  · rw [← h.adminPubkey, hread.adminPubkey]
    exact wellFormed_reread _
  · obtain ⟨after, hafter, horigin⟩ := readMembers_total g'.members
    obtain rfl := Option.some.inj (hread.members.symm.trans hafter)
    have hlookup := h.members k
    rw [hm, Option.map_some] at hlookup
    obtain ⟨k', m', -, rfl, hm'⟩ := horigin k _ hlookup
    have hstored : m.stored = ⟨reread m'.pubkey, reread m'.nickname, m'.role.text⟩ :=
      Option.some.inj hm'
    have hpubkey : m.pubkey = reread m'.pubkey := congrArg StoredMember.pubkey hstored
    have hnickname : m.nickname = reread m'.nickname := congrArg StoredMember.nickname hstored
    rw [hpubkey, hnickname]
    exact ⟨wellFormed_reread _, wellFormed_reread _, wellFormed_reread _⟩

private theorem memberFields_height (m : GroupMember) :
    (Doc.object (memberFields m)).height ≤ 1 := by
  simp [memberFields, Doc.height, membersHeight, memberHeight]

theorem groupFields_height (g : Group) : (Doc.object (groupFields g)).height ≤ 3 := by
  have hmembers : (membersDoc g.members).height ≤ 2 := mapDoc_height memberFields_height g.members
  simp only [groupFields, Doc.height, membersHeight, memberHeight]
  omega

/-- A restart finds the saved groups, with their members, keys and epochs, exactly if every text
in them is UTF-8; and a file of which the end is missing adds nothing to what the daemon has. -/
theorem groups_reload (groups : GoMap Bytes Group) (hint : List Bytes) :
    (SameGroups groups (loadGroupsFile hint ∅ (groupsText groups)) ↔
      ∀ id g, groups.lookup id = some g → WellFormed id ∧ g.WellFormed) ∧
    ∀ start n, loadGroupsFile hint start ((groupsText groups).dropLast.take n) = start := by
  have hread : ∀ g : Group, ∃ stored,
      pointer readGroup (Doc.object (groupFields g)).value = some (some stored) ∧
        GroupRead g stored := by
    intro g
    obtain ⟨stored, hstored, hgroup⟩ := readGroup_fields g
    refine ⟨stored, ?_, hgroup⟩
    rw [pointer_object, hstored]
    rfl
  obtain ⟨loaded, hloaded, horigin⟩ := readMap_total
    (fun k g (_ : groups.lookup k = some g) => ⟨_, (hread g).choose_spec.1⟩)
  have hload : ∀ id, (loadGroupsFile hint ∅ (groupsText groups)).lookup id = loaded.lookup id :=
    loadEntries_written groupFields_height (by decide) hloaded hint
  refine ⟨?_, fun start n => loadEntries_cut readGroup _ groups groupFields_height (by decide) hint
    start n⟩
  unfold SameGroups
  simp only [hload]
  constructor
  · intro hsame id g hg
    have hrel := hsame id
    rw [hg] at hrel
    cases hl : loaded.lookup id with
    | none =>
      rw [hl] at hrel
      cases hrel
    | some s =>
      rw [hl] at hrel
      cases hrel with
      | some hstored =>
        obtain ⟨stored, rfl, hgroup⟩ := hstored
        obtain ⟨id', g', -, rfl, hval⟩ := horigin id _ hl
        obtain ⟨stored', hval', hread'⟩ := hread g'
        obtain rfl := Option.some.inj (Option.some.inj (hval.symm.trans hval'))
        exact ⟨wellFormed_reread _, hgroup.wellFormed hread'⟩
  · intro hall id
    have hkeys : ∀ k ∈ groups, WellFormed k := by
      intro k hk
      obtain ⟨g, hg⟩ := mem_iff_lookup.mp hk
      exact (hall k g hg).1
    rw [readMap_lookup hkeys hloaded]
    cases hg : groups.lookup id with
    | none => exact Option.Rel.none
    | some g =>
      obtain ⟨stored, hstored, hgroup⟩ := hread g
      rw [Option.bind_some, hstored]
      exact Option.Rel.some ⟨stored, rfl, hgroup.same (hall id g hg).2⟩

end VRGram.Client
