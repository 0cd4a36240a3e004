import VRGram.Daemon.Epochs
import VRGram.Lib.JsonText

/-!
# One key for each epoch

A group is created by one daemon, and its key texts reach any number of others in any
order, some never and some twice, while the daemons leave the group and remove members.
Every version of the group that is stored or sent is then a rotation of the first one,
and the epoch counts the rotations.
-/
namespace VRGram.Client

open VRGram.Lib VRGram.Lib.Maps VRGram.Lib.Machine VRGram.Lib.Strings VRGram.Crypto VRGram.Encoding

set_option autoImplicit false

/-! ## Reading a key text back -/

/-- The members of a key text, in order. -/
def keyMembers (groupID groupKey : Bytes) (epoch : UInt64) (name : Option Bytes) :
    List (Bytes × Json.Item) :=
  [(lit "type", .text (lit "group_key")), (lit "group_id", .text groupID),
    (lit "group_key_b64", .text (Base64Std.encodeToString groupKey)),
    (lit "key_epoch", .nat epoch.toNat)] ++ name.toList.map (fun name => (lit "name", .text name))

private theorem distribution_eq_render (groupID groupKey : Bytes) (epoch : UInt64)
    (name : Option Bytes) :
    distribution groupID groupKey epoch name =
      Json.renderObject (keyMembers groupID groupKey epoch name) := by
  have htype : lit "\x7b\"type\":\"group_key\",\"group_id\":\"" =
      123 :: Json.quote :: (lit "type" ++ Json.quote :: 58 :: Json.quote :: (lit "group_key" ++
        Json.quote :: 44 :: Json.quote :: (lit "group_id" ++ [Json.quote, 58, Json.quote]))) := by
    decide
  have hkey : lit "\",\"group_key_b64\":\"" = Json.quote :: 44 :: Json.quote ::
      (lit "group_key_b64" ++ [Json.quote, 58, Json.quote]) := by decide
  have hepoch : lit "\",\"key_epoch\":" = Json.quote :: 44 :: Json.quote ::
      (lit "key_epoch" ++ [Json.quote, 58]) := by decide
  have hname : lit ",\"name\":\"" =
      44 :: Json.quote :: (lit "name" ++ [Json.quote, 58, Json.quote]) := by decide
  have hquote : lit "\"" = [Json.quote] := by decide
  have hclose : lit "\x7d" = [125] := by decide
  cases name with
  | none =>
    simp [distribution, Json.renderObject, keyMembers, Json.renderMembers, Json.renderMember,
      Json.Item.render, htype, hkey, hepoch, hclose]
  | some name =>
    simp [distribution, Json.renderObject, keyMembers, Json.renderMembers, Json.renderMember,
      Json.Item.render, htype, hkey, hepoch, hname, hquote, hclose]

theorem printable_newGroupID (unixNano : Int) : Json.Printable (newGroupID unixNano) := by
  intro c hc
  rcases List.mem_append.mp hc with hg | hc
  · obtain rfl := List.mem_singleton.mp hg
    decide
  · cases unixNano with
    | ofNat n => exact Json.printable_decimal n c hc
    | negSucc n =>
      rcases List.mem_cons.mp hc with rfl | hc
      · decide
      · exact Json.printable_decimal (n + 1) c hc

/-- The version in a key message. -/
def KeyDist.version (dist : KeyDist) : Version := ⟨dist.keyEpoch, dist.groupKey⟩

private theorem keyMembers_keys (groupID groupKey : Bytes) (epoch : UInt64) (name : Option Bytes) :
    ((keyMembers groupID groupKey epoch name).map Json.readMember).map Prod.fst ⊆ keyDistNames ∧
      (((keyMembers groupID groupKey epoch name).map Json.readMember).map Prod.fst).Nodup := by
  cases name with
  | none =>
    have hkeys : ((keyMembers groupID groupKey epoch none).map Json.readMember).map Prod.fst =
        [lit "type", lit "group_id", lit "group_key_b64", lit "key_epoch"] := rfl
    rw [hkeys]
    decide
  | some name =>
    have hkeys : ((keyMembers groupID groupKey epoch (some name)).map Json.readMember).map Prod.fst =
        keyDistNames := rfl
    rw [hkeys]
    decide

private theorem keyMembers_plain {groupID : Bytes} {name : Option Bytes}
    (hid : Json.Printable groupID)
    (hname : ∀ n ∈ name, Json.Plain n) (groupKey : Bytes) (epoch : UInt64) :
    ∀ m ∈ keyMembers groupID groupKey epoch name, Json.Plain m.1 ∧ m.2.Plain := by
  have hkeys : ∀ key ∈ keyDistNames, Json.Plain key := by decide +kernel
  intro m hm
  simp only [keyMembers, List.mem_append, List.mem_cons, List.not_mem_nil, or_false, List.mem_map,
    Option.mem_toList] at hm
  rcases hm with (rfl | rfl | rfl | rfl) | ⟨n, hn, rfl⟩
  · exact ⟨hkeys (lit "type") (by decide), (by decide +kernel : Json.Plain (lit "group_key"))⟩
  · exact ⟨hkeys (lit "group_id") (by decide), hid.plain⟩
  · exact ⟨hkeys (lit "group_key_b64") (by decide), (Json.printable_base64 groupKey).plain⟩
  · exact ⟨hkeys (lit "key_epoch") (by decide), trivial⟩
  · exact ⟨hkeys (lit "name") (by decide), hname n hn⟩

theorem keyMembers_field {α : Type} (read : Json.Value → Option α) (zero : α)
    {groupID groupKey : Bytes} {epoch : UInt64} {name : Option Bytes} {key : Bytes} {item : Json.Item}
    (hm : (key, item) ∈ keyMembers groupID groupKey epoch name) (hkey : Json.Printable key) :
    Json.field read zero keyDistNames ((keyMembers groupID groupKey epoch name).map Json.readMember)
      key = read item.value := by
  obtain ⟨hsub, hnodup⟩ := keyMembers_keys groupID groupKey epoch name
  have hmem : (key, item.value) ∈ (keyMembers groupID groupKey epoch name).map Json.readMember := by
    refine List.mem_map.mpr ⟨(key, item), hm, ?_⟩
    rw [Json.readMember, Json.unquote_printable hkey]
  have hknown : ∀ m ∈ (keyMembers groupID groupKey epoch name).map Json.readMember,
      m.1 ∈ keyDistNames := fun m hm => hsub (List.mem_map.mpr ⟨m, hm, rfl⟩)
  refine Json.field_of_mem read zero hmem hnodup (hknown _ hmem) ?_ ?_
  · intro m hm hsel
    rw [Json.fieldOf_self (hknown m hm)] at hsel
    exact Option.some.inj hsel
  · cases item <;> exact Json.Value.noConfusion

/-- Whoever reads a key text stores the version that was put into it. -/
theorem keyDistOf_distribution {groupID groupKey : Bytes} {epoch : UInt64} {name : Option Bytes}
    (hid : Json.Printable groupID) (hname : ∀ n ∈ name, Json.Plain n) {dist : KeyDist}
    (h : keyDistOf (distribution groupID groupKey epoch name) = some dist) :
    dist.version = ⟨epoch, groupKey⟩ := by
  obtain ⟨-, ms, hms, -, -, hkey, hepoch, -⟩ := keyDistOf_some_iff.mp h
  rw [distribution_eq_render,
    Json.unmarshal_render _ (keyMembers_plain hid hname groupKey epoch)] at hms
  obtain rfl := Option.some.inj hms
  have hkeyMem : (lit "group_key_b64", Json.Item.text (Base64Std.encodeToString groupKey)) ∈
      keyMembers groupID groupKey epoch name := by simp [keyMembers]
  have hepochMem : (lit "key_epoch", Json.Item.nat epoch.toNat) ∈
      keyMembers groupID groupKey epoch name := by simp [keyMembers]
  rw [Json.stringField, keyMembers_field _ _ hkeyMem (by decide +kernel), Json.Item.value, Json.asString,
    Json.unquote_printable (Json.printable_base64 groupKey)] at hkey
  rw [Json.uint64Field, keyMembers_field _ _ hepochMem (by decide +kernel), Json.Item.value, Json.asUint64,
    Json.parseUint_decimal] at hepoch
  rw [KeyDist.version, KeyDist.groupKey, ← Option.some.inj hkey, ← Option.some.inj hepoch,
    Base64Std.decode_encode]

/-! ## The daemons together -/

section

variable (P : Primitives)

/-- The text in the payloads that an event makes a daemon send, if they are about the group. -/
def keyTextSent (groupID : Bytes) (d : Daemon) : GroupEvent → Option Bytes
  | .create name _ groupKey unixNano _ =>
    if groupID = newGroupID unixNano then some (distribution groupID groupKey 1 (some name)) else none
  | .remove removed memberPubkey draw =>
    match d.groups.lookup removed, d.removeGroupMember P removed memberPubkey draw with
    | some group, some (.ok _, after) =>
      if groupID = group.groupID then
        (after.version groupID).map (fun v => distribution groupID v.key v.epoch none)
      else none
    | _, _ => none
  | _ => none

/-- Whether an event rotates the key of the group. -/
def rotates (groupID : Bytes) (d : Daemon) : GroupEvent → Bool
  | .remove removed memberPubkey draw =>
    match d.removeGroupMember P removed memberPubkey draw with
    | some (.ok _, _) => groupID == removed
    | _ => false
  | _ => false

/-- What an event hands to `engine.SendMessage`. -/
def payloadsOf (d : Daemon) : GroupEvent → List Outgoing
  | .create name memberPubkeys groupKey unixNano draw =>
    match d.createGroup P name memberPubkeys groupKey unixNano draw with
    | some (_, outs) => outs
    | none => []
  | .remove removed memberPubkey draw =>
    match d.removeGroupMember P removed memberPubkey draw with
    | some (.ok outs, _) => outs
    | _ => []
  | _ => []

/-- Every payload is the sealed key text of its event. -/
theorem payload_keyText {d : Daemon} {ev : GroupEvent} {out : Outgoing}
    (h : out ∈ payloadsOf P d ev) : ∃ groupID text secret nonce,
      keyTextSent P groupID d ev = some text ∧ out.payload = P.xchacha.sealWith secret nonce text := by
  cases ev with
  | message env pm => cases h
  | leave groupID hint => cases h
  | create name memberPubkeys groupKey unixNano draw =>
    simp only [payloadsOf] at h
    split at h
    next after outs hc =>
      obtain ⟨identity, -, -, rfl⟩ := createGroup_some P hc
      obtain ⟨pubkey, secret, -, -, hpayload⟩ := mem_distribute P h
      exact ⟨newGroupID unixNano, _, secret, _, by simp [keyTextSent], hpayload⟩
    next => cases h
  | remove removed memberPubkey draw =>
    simp only [payloadsOf] at h
    split at h
    next outs after hr =>
      obtain ⟨group, hgroup, -, -, identity, -, -, rfl⟩ := removeGroupMember_ok P hr
      unfold Daemon.distributeGroupKey at h
      cases hstored : after.groups.lookup group.groupID with
      | none =>
        rw [hstored] at h
        cases h
      | some stored =>
        rw [hstored] at h
        obtain ⟨pubkey, secret, -, -, hpayload⟩ := mem_distribute P h
        refine ⟨group.groupID, _, secret, _, ?_, hpayload⟩
        simp only [keyTextSent, hgroup, hr, if_true, Daemon.version, hstored, Option.map_some,
          Group.version]
    next => cases h

/-- Any number of daemons, the key texts of one group sent so far, and how often its key
was rotated. -/
structure Swarm (ι : Type) where
  daemons : ι → Daemon
  texts : List Bytes
  rotations : Nat

variable {ι : Type}

/-- One daemon handles an event; a call that panics there is nothing to the others. -/
def swarmStep [DecidableEq ι] (groupID : Bytes) (n : Swarm ι) (e : ι × GroupEvent) :
    Option (Swarm ι) :=
  match groupStep P (n.daemons e.1) e.2 with
  | none => some n
  | some after => some
    { daemons := Function.update n.daemons e.1 after
      texts := (keyTextSent P groupID (n.daemons e.1) e.2).toList ++ n.texts
      rotations := n.rotations + (rotates P groupID (n.daemons e.1) e.2).toNat }

theorem swarmStep_cases [DecidableEq ι] {groupID : Bytes} {n n' : Swarm ι} {e : ι × GroupEvent}
    (h : swarmStep P groupID n e = some n') :
    n' = n ∨ ∃ after, groupStep P (n.daemons e.1) e.2 = some after ∧
      n' = { daemons := Function.update n.daemons e.1 after
             texts := (keyTextSent P groupID (n.daemons e.1) e.2).toList ++ n.texts
             rotations := n.rotations + (rotates P groupID (n.daemons e.1) e.2).toNat } := by
  unfold swarmStep at h
  split at h
  next => exact Or.inl (Option.some.inj h).symm
  next after hafter => exact Or.inr ⟨after, hafter, (Option.some.inj h).symm⟩

/-- A key message for the group carries a text that was sent before, whoever brings it and
however often, and the group's id is not given out again. -/
def Genuine (groupID : Bytes) (n : Swarm ι) (e : ι × GroupEvent) : Prop :=
  match e.2 with
  | .message env pm => ∀ identity dist, (n.daemons e.1).identity = some identity →
      ((n.daemons e.1).processMessage P identity env pm).outcome = .groupKey dist →
      dist.groupID = groupID → ∃ text ∈ n.texts, keyDistOf text = some dist
  | .create _ _ _ unixNano _ => groupID ≠ newGroupID unixNano
  | _ => True

/-! ## Every version is a rotation of the first -/

/-- The version after `r` rotations of the created key. -/
def versionAt (created : Bytes) (r : Nat) : Version :=
  ⟨UInt64.ofNat (1 + r), (rotateGroupKey P)^[r] created⟩

/-- The version has come about by at most `rotations` rotations. -/
def Rotated (created : Bytes) (rotations : Nat) (v : Version) : Prop :=
  ∃ r ≤ rotations, v = versionAt P created r

theorem Rotated.mono {created : Bytes} {v : Version} {a b : Nat} (h : Rotated P created a v)
    (hab : a ≤ b) : Rotated P created b v := by
  obtain ⟨r, hr, hv⟩ := h
  exact ⟨r, by omega, hv⟩

theorem Rotated.remove {created : Bytes} {a : Nat} {group : Group}
    (h : Rotated P created a group.version) (memberPubkey : Bytes) :
    Rotated P created (a + 1) (group.remove P memberPubkey).version := by
  obtain ⟨r, hr, hv⟩ := h
  obtain ⟨hepoch, hkey⟩ := Version.mk.inj hv
  refine ⟨r + 1, by omega, ?_⟩
  have hnext : UInt64.ofNat (1 + r) + 1 = UInt64.ofNat (1 + (r + 1)) := by
    rw [← Nat.add_assoc, UInt64.ofNat_add (1 + r) 1]
    rfl
  simp only [Group.version, Group.remove, versionAt, hepoch, hkey, hnext,
    Function.iterate_succ_apply']

structure Derived (groupID created : Bytes) (n : Swarm ι) : Prop where
  stored : ∀ i v, (n.daemons i).version groupID = some v → Rotated P created n.rotations v
  sent : ∀ text ∈ n.texts, ∀ dist, keyDistOf text = some dist →
    Rotated P created n.rotations dist.version

/-- The versions that a genuine event brings. -/
theorem Derived.brings {groupID created : Bytes} {n : Swarm ι} (h : Derived P groupID created n)
    {e : ι × GroupEvent} (hok : Genuine P groupID n e) :
    ∀ v ∈ brings P groupID (n.daemons e.1) e.2,
      Rotated P created (n.rotations + (rotates P groupID (n.daemons e.1) e.2).toNat) v := by
  obtain ⟨i, ev⟩ := e
  intro v hv
  cases ev with
  | message env pm =>
    simp only [Client.brings] at hv
    split at hv
    next => cases hv
    next identity hid =>
      split at hv
      next dist hout =>
        split at hv
        next hgroup =>
          obtain rfl := List.mem_singleton.mp hv
          obtain ⟨text, htext, hdist⟩ := hok identity dist hid hout hgroup.symm
          exact (h.sent text htext dist hdist).mono P (Nat.le_add_right _ _)
        next => cases hv
      next => cases hv
  | create name memberPubkeys groupKey unixNano draw =>
    simp only [Client.brings, if_neg (show ¬ groupID = newGroupID unixNano from hok)] at hv
    split at hv <;> cases hv
  | leave left hint => cases hv
  | remove removed memberPubkey draw =>
    simp only [Client.brings] at hv
    split at hv
    next group hmay =>
      split at hv
      next hgroup =>
        obtain ⟨identity, hlookup, hid, hadmin, hmem⟩ := removable_iff.mp hmay
        obtain ⟨outs, hr⟩ := removeGroupMember_of_admin P hlookup hid hadmin hmem draw
        have hbefore : (n.daemons i).version groupID = some group.version := by
          rw [Daemon.version, hgroup, hlookup, Option.map_some]
        have hrotates : rotates P groupID (n.daemons i) (.remove removed memberPubkey draw) = true := by
          simp only [rotates, hr, hgroup, beq_self_eq_true]
        obtain rfl := List.mem_singleton.mp hv
        rw [hrotates]
        exact (h.stored i _ hbefore).remove P memberPubkey
      next => cases hv
    next => cases hv

/-- A removal sends the version that the daemon has after it. -/
theorem keyTextSent_version {groupID : Bytes} {n : Swarm ι} {e : ι × GroupEvent}
    (hok : Genuine P groupID n e) {text : Bytes}
    (h : keyTextSent P groupID (n.daemons e.1) e.2 = some text) {after : Daemon}
    (hs : groupStep P (n.daemons e.1) e.2 = some after) :
    ∃ v, after.version groupID = some v ∧ text = distribution groupID v.key v.epoch none := by
  obtain ⟨i, ev⟩ := e
  cases ev with
  | message env pm => cases h
  | create name memberPubkeys groupKey unixNano draw =>
    simp only [keyTextSent, if_neg (show ¬ groupID = newGroupID unixNano from hok)] at h
    cases h
  | leave left hint => cases h
  | remove removed memberPubkey draw =>
    simp only [keyTextSent] at h
    split at h
    next group outs state hgroup hr =>
      simp only [groupStep, hr, Option.map_some, Option.some.injEq] at hs
      subst hs
      split at h
      · obtain ⟨v, hv, rfl⟩ := Option.map_eq_some_iff.mp h
        exact ⟨v, hv, rfl⟩
      · cases h
    next => cases h

theorem Derived.step [DecidableEq ι] {groupID created : Bytes} (hid : Json.Printable groupID) {n n' : Swarm ι}
    {e : ι × GroupEvent} (h : Derived P groupID created n) (hok : Genuine P groupID n e)
    (hs : swarmStep P groupID n e = some n') : Derived P groupID created n' := by
  obtain rfl | ⟨after, hafter, rfl⟩ := swarmStep_cases P hs
  · exact h
  have hgrow : n.rotations ≤ n.rotations + (rotates P groupID (n.daemons e.1) e.2).toNat :=
    Nat.le_add_right _ _
  have hactor : ∀ v, after.version groupID = some v →
      Rotated P created (n.rotations + (rotates P groupID (n.daemons e.1) e.2).toNat) v := by
    intro v hv
    rcases groupStep_changes P groupID hafter with
      ⟨-, -, hsame⟩ | ⟨w, hbrought, -, hw⟩ | ⟨-, -, hnone⟩
    · exact (h.stored e.1 v (hsame ▸ hv)).mono P hgrow
    · obtain rfl : w = v := Option.some.inj (hw.symm.trans hv)
      exact h.brings P hok w (by rw [hbrought]; exact List.mem_singleton.mpr rfl)
    · rw [hnone] at hv
      cases hv
  refine ⟨?_, ?_⟩
  · intro i v hv
    by_cases hi : i = e.1
    · subst hi
      simp only [Function.update_self] at hv
      exact hactor v hv
    · simp only [Function.update_of_ne hi] at hv
      exact (h.stored i v hv).mono P hgrow
  · intro text htext dist hdist
    rcases List.mem_append.mp htext with hnew | hold
    · obtain ⟨v, hv, rfl⟩ := keyTextSent_version P hok (Option.mem_toList.mp hnew) hafter
      rw [keyDistOf_distribution hid (fun x hx => absurd hx (Option.not_mem_none x)) hdist]
      exact hactor v hv
    · exact (h.sent text hold dist hdist).mono P hgrow

/-- Right after its creation only the creator has the group, under the created key. -/
theorem derived_created [DecidableEq ι] {start : ι → Daemon} {unixNano : Int} {name created : Bytes}
    {memberPubkeys : List Bytes} {draw : Draw} {creator : ι} {n : Swarm ι}
    (hfresh : ∀ i, (start i).groups.lookup (newGroupID unixNano) = none) (hname : Json.Plain name)
    (hs : swarmStep P (newGroupID unixNano) ⟨start, [], 0⟩
      (creator, .create name memberPubkeys created unixNano draw) = some n) :
    Derived P (newGroupID unixNano) created n := by
  have hnobody : ∀ i, (start i).version (newGroupID unixNano) = none := by
    intro i
    rw [Daemon.version, hfresh i, Option.map_none]
  obtain rfl | ⟨after, hafter, rfl⟩ := swarmStep_cases P hs
  · refine ⟨?_, fun text htext => absurd htext List.not_mem_nil⟩
    intro i v hv
    exact absurd ((hnobody i).symm.trans hv) (Option.some_ne_none v).symm
  obtain ⟨⟨state, outs⟩, hc, rfl⟩ := Option.map_eq_some_iff.mp hafter
  obtain ⟨identity, -, hg, -⟩ := createGroup_some P hc
  have hfirst : Rotated P created 0 ⟨1, created⟩ := ⟨0, Nat.le_refl 0, rfl⟩
  refine ⟨?_, ?_⟩
  · intro i v hv
    by_cases hi : i = creator
    · subst hi
      simp only [Function.update_self, version_insert hg, if_true, Option.some.injEq] at hv
      exact hv ▸ hfirst
    · simp only [Function.update_of_ne hi, hnobody i] at hv
      cases hv
  · intro text htext dist hdist
    simp only [keyTextSent, if_true, Option.toList_some, List.append_nil, List.mem_singleton] at htext
    subst htext
    rw [keyDistOf_distribution (printable_newGroupID unixNano)
      (fun x hx => Option.some.inj hx ▸ hname) hdist]
    exact hfirst

/-- Below the range of the epoch the number of rotations can be read off it. -/
theorem Rotated.key_eq {created : Bytes} {rotations : Nat} {v : Version}
    (h : Rotated P created rotations v) (hrange : rotations < 2 ^ 64) :
    v.key = (rotateGroupKey P)^[(v.epoch - 1).toNat] created := by
  obtain ⟨r, hr, rfl⟩ := h
  have hepoch : UInt64.ofNat (1 + r) - 1 = UInt64.ofNat r := by
    rw [Nat.add_comm, UInt64.ofNat_add r 1]
    exact UInt64.add_sub_cancel _ _
  simp only [versionAt, hepoch]
  rw [UInt64.toNat_ofNat_of_lt' (Nat.lt_of_le_of_lt hr hrange)]

end

/-- In every run of any number of daemons after one of them has created a group: wherever
the group is stored, its key is the created one rotated once for each epoch after the
first, so that two daemons with the same epoch have the same key. -/
theorem keys_agree_per_epoch (P : Primitives) {ι : Type} [DecidableEq ι] (start : ι → Daemon)
    (creator : ι) (name : Bytes) (memberPubkeys : List Bytes) (created : Bytes) (unixNano : Int)
    (draw : Draw) (hfresh : ∀ i, (start i).groups.lookup (newGroupID unixNano) = none)
    (hname : Json.Plain name) (first n : Swarm ι) (events : List (ι × GroupEvent))
    (hcreate : swarmStep P (newGroupID unixNano) ⟨start, [], 0⟩
      (creator, .create name memberPubkeys created unixNano draw) = some first)
    (hgenuine : Meets (swarmStep P (newGroupID unixNano)) (Genuine P (newGroupID unixNano))
      first events)
    (hrun : run (swarmStep P (newGroupID unixNano)) first events = some n)
    (hrange : n.rotations < 2 ^ 64) :
    ∀ i group, (n.daemons i).groups.lookup (newGroupID unixNano) = some group →
      group.groupKey = (rotateGroupKey P)^[(group.keyEpoch - 1).toNat] created ∧
      ∀ j other, (n.daemons j).groups.lookup (newGroupID unixNano) = some other →
        other.keyEpoch = group.keyEpoch → other.groupKey = group.groupKey := by
  have hderived : Derived P (newGroupID unixNano) created n :=
    run_guarded (fun _ _ _ h hok hs => h.step P (printable_newGroupID unixNano) hok hs)
      (derived_created P hfresh hname hcreate) hgenuine hrun
  have hkey : ∀ i group, (n.daemons i).groups.lookup (newGroupID unixNano) = some group →
      group.groupKey = (rotateGroupKey P)^[(group.keyEpoch - 1).toNat] created := by
    intro i group hgroup
    have hversion : (n.daemons i).version (newGroupID unixNano) = some group.version := by
      rw [Daemon.version, hgroup, Option.map_some]
    exact (hderived.stored i group.version hversion).key_eq P hrange
  intro i group hgroup
  refine ⟨hkey i group hgroup, ?_⟩
  intro j other hother hepoch
  rw [hkey i group hgroup, hkey j other hother, hepoch]

/-! ## A key that is rotated and delivered -/

/-- Daemon 1 under `true` and daemon 2 under `false`. -/
def twoDaemons : Bool → Daemon
  | true => knowing 1 [2]
  | false => knowing 2 [1]

def createdByOne : Bool × GroupEvent :=
  (true, .create (lit "team") [(identityOf 2).pubkeyB64, (identityOf 3).pubkeyB64] (keyOf 7) 5
    ⟨[], fun _ => someNonce⟩)

def secondText : Bytes :=
  distribution (lit "g5") (rotateGroupKey .transparent (keyOf 7)) 2 none

/-- Daemon 1 removes member 3, and daemon 2 receives the text about it. -/
def removedAndTold : List (Bool × GroupEvent) :=
  [(true, .remove (lit "g5") (identityOf 3).pubkeyB64 ⟨[], fun _ => someNonce⟩),
    (false, .message quiet (polledAs (Primitives.transparent.xchacha.sealFramed
      (blend (keyOf 2) (keyOf 1)) someNonce.val secondText)))]

private theorem removedAndTold_genuine {first : Swarm Bool}
    (h : swarmStep .transparent (newGroupID 5) ⟨twoDaemons, [], 0⟩ createdByOne = some first) :
    Meets (swarmStep .transparent (newGroupID 5)) (Genuine .transparent (newGroupID 5)) first
      removedAndTold := by
  obtain rfl := Option.some.inj h
  refine ⟨trivial, fun second hsecond => ⟨?_, fun _ _ => trivial⟩⟩
  obtain rfl := Option.some.inj hsecond
  intro identity dist hid hout hgroup
  obtain rfl := Option.some.inj hid
  have hread : ∃ dist', keyDistOf secondText = some dist' ∧
      ((knowing 2 [1]).processMessage .transparent (identityOf 2) quiet
        (polledAs (Primitives.transparent.xchacha.sealFramed (blend (keyOf 2) (keyOf 1))
          someNonce.val secondText))).outcome = .groupKey dist' := by
    refine ⟨⟨lit "g5", Base64Std.encodeToString (rotateGroupKey .transparent (keyOf 7)), 2, []⟩,
      ?_, ?_⟩
    · decide +kernel
    · decide +kernel
  obtain ⟨dist', hdist', hout'⟩ := hread
  obtain rfl : dist' = dist := Outcome.groupKey.inj (hout'.symm.trans hout)
  exact ⟨secondText, List.mem_cons_self, hdist'⟩

theorem keys_agree_per_epoch_rotated : ∃ first n group other,
    swarmStep .transparent (newGroupID 5) ⟨twoDaemons, [], 0⟩ createdByOne = some first ∧
    run (swarmStep .transparent (newGroupID 5)) first removedAndTold = some n ∧
    (n.daemons true).groups.lookup (newGroupID 5) = some group ∧
    (n.daemons false).groups.lookup (newGroupID 5) = some other ∧ group.keyEpoch = 2 ∧
    group.groupKey = (rotateGroupKey .transparent)^[(group.keyEpoch - 1).toNat] (keyOf 7) ∧
    other.groupKey = group.groupKey := by
  have hevaluated : ((swarmStep .transparent (newGroupID 5) ⟨twoDaemons, [], 0⟩ createdByOne).bind
      (fun first => run (swarmStep .transparent (newGroupID 5)) first removedAndTold)).map
        (fun n => ((n.daemons true).version (newGroupID 5), (n.daemons false).version (newGroupID 5),
          n.rotations)) =
      some (some (versionAt .transparent (keyOf 7) 1), some (versionAt .transparent (keyOf 7) 1), 1) := by
    decide +kernel
  obtain ⟨n, hn, hvalues⟩ := Option.map_eq_some_iff.mp hevaluated
  obtain ⟨first, hcreate, hrun⟩ := Option.bind_eq_some_iff.mp hn
  obtain ⟨hone, htwo⟩ := Prod.mk.inj hvalues
  obtain ⟨htwo, hrotations⟩ := Prod.mk.inj htwo
  obtain ⟨group, hgroup, hversion⟩ := Option.map_eq_some_iff.mp hone
  obtain ⟨other, hother, hversion'⟩ := Option.map_eq_some_iff.mp htwo
  obtain ⟨hkey, hagree⟩ := keys_agree_per_epoch .transparent twoDaemons true (lit "team")
    [(identityOf 2).pubkeyB64, (identityOf 3).pubkeyB64] (keyOf 7) 5 ⟨[], fun _ => someNonce⟩
    (fun i => by cases i <;> rfl) (by decide +kernel) first n removedAndTold hcreate
    (removedAndTold_genuine hcreate) hrun (by rw [hrotations]; decide) true group hgroup
  have hepoch : group.keyEpoch = 2 := congrArg Version.epoch hversion
  have hepoch' : other.keyEpoch = 2 := congrArg Version.epoch hversion'
  exact ⟨first, n, group, other, hcreate, hrun, hgroup, hother, hepoch, hkey,
    hagree false other hother (hepoch'.trans hepoch.symm)⟩

end VRGram.Client
