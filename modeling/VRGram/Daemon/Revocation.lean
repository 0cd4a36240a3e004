import VRGram.Daemon.Epochs

/-!
# What a removed member can still compute

Removing a member replaces the group key by a hash of the old one and a public string.
Whoever held the old key can do the same, so every later key of the group lies in the
closure of what the removed member held, and with it every later message.
-/
namespace VRGram.Client

open VRGram.Lib VRGram.Lib.Maps VRGram.Lib.Strings VRGram.Crypto VRGram.Encoding

set_option autoImplicit false

/-- What can be computed from the byte strings in `held` with the group operations. -/
inductive Derivable (P : Primitives) (held : Bytes → Prop) : Bytes → Prop
  | held {b : Bytes} (h : held b) : Derivable P held b
  | constant : Derivable P held (lit "group-rotation-v1")
  | rotate {key : Bytes} (hk : Derivable P held key) : Derivable P held (rotateGroupKey P key)
  | encrypt {key plaintext data : Bytes} {nonce : Nonce} (hk : Derivable P held key)
      (hp : Derivable P held plaintext)
      (h : encryptGroupMessage P key plaintext nonce = .ok data) : Derivable P held data
  | decrypt {key data plaintext : Bytes} (hk : Derivable P held key)
      (hd : Derivable P held data)
      (h : decryptGroupMessage P key data = .ok plaintext) : Derivable P held plaintext

/-- The admin's calls; a new group does not take the id of the one at hand. -/
def Administers (groupID : Bytes) : GroupEvent → Prop
  | .create _ _ _ unixNano _ => groupID ≠ newGroupID unixNano
  | .remove _ _ _ => True
  | _ => False

section

variable (P : Primitives)

theorem Derivable.mono {held more : Bytes → Prop} (hsub : ∀ b, held b → more b) {b : Bytes}
    (h : Derivable P held b) : Derivable P more b := by
  induction h with
  | held h => exact .held (hsub _ h)
  | constant => exact .constant
  | rotate _ ih => exact .rotate ih
  | encrypt _ _ h ihk ihp => exact .encrypt ihk ihp h
  | decrypt _ _ h ihk ihd => exact .decrypt ihk ihd h

/-- The group is stored under a key in the closure. -/
def KeyDerivable (held : Bytes → Prop) (groupID : Bytes) (d : Daemon) : Prop :=
  ∃ group, d.groups.lookup groupID = some group ∧ Derivable P held group.groupKey

/-- Each of the admin's calls leaves the key of the group alone or rotates it. -/
theorem keyDerivable_step {held : Bytes → Prop} {groupID : Bytes} {d after : Daemon}
    {ev : GroupEvent} (hd : KeyDerivable P held groupID d) (hev : Administers groupID ev)
    (hs : groupStep P d ev = some after) : KeyDerivable P held groupID after := by
  obtain ⟨group, hgroup, hkey⟩ := hd
  cases ev with
  | message env pm => exact hev.elim
  | leave left hint => exact hev.elim
  | create name memberPubkeys groupKey unixNano draw =>
    obtain ⟨⟨state, outs⟩, hc, rfl⟩ := Option.map_eq_some_iff.mp hs
    obtain ⟨identity, -, hg, -⟩ := createGroup_some P hc
    refine ⟨group, ?_, hkey⟩
    rw [hg, lookup_insert_ite, if_neg hev, hgroup]
  | remove removed memberPubkey draw =>
    obtain ⟨⟨result, state⟩, hr, rfl⟩ := Option.map_eq_some_iff.mp hs
    cases result with
    | error e =>
      rw [removeGroupMember_error P hr]
      exact ⟨group, hgroup, hkey⟩
    | ok outs =>
      obtain ⟨target, htarget, -, rfl, -⟩ := removeGroupMember_ok P hr
      by_cases hk : groupID = removed
      · subst hk
        obtain rfl := Option.some.inj (hgroup.symm.trans htarget)
        refine ⟨group.remove P memberPubkey, ?_, .rotate hkey⟩
        show (d.groups.insert groupID (group.remove P memberPubkey)).lookup groupID = _
        rw [lookup_insert_ite, if_pos rfl]
      · refine ⟨group, ?_, hkey⟩
        show (d.groups.insert removed (target.remove P memberPubkey)).lookup groupID = _
        rw [lookup_insert_ite, if_neg hk, hgroup]

/-- A key opens what was sealed under it. -/
theorem decryptGroupMessage_encrypt {key plaintext data : Bytes} {nonce : Nonce}
    (h : encryptGroupMessage P key plaintext nonce = .ok data) :
    decryptGroupMessage P key data = .ok plaintext := by
  have hdata := sealPrefixed_ok P h
  have hlen : ¬ data.length < nonceLength := by
    rw [hdata, List.length_append, nonce.property]
    omega
  have hopen : P.xchacha.openFramed nonceLength key data = some plaintext := by
    rw [hdata]
    exact P.xchacha.openFramed_sealFramed nonce.property key plaintext
  have hkey : key.length = keyLength := by
    by_contra hk
    simp [encryptGroupMessage, sealPrefixed, newX, hk, bind, Except.bind] at h
  simp [decryptGroupMessage, openPrefixed, newX, hkey, hlen, hopen, bind, Except.bind, pure,
    Except.pure]

end

/-- From any state, a member that is removed holds enough, in the key of the moment
before its removal, to compute the key in force after any later calls of the admin, and
with it every message sealed under that key. -/
theorem removed_member_derives_later_keys (P : Primitives) (d after last : Daemon)
    (groupID memberPubkey : Bytes) (draw : Draw) (outs : List Outgoing) (group : Group)
    (hgroup : d.groups.lookup groupID = some group)
    (hremove : d.removeGroupMember P groupID memberPubkey draw = some (.ok outs, after))
    (later : List GroupEvent) (hlater : ∀ ev ∈ later, Administers groupID ev)
    (hrun : Machine.run (groupStep P) after later = some last) :
    memberPubkey ∈ group.members ∧
    ∃ inForce, last.groups.lookup groupID = some inForce ∧
      Derivable P (fun b => b = group.groupKey) inForce.groupKey ∧
      ∀ plaintext nonce data,
        encryptGroupMessage P inForce.groupKey plaintext nonce = .ok data →
        Derivable P (fun b => b = group.groupKey ∨ b = data) plaintext := by
  obtain ⟨removedFrom, hsame, hmem, -, -⟩ := removeGroupMember_ok P hremove
  obtain rfl := Option.some.inj (hgroup.symm.trans hsame)
  refine ⟨hmem, ?_⟩
  -- the removal itself is the first of the calls that the run lemma covers
  have hfirst : KeyDerivable P (fun b => b = group.groupKey) groupID after := by
    have hs : groupStep P d (.remove groupID memberPubkey draw) = some after := by
      simp only [groupStep, hremove, Option.map_some]
    have hadmin : Administers groupID (.remove groupID memberPubkey draw) := trivial
    exact keyDerivable_step P ⟨group, hgroup, .held rfl⟩ hadmin hs
  obtain ⟨inForce, hin, hkey⟩ : KeyDerivable P (fun b => b = group.groupKey) groupID last :=
    Machine.run_guarded (fun s ev s' hi hok hs => keyDerivable_step P hi hok hs) hfirst
      (Machine.meets_of_forall hlater after) hrun
  refine ⟨inForce, hin, hkey, fun plaintext nonce data henc => ?_⟩
  have hdata : Derivable P (fun b => b = group.groupKey ∨ b = data) data := .held (Or.inr rfl)
  apply Derivable.decrypt (hkey.mono P fun b hb => Or.inl hb) hdata
  exact decryptGroupMessage_encrypt P henc

/-! ## A member that is removed from a group of three -/

def threeMembers : Group where
  groupID := lit "g5"
  name := lit "team"
  adminPubkey := (identityOf 1).pubkeyB64
  members := newMembers (identityOf 1).pubkeyB64 (lit "team")
    [(identityOf 2).pubkeyB64, (identityOf 3).pubkeyB64]
  groupKey := keyOf 7
  keyEpoch := 1

def adminOfThree : Daemon :=
  { knowing 1 [2, 3] with groups := (∅ : GoMap Bytes Group).insert (lit "g5") threeMembers }

def rekeyed : Group := threeMembers.remove .transparent (identityOf 3).pubkeyB64

def afterRemoval : Daemon :=
  { adminOfThree with groups := adminOfThree.groups.insert (lit "g5") rekeyed }

def rekeyedTwice : Group := rekeyed.remove .transparent (identityOf 2).pubkeyB64

def afterSecondRemoval : Daemon :=
  { afterRemoval with groups := afterRemoval.groups.insert (lit "g5") rekeyedTwice }

def fixedDraw : Draw := ⟨[], fun _ => someNonce⟩

private theorem adminOfThree_removes : ∃ outs,
    adminOfThree.removeGroupMember .transparent (lit "g5") (identityOf 3).pubkeyB64 fixedDraw =
      some (.ok outs, afterRemoval) :=
  removeGroupMember_of_admin .transparent (AList.lookup_insert _) rfl rfl (by decide +kernel)
    fixedDraw

private theorem afterRemoval_removes :
    Machine.run (groupStep .transparent) afterRemoval
      [.remove (lit "g5") (identityOf 2).pubkeyB64 fixedDraw] = some afterSecondRemoval := by
  have hmem : (identityOf 2).pubkeyB64 ∈ rekeyed.members := by decide +kernel
  obtain ⟨outs, h⟩ := removeGroupMember_of_admin .transparent (d := afterRemoval)
    (AList.lookup_insert _) rfl rfl hmem fixedDraw
  have hs : groupStep .transparent afterRemoval
      (.remove (lit "g5") (identityOf 2).pubkeyB64 fixedDraw) = some afterSecondRemoval := by
    simp only [groupStep, h, Option.map_some]
    rfl
  exact Machine.run_cons.mpr ⟨_, hs, rfl⟩

theorem removed_member_derives_later_keys_ofThree :
    (identityOf 3).pubkeyB64 ∈ threeMembers.members ∧
    ∃ inForce, afterSecondRemoval.groups.lookup (lit "g5") = some inForce ∧
      Derivable .transparent (fun b => b = threeMembers.groupKey) inForce.groupKey ∧
      ∀ plaintext nonce data,
        encryptGroupMessage .transparent inForce.groupKey plaintext nonce = .ok data →
        Derivable .transparent (fun b => b = threeMembers.groupKey ∨ b = data) plaintext := by
  obtain ⟨outs, hremove⟩ := adminOfThree_removes
  refine removed_member_derives_later_keys .transparent adminOfThree afterRemoval
    afterSecondRemoval (lit "g5") (identityOf 3).pubkeyB64 fixedDraw outs threeMembers
    (AList.lookup_insert _) hremove _ ?_ afterRemoval_removes
  intro ev hev
  obtain rfl := List.mem_singleton.mp hev
  trivial

/-- The rotated key differs from the old one, and the removed member computes it. -/
theorem rekeyed_derivable :
    ∃ inForce, afterRemoval.groups.lookup (lit "g5") = some inForce ∧
      (identityOf 3).pubkeyB64 ∉ inForce.members ∧ inForce.groupKey ≠ threeMembers.groupKey ∧
      Derivable .transparent (fun b => b = threeMembers.groupKey) inForce.groupKey := by
  refine ⟨rekeyed, AList.lookup_insert _, by decide +kernel, by decide +kernel, ?_⟩
  exact .rotate (.held rfl)

end VRGram.Client
