import VRGram.Daemon.Attribution

/-!
# The files of the peers

A profile update leaves the bio of its sender under `peer_bios`, and a picture is saved under
`peer_pics`. The file's name is the sender with an ending, and the sender is whatever the message
says it is, or a base64 key, whose alphabet has the slash.
-/
namespace VRGram.Client

open VRGram.Lib VRGram.Lib.Maps VRGram.Lib.Strings VRGram.Lib.Machine VRGram.Lib.Paths VRGram.Crypto

set_option autoImplicit false

def Daemon.peerDir (d : Daemon) (kind : PeerFile) : Bytes := joinPath [d.dataDir, kind.dir]

/-- The file that an outcome leaves for its sender. -/
def Outcome.peerFile (outcome : Outcome) (env : Surroundings) : Option (PeerFile × FileContent) :=
  match outcome with
  | .profileUpdate _ bio => if bio = [] then none else some (.bio, .json [(lit "bio", bio)])
  | .profilePic relay fileID fileKeyB64 =>
    (fetchMedia env relay fileID fileKeyB64).map (fun pic => (.picture, .raw pic))
  | _ => none

structure PeerWrite where
  kind : PeerFile
  sender : Bytes
  path : Bytes
  content : FileContent
  deriving DecidableEq

/-- The files after a write, which does nothing if the path cannot be written. -/
def PeerWrite.land (env : Surroundings) (files : GoMap Bytes FileContent) (w : PeerWrite) :
    GoMap Bytes FileContent :=
  if env.writable w.path then files.insert w.path w.content else files

def peerWrites (P : Primitives) (identity : KeyPair) (d : Daemon)
    (m : Surroundings × PolledMessage) : List PeerWrite :=
  let r := d.processMessage P identity m.1 m.2
  ((r.outcome.peerFile m.1).map (fun f =>
    ⟨f.1, r.fromPeer, d.peerPath f.1 r.fromPeer, f.2⟩)).toList

/-- What a message that is no media message does to the files is to write the recorded ones. -/
def WritesLand (P : Primitives) (identity : KeyPair) (d : Daemon)
    (m : Surroundings × PolledMessage) : Prop :=
  (∀ relay info, (d.processMessage P identity m.1 m.2).outcome ≠ .media relay info) →
    (d.processMessage P identity m.1 m.2).daemon.files =
      (peerWrites P identity d m).foldl (PeerWrite.land m.1) d.files

/-- Every file is one component below its directory, and different senders write different
files. -/
def Confined (d : Daemon) (writes : List PeerWrite) : Prop :=
  (∀ w ∈ writes, IsChild (d.peerDir w.kind) w.path) ∧
    ∀ w ∈ writes, ∀ w' ∈ writes, w.sender ≠ w'.sender → w.path ≠ w'.path

/-! ## The record is right -/

section Record

theorem writeFile_files (d : Daemon) (env : Surroundings) (path : Bytes) (content : FileContent) :
    (d.writeFile env path content).files =
      if env.writable path then d.files.insert path content else d.files := by
  unfold Daemon.writeFile
  split <;> rfl

theorem updateProfile_files (d : Daemon) (env : Surroundings) (fromPeer nickname bio : Bytes) :
    (d.updateProfile env fromPeer nickname bio).files =
      if bio ≠ [] ∧ env.writable (d.peerPath .bio fromPeer) = true then
        d.files.insert (d.peerPath .bio fromPeer) (.json [(lit "bio", bio)])
      else d.files := by
  unfold Daemon.updateProfile
  by_cases hbio : bio = []
  · rw [if_pos hbio, if_neg (fun h => h.1 hbio)]
  · rw [if_neg hbio, writeFile_files]
    exact if_congr (iff_and_self.mpr (fun _ => hbio)) rfl rfl

private theorem applyOutcome_writes (d : Daemon) (env : Surroundings) (pm : PolledMessage)
    (fromPeer : Bytes) {outcome : Outcome} (hmedia : ∀ relay info, outcome ≠ .media relay info) :
    (d.applyOutcome env pm fromPeer outcome).files =
      ((outcome.peerFile env).map (fun f =>
        PeerWrite.mk f.1 fromPeer (d.peerPath f.1 fromPeer) f.2)).toList.foldl
          (PeerWrite.land env) d.files := by
  cases outcome with
  | profileUpdate nickname bio =>
    rw [Daemon.applyOutcome, Daemon.updateProfile, Outcome.peerFile]
    split
    · rfl
    · exact writeFile_files _ env _ _
  | profilePic relay fileID fileKeyB64 =>
    rw [Daemon.applyOutcome, Daemon.savePicture, Outcome.peerFile]
    cases fetchMedia env relay fileID fileKeyB64 with
    | none => rfl
    | some pic => exact writeFile_files d env _ _
  | media relay info => exact absurd rfl (hmedia relay info)
  | dropped => rfl
  | groupKey dist => rfl
  | delivered text groupID => rfl

private theorem processMessage_writes (P : Primitives) (identity : KeyPair) (d : Daemon)
    (m : Surroundings × PolledMessage) : WritesLand P identity d m := by
  intro hmedia
  rw [peerWrites]
  obtain ⟨peers, pendingHellos, hopen⟩ := openMessage_frame P d identity m.1 m.2.data
  unfold Daemon.processMessage at hmedia ⊢
  by_cases hlen : m.2.data.length < nonceLength
  · rw [if_pos hlen]
    rfl
  · rw [if_neg hlen] at hmedia ⊢
    dsimp only at hmedia ⊢
    rw [hopen] at hmedia ⊢
    cases hcontent : (d.openMessage P identity m.1 m.2.data).2.decrypted with
    | none => rfl
    | some content =>
      simp only [hcontent] at hmedia ⊢
      exact applyOutcome_writes _ m.1 m.2 _ hmedia

end Record

/-! ## Where the files are -/

theorem PeerFile.dir_proper (kind : PeerFile) : ProperName kind.dir := by
  cases kind <;> exact ⟨by decide, by decide, by decide, by decide⟩

theorem PeerFile.ending_proper (kind : PeerFile) (name : Bytes) (h : slash ∉ name) :
    ProperName (name ++ kind.ending) := by
  have hlong : 4 ≤ (name ++ kind.ending).length := by
    rw [List.length_append]
    cases kind
    · exact Nat.le_add_left_of_le (by decide)
    · exact Nat.le_add_left_of_le (by decide)
  have hne : ∀ s : Bytes, s.length < 4 → name ++ kind.ending ≠ s := by
    intro s hs heq
    rw [heq] at hlong
    omega
  refine ⟨hne [] (by decide), hne (lit ".") (by decide), hne (lit "..") (by decide), ?_⟩
  rw [List.mem_append]
  rintro (hname | hending)
  · exact h hname
  · revert hending
    cases kind <;> decide

section Paths

variable (d : Daemon) (kind : PeerFile) (sender : Bytes)

theorem peerDir_clean : CleanDir (d.peerDir kind) := cleanDir_joinPath d.dataDir kind.dir_proper

theorem split_peerName :
    split slash (sender ++ kind.ending) = parents sender ++ [base sender ++ kind.ending] :=
  split_append_ending sender (by cases kind <;> decide)

theorem peerName_proper : ProperName (base sender ++ kind.ending) := by
  have hmem : base sender ∈ split slash sender := by
    rw [split_eq_parents_base]
    exact List.mem_append_right _ (List.mem_singleton.mpr rfl)
  exact kind.ending_proper _ (mem_split hmem).1

private theorem peerPath_isChild_iff :
    IsChild (d.peerDir kind) (d.peerPath kind sender) ↔
      LeadsBack (d.peerDir kind) (parents sender) :=
  isChild_iff (peerDir_clean d kind) (split_peerName kind sender) (peerName_proper kind sender)

theorem peerPath_leadsBack (h : LeadsBack (d.peerDir kind) (parents sender)) :
    d.peerPath kind sender = d.peerDir kind ++ slash :: (base sender ++ kind.ending) :=
  joinPath_leadsBack (peerDir_clean d kind) (split_peerName kind sender)
    (peerName_proper kind sender) h

end Paths

theorem peerPath_getLast? {d : Daemon} {kind : PeerFile} {sender : Bytes}
    (h : LeadsBack (d.peerDir kind) (parents sender)) :
    (d.peerPath kind sender).getLast? = kind.ending.getLast? := by
  have hending : kind.ending ≠ [] := by cases kind <;> decide
  rw [peerPath_leadsBack d kind sender h, ← List.cons_append, ← List.append_assoc]
  exact List.getLast?_append_of_ne_nil _ hending

/-- The path of a file tells its kind. -/
theorem peerPath_kind {d : Daemon} {kind kind' : PeerFile} {sender sender' : Bytes}
    (h : LeadsBack (d.peerDir kind) (parents sender))
    (h' : LeadsBack (d.peerDir kind') (parents sender'))
    (hsame : d.peerPath kind sender = d.peerPath kind' sender') : kind = kind' := by
  have hlast : kind.ending.getLast? = kind'.ending.getLast? := by
    rw [← peerPath_getLast? h, ← peerPath_getLast? h', hsame]
  revert hlast
  cases kind <;> cases kind' <;> decide

variable (P : Primitives) (identity : KeyPair)

/-- Along a run the directories stay where they were. -/
theorem peerWrites_path (d : Daemon) (messages : List (Surroundings × PolledMessage)) :
    ∀ w ∈ outputs (handling P identity) (peerWrites P identity) d messages,
      w.path = d.peerPath w.kind w.sender := by
  induction messages generalizing d with
  | nil => exact fun w hw => absurd hw List.not_mem_nil
  | cons m rest ih =>
    intro w hw
    rcases List.mem_append.mp hw with hw | hw
    · obtain ⟨written, -, rfl⟩ := Option.map_eq_some_iff.mp (Option.mem_toList.mp hw)
      rfl
    · have hrest := ih (d.processMessage P identity m.1 m.2).daemon w hw
      rw [hrest, Daemon.peerPath, Daemon.fileIn, (processMessage_fixed P d identity m.1 m.2).2]
      rfl

/-- Whatever messages a daemon handles, from any state: the recorded writes are what the messages
do to its files, media messages apart. The files of the peers are all one component below their
directories, and different for different senders, exactly if what stands in front of the last slash
of each sender leads back to the directory and no two senders of files in one directory have the
same text after their last slash. -/
theorem peerFiles_confined_iff (d : Daemon) (messages : List (Surroundings × PolledMessage)) :
    Meets (handling P identity) (WritesLand P identity) d messages ∧
    (Confined d (outputs (handling P identity) (peerWrites P identity) d messages) ↔
      (∀ w ∈ outputs (handling P identity) (peerWrites P identity) d messages,
        LeadsBack (d.peerDir w.kind) (parents w.sender)) ∧
      ∀ w ∈ outputs (handling P identity) (peerWrites P identity) d messages,
        ∀ w' ∈ outputs (handling P identity) (peerWrites P identity) d messages,
          w.kind = w'.kind → w.sender ≠ w'.sender → base w.sender ≠ base w'.sender) := by
  refine ⟨meets_of_holds (processMessage_writes P identity) d messages, ?_⟩
  have hpath := peerWrites_path P identity d messages
  generalize outputs (handling P identity) (peerWrites P identity) d messages = writes at hpath ⊢
  have hchild : ∀ w ∈ writes, IsChild (d.peerDir w.kind) w.path ↔
      LeadsBack (d.peerDir w.kind) (parents w.sender) := by
    intro w hw
    rw [hpath w hw]
    exact peerPath_isChild_iff d w.kind w.sender
  constructor
  · intro h
    obtain ⟨hchildren, hdistinct⟩ := h
    refine ⟨fun w hw => (hchild w hw).mp (hchildren w hw), ?_⟩
    intro w hw w' hw' hkind hsender hbase
    apply hdistinct w hw w' hw' hsender
    rw [hpath w hw, hpath w' hw',
      peerPath_leadsBack d w.kind w.sender ((hchild w hw).mp (hchildren w hw)),
      peerPath_leadsBack d w'.kind w'.sender ((hchild w' hw').mp (hchildren w' hw')), hkind, hbase]
  · intro h
    obtain ⟨hback, hdistinct⟩ := h
    refine ⟨fun w hw => (hchild w hw).mpr (hback w hw), ?_⟩
    intro w hw w' hw' hsender hsame
    rw [hpath w hw, hpath w' hw'] at hsame
    have hback₁ := hback w hw
    have hback₂ := hback w' hw'
    have hkind := peerPath_kind hback₁ hback₂ hsame
    -- in one directory the names are the senders' last components
    rw [peerPath_leadsBack d w.kind w.sender hback₁,
      peerPath_leadsBack d w'.kind w'.sender hback₂, hkind] at hsame
    have hnames := (List.cons.inj (List.append_cancel_left hsame)).2
    exact hdistinct w hw w' hw' hkind hsender (List.append_cancel_right hnames)

/-! ## Senders that lead elsewhere -/

section Chosen

variable {P identity}

def claimedUpdate : Bytes := lit "\x7b\"type\":\"profile_update\",\"bio\":\"hi\"\x7d"

/-- Whoever can seal for a daemon chooses the sender: in the old format it is the first line. -/
theorem chosenSender_written {d : Daemon} {env : Surroundings} {pm : PolledMessage}
    {pubkeyStr sender : Bytes} (hlen : nonceLength ≤ pm.data.length)
    (hopen : openWithPeers P identity.privateKey pm.data (rangeOrder env.peerHint d.peers) =
      some (pubkeyStr, sender ++ newline :: claimedUpdate))
    (hne : sender ≠ []) (hline : newline ∉ sender) :
    peerWrites P identity d (env, pm) =
      [⟨.bio, sender, d.peerPath .bio sender, .json [(lit "bio", lit "hi")]⟩] := by
  have hparse : parseSignedPayload P (sender ++ newline :: claimedUpdate) =
      .ok ⟨sender, [], claimedUpdate, false⟩ := by
    rw [parseSignedPayload, splitN_append hline]
    rfl
  have hproc := processMessage_signed P identity d env pm hlen hopen hparse hne
  have houtcome : dispatch P d.groups env.relays sender claimedUpdate =
      .profileUpdate [] (lit "hi") := by
    have hdist : keyDistOf claimedUpdate = none := by decide +kernel
    have henvelope : envelopeOf claimedUpdate = none := by decide +kernel
    have hmsg : profileMsgOf claimedUpdate =
        some ⟨lit "profile_update", [], lit "hi", [], []⟩ := by decide +kernel
    have hjson : looksLikeJson 20 claimedUpdate = true := by decide +kernel
    rw [dispatch_content P d.groups env.relays sender hdist henvelope]
    simp only [contentOutcome, if_pos hjson, hmsg]
    exact if_pos ⟨trivial, hne⟩
  rw [peerWrites, hproc, houtcome]
  rfl

/-- A public key leads back only if all of its slashes are in front. -/
theorem leadsBack_pubkey_iff (dir : Bytes) (kp : KeyPair) :
    LeadsBack dir (parents kp.pubkeyB64) ↔ ∀ p ∈ parents kp.pubkeyB64, p = [] := by
  apply leadsBack_plain_iff
  intro p hp
  have hmem : p ∈ split slash kp.pubkeyB64 := by
    rw [split_eq_parents_base]
    exact List.mem_append_left _ hp
  obtain ⟨hslash, hsub⟩ := mem_split hmem
  have hdot : (46 : UInt8) ∉ p :=
    fun h => Base64Std.notMem_encode (by decide) kp.publicKey (hsub h)
  by_cases hnil : p = []
  · exact Or.inl hnil
  · refine Or.inr ⟨hnil, ?_, ?_, hslash⟩
    · rintro rfl
      exact hdot (by decide)
    · rintro rfl
      exact hdot (by decide)

end Chosen

/-- What a peer's key seals for the first identity. -/
def sealedFrom (peer : UInt8) (plaintext : Bytes) : Surroundings × PolledMessage :=
  (quiet, polledAs (someNonce.val ++
    Primitives.transparent.xchacha.sealWith (blend (keyOf 1) (keyOf peer)) someNonce.val plaintext))

/-- A known peer that names a path and then another peer in two ways, and a peer whose own key
has slashes in it. -/
def strangeSenders : List (Surroundings × PolledMessage) :=
  [sealedFrom 2 (lit "../../x" ++ newline :: claimedUpdate),
    sealedFrom 2 (lit "bob" ++ newline :: claimedUpdate),
    sealedFrom 2 (lit "al/../bob" ++ newline :: claimedUpdate), sealedFrom 243 claimedUpdate]

/-- What is written to the file of a sender. -/
def writtenBio (sender path : Bytes) : PeerWrite :=
  ⟨.bio, sender, path, .json [(lit "bio", lit "hi")]⟩

/-- The first file is outside of the data directory, the next two are the same, and the last one
is in a directory of its own. -/
theorem strangeSenders_written :
    outputs (handling .transparent (identityOf 1)) (peerWrites .transparent (identityOf 1))
      (knowing 1 [2, 243]) strangeSenders =
      [writtenBio (lit "../../x") (lit "/x.json"),
        writtenBio (lit "bob") (lit "/data/peer_bios/bob.json"),
        writtenBio (lit "al/../bob") (lit "/data/peer_bios/bob.json"),
        writtenBio (identityOf 243).pubkeyB64
          (lit "/data/peer_bios/8/Pz8/Pz8/Pz8/Pz8/Pz8/Pz8/Pz8/Pz8/Pz8/Pz8/M=.json")] ∧
    (lit "/x.json") ∈
      ((knowing 1 [2, 243]).processAll .transparent (identityOf 1) strangeSenders).1.files ∧
    ¬ IsChild (lit "/data/peer_bios") (lit "/x.json") ∧
    ¬ LeadsBack (lit "/data/peer_bios") (parents (identityOf 243).pubkeyB64) ∧
    ¬ Confined (knowing 1 [2, 243]) (outputs (handling .transparent (identityOf 1))
      (peerWrites .transparent (identityOf 1)) (knowing 1 [2, 243]) strangeSenders) := by
  have hwrites : outputs (handling .transparent (identityOf 1))
      (peerWrites .transparent (identityOf 1)) (knowing 1 [2, 243]) strangeSenders =
      [writtenBio (lit "../../x") (lit "/x.json"),
        writtenBio (lit "bob") (lit "/data/peer_bios/bob.json"),
        writtenBio (lit "al/../bob") (lit "/data/peer_bios/bob.json"),
        writtenBio (identityOf 243).pubkeyB64
          (lit "/data/peer_bios/8/Pz8/Pz8/Pz8/Pz8/Pz8/Pz8/Pz8/Pz8/Pz8/Pz8/M=.json")] := by
    decide +kernel
  refine ⟨hwrites, by decide +kernel, ?_, by decide +kernel, ?_⟩
  · intro hchild
    obtain ⟨name, -, hpath⟩ := hchild
    have hlen := congrArg List.length hpath
    rw [List.length_append] at hlen
    have hshort : (lit "/x.json").length < (lit "/data/peer_bios").length := by decide
    omega
  · rw [hwrites]
    intro h
    exact h.2 (writtenBio (lit "bob") (lit "/data/peer_bios/bob.json")) (by simp)
      (writtenBio (lit "al/../bob") (lit "/data/peer_bios/bob.json")) (by simp) (by decide) rfl

end VRGram.Client
