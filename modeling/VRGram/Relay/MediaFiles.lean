import VRGram.Relay.MediaServer

/-!
# What the media server keeps

Uploads of one file may overlap: they share an inode, each empties it once and writes at its
own position. A file is whole all the same as soon as the upload that emptied it last has been
answered with its name, whatever the others do. Until it is removed or uploaded again, every
download of it that is read to its end is the file.
-/
namespace VRGram.Relay

open VRGram.Lib VRGram.Lib.Maps VRGram.Lib.Strings VRGram.Lib.OpenFiles VRGram.Lib.Machine
  VRGram.Crypto

set_option autoImplicit false

namespace MediaServer

variable {cfg : MediaConfig} {s t : MediaServer} {e : MediaEvent}

/-! ## What a step does to the files -/

/-- Uploads and files stay as they are. -/
structure Quiet (s t : MediaServer) : Prop where
  uploads : t.uploads = s.uploads
  disk : t.disk = s.disk
  openedBy : t.openedBy = s.openedBy
  received : t.received = s.received
  answers : ∀ a ∈ s.answers, a ∈ t.answers

/-- The steps as far as uploads and files are concerned. -/
inductive FileStep (cfg : MediaConfig) (s : MediaServer) : MediaServer → Prop
  | quiet {t : MediaServer} (h : Quiet s t) : FileStep cfg s t
  | received {id : Nat} {data : Bytes} (hfresh : s.Fresh id) :
      FileStep cfg s { s with
        uploads := s.uploads.insert id ⟨data, .received⟩
        received := s.received ++ [(id, data)] }
  | create {id : Nat} {now : Int} {data : Bytes}
      (hup : s.uploads.lookup id = some ⟨data, .received⟩) :
      FileStep cfg s { s.setUpload id ⟨data, .opened (s.disk.target (fileID cfg data)) 0⟩
          (s.disk.create (fileID cfg data) now) with
        openedBy :=
          Function.update s.openedBy (s.disk.target (fileID cfg data)) (some (id, data)) }
  | write {id n : Nat} {now : Int} {data : Bytes} {inode position : Nat}
      (hup : s.uploads.lookup id = some ⟨data, .opened inode position⟩)
      (hfits : position + n ≤ data.length) :
      FileStep cfg s (s.setUpload id ⟨data, .opened inode (position + n)⟩
        (s.disk.write inode position (slice data position n) now))
  | close {id : Nat} {data : Bytes} {inode : Nat}
      (hup : s.uploads.lookup id = some ⟨data, .opened inode data.length⟩) :
      FileStep cfg s (s.endUpload id (uploadResponse (fileID cfg data)))
  | fail {id : Nat} (hup : id ∈ s.uploads) : FileStep cfg s (s.endUpload id writeFailed)
  | remove {name : Bytes} {cleaner : Cleaner} :
      FileStep cfg s { s with cleaner := cleaner, disk := s.disk.remove name }

theorem Step.files (h : Step cfg s e t) : FileStep cfg s t := by
  have hmore : ∀ {a b : Nat × Response} {answers : List (Nat × Response)}, a ∈ answers →
      a ∈ answers ++ [b] := fun ha => List.mem_append_left _ ha
  cases h with
  | refused | missing | gone | unreadable | reply =>
    exact .quiet ⟨rfl, rfl, rfl, rfl, fun a ha => hmore ha⟩
  | found | opened | read | list | crash | expired | young =>
    exact .quiet ⟨rfl, rfl, rfl, rfl, fun a ha => ha⟩
  | received hfresh _ => exact .received hfresh
  | create hup => exact .create hup
  | write hup hfits => exact .write hup hfits
  | close hup => exact .close hup
  | fail hup => exact .fail hup
  | @remove ok name rest _ =>
    cases ok with
    | true => exact .remove
    | false => exact .quiet ⟨rfl, rfl, rfl, rfl, fun a ha => ha⟩

theorem FileStep.received_mono (h : FileStep cfg s t) : ∀ x ∈ s.received, x ∈ t.received := by
  cases h with
  | quiet h => exact fun x hx => h.received ▸ hx
  | received => exact fun x hx => List.mem_append_left _ hx
  | create | write | close | fail | remove => exact fun x hx => hx

/-! ## Numbers -/

/-- Nobody has sent two bodies with one digest. -/
def Collisionless (cfg : MediaConfig) (s : MediaServer) : Prop :=
  ∀ x ∈ s.received, ∀ y ∈ s.received, cfg.sha256 x.2 = cfg.sha256 y.2 → x.2 = y.2

instance (cfg : MediaConfig) (s : MediaServer) : Decidable (s.Collisionless cfg) :=
  inferInstanceAs (Decidable (∀ x ∈ _, ∀ y ∈ _, _))

theorem Collisionless.eq_of_fileID (h : s.Collisionless cfg) {x y : Nat × Bytes}
    (hx : x ∈ s.received) (hy : y ∈ s.received) (hid : fileID cfg x.2 = fileID cfg y.2) :
    x.2 = y.2 :=
  h x hx y hy (Subtype.ext (Hex.hexEncode_inj hid))

theorem FileStep.collisionless (h : FileStep cfg s t) (ht : t.Collisionless cfg) :
    s.Collisionless cfg :=
  fun x hx y hy => ht x (h.received_mono x hx) y (h.received_mono y hy)

/-- An upload in progress works on the body it was sent. -/
def Active (s : MediaServer) : Prop :=
  ∀ id u, s.uploads.lookup id = some u → (id, u.data) ∈ s.received

theorem FileStep.active (h : FileStep cfg s t) (hs : s.Active) : t.Active := by
  intro id u hu
  cases h with
  | quiet h =>
    rw [h.uploads] at hu
    exact h.received ▸ hs id u hu
  | @received id' data hfresh =>
    rw [lookup_insert_ite] at hu
    split at hu
    next heq =>
      obtain rfl := Option.some.inj hu
      exact List.mem_append_right _ (heq ▸ List.mem_singleton_self _)
    next => exact List.mem_append_left _ (hs id u hu)
  | create hup | write hup _ =>
    simp only [setUpload_uploads, lookup_insert_ite] at hu
    split at hu
    next heq =>
      obtain rfl := Option.some.inj hu
      have hmem := hs _ _ hup
      exact heq ▸ hmem
    next => exact hs id u hu
  | close | fail =>
    simp only [endUpload_uploads, lookup_erase_eq_some] at hu
    exact hs id u hu.2
  | remove => exact hs id u hu

/-! ## Files and their names -/

/-- The inode was emptied last for a body with this name. -/
def OpenedAs (cfg : MediaConfig) (s : MediaServer) (i : Nat) (name : Bytes) : Prop :=
  ∃ x, s.openedBy i = some x ∧ fileID cfg x.2 = name

/-- Where the files of the directory come from: `disk` is how the server found it. -/
structure Placed (cfg : MediaConfig) (disk : Disk Bytes) (s : MediaServer) : Prop where
  received : ∀ i x, s.openedBy i = some x → i < s.disk.next ∧ x ∈ s.received
  writers : ∀ id data i position, s.uploads.lookup id = some ⟨data, .opened i position⟩ →
    s.OpenedAs cfg i (fileID cfg data)
  names : ∀ name i, s.disk.names.lookup name = some i →
    (s.openedBy i = none ∧ disk.names.lookup name = some i ∧ s.disk.inodes i = disk.inodes i) ∨
      s.OpenedAs cfg i name

/-- An inode that a name leads to was emptied under no other name. -/
theorem Placed.target_name {disk : Disk Bytes} (hs : s.Placed cfg disk) {name other : Bytes}
    (h : s.OpenedAs cfg (s.disk.target name) other) : other = name := by
  obtain ⟨x, hx, hother⟩ := h
  cases hname : s.disk.names.lookup name with
  | none =>
    have htarget : s.disk.target name = s.disk.next := by
      rw [Disk.target, hname]
      rfl
    have hlt := (hs.received _ x hx).1
    omega
  | some i =>
    rw [s.disk.target_of_lookup hname] at hx
    rcases hs.names name i hname with ⟨hnone, -⟩ | ⟨y, hy, hid⟩
    · rw [hnone] at hx
      cases hx
    · obtain rfl := Option.some.inj (hx.symm.trans hy)
      exact hother.symm.trans hid

theorem FileStep.placed {disk : Disk Bytes} (h : FileStep cfg s t) (hactive : s.Active)
    (hs : s.Placed cfg disk) : t.Placed cfg disk := by
  cases h with
  | quiet h =>
    obtain ⟨hreceived, hwriters, hnames⟩ := hs
    unfold OpenedAs at hwriters hnames
    rw [← h.openedBy, ← h.disk, ← h.received] at hreceived
    rw [← h.openedBy, ← h.uploads] at hwriters
    rw [← h.openedBy, ← h.disk] at hnames
    exact ⟨hreceived, hwriters, hnames⟩
  | @received id data hfresh =>
    refine ⟨fun i x hx => ?_, fun id' data' i position hup => ?_, hs.names⟩
    · obtain ⟨hlt, hmem⟩ := hs.received i x hx
      exact ⟨hlt, List.mem_append_left _ hmem⟩
    · rw [lookup_insert_ite] at hup
      split at hup
      · cases hup
      · exact hs.writers id' data' i position hup
  | @create id now data hup =>
    have htarget := s.disk.target_lt (fileID cfg data)
    -- the inode now belongs to this upload; who has it open was opened under the same name
    have hkept : ∀ i name, s.OpenedAs cfg i name →
        ∃ x, Function.update s.openedBy (s.disk.target (fileID cfg data)) (some (id, data)) i =
          some x ∧ fileID cfg x.2 = name := by
      intro i name hopened
      by_cases hi : i = s.disk.target (fileID cfg data)
      · subst hi
        exact ⟨(id, data), Function.update_self .., (hs.target_name hopened).symm⟩
      · rw [Function.update_of_ne hi]
        exact hopened
    refine ⟨fun i x hx => ?_, fun id' data' i position hup' => ?_, fun name i hname => ?_⟩
    · dsimp only at hx
      by_cases hi : i = s.disk.target (fileID cfg data)
      · subst hi
        rw [Function.update_self] at hx
        obtain rfl := Option.some.inj hx
        exact ⟨htarget, hactive id _ hup⟩
      · rw [Function.update_of_ne hi] at hx
        obtain ⟨hlt, hmem⟩ := hs.received i x hx
        exact ⟨Nat.lt_succ_of_lt hlt, hmem⟩
    · simp only [setUpload_uploads, lookup_insert_ite] at hup'
      split at hup'
      · cases hup'
        exact ⟨(id, data), Function.update_self .., rfl⟩
      · exact hkept i _ (hs.writers id' data' i position hup')
    · simp only [setUpload_disk, Disk.create, lookup_insert_ite] at hname
      split at hname
      next heq =>
        obtain rfl := Option.some.inj hname
        exact Or.inr ⟨(id, data), Function.update_self .., heq.symm⟩
      next hne =>
        have hi := s.disk.target_ne hname hne
        rcases hs.names name i hname with ⟨hnone, hdisk, hinode⟩ | hopened
        · refine Or.inl ⟨?_, hdisk, ?_⟩
          · exact (Function.update_of_ne hi _ _).trans hnone
          · exact (Function.update_of_ne hi _ _).trans hinode
        · exact Or.inr (hkept i name hopened)
  | @write id n now data inode position hup hfits =>
    refine ⟨hs.received, fun id' data' i position' hup' => ?_, fun name i hname => ?_⟩
    · simp only [setUpload_uploads, lookup_insert_ite] at hup'
      split at hup'
      · cases hup'
        exact hs.writers id data inode position hup
      · exact hs.writers id' data' i position' hup'
    · rcases hs.names name i hname with ⟨hnone, hdisk, hinode⟩ | hopened
      · refine Or.inl ⟨hnone, hdisk, ?_⟩
        have hi : i ≠ inode := by
          rintro rfl
          obtain ⟨x, hx, -⟩ := hs.writers id data i position hup
          rw [hnone] at hx
          cases hx
        exact (Function.update_of_ne hi _ _).trans hinode
      · exact Or.inr hopened
  | close | fail =>
    refine ⟨hs.received, fun id' data' i position' hup' => ?_, hs.names⟩
    simp only [endUpload_uploads, lookup_erase_eq_some] at hup'
    exact hs.writers id' data' i position' hup'.2
  | remove =>
    refine ⟨hs.received, hs.writers, fun name i hname => ?_⟩
    exact hs.names name i (lookup_erase_eq_some.mp hname).2

/-! ## Whole files -/

/-- How the upload that emptied an inode last has fared. -/
inductive Standing (cfg : MediaConfig) (s : MediaServer) (i : Nat) (x : Nat × Bytes) : Prop
  | active {position : Nat} (hup : s.uploads.lookup x.1 = some ⟨x.2, .opened i position⟩)
      (hw : WrittenUpTo x.2 (s.disk.inodes i).data position)
  | failed (ha : (x.1, writeFailed) ∈ s.answers)
  | stored (ha : (x.1, uploadResponse (fileID cfg x.2)) ∈ s.answers)
      (hw : (s.disk.inodes i).data = x.2)

def AllStand (cfg : MediaConfig) (s : MediaServer) : Prop :=
  ∀ i x, s.openedBy i = some x → s.Standing cfg i x

/-- A slice that any upload writes into its file is a slice of what the file is to become. -/
theorem Placed.same_data {disk : Disk Bytes} (hs : s.Placed cfg disk) (hactive : s.Active)
    (hc : s.Collisionless cfg) {id i position : Nat} {data : Bytes}
    (hup : s.uploads.lookup id = some ⟨data, .opened i position⟩) {x : Nat × Bytes}
    (hx : s.openedBy i = some x) : x.2 = data := by
  obtain ⟨y, hy, hid⟩ := hs.writers id data i position hup
  obtain rfl := Option.some.inj (hx.symm.trans hy)
  exact hc.eq_of_fileID (hs.received i x hx).2 (hactive id _ hup) hid

/-- A standing is kept where neither the upload nor the inode is touched. -/
theorem Standing.keep {i : Nat} {x : Nat × Bytes} (h : s.Standing cfg i x)
    (hup : ∀ u, s.uploads.lookup x.1 = some u → u.phase ≠ .received → t.uploads.lookup x.1 = some u)
    (hinode : (t.disk.inodes i).data = (s.disk.inodes i).data)
    (hanswers : ∀ a ∈ s.answers, a ∈ t.answers) : t.Standing cfg i x := by
  cases h with
  | active hu hw => exact .active (hup _ hu UploadPhase.noConfusion) (hinode ▸ hw)
  | failed ha => exact .failed (hanswers _ ha)
  | stored ha hw => exact .stored (hanswers _ ha) (hinode.trans hw)

/-- Another upload writes into the file. -/
theorem Standing.written {i : Nat} {x : Nat × Bytes} (h : s.Standing cfg i x) {id position n : Nat}
    {now : Int} (hup : s.uploads.lookup id = some ⟨x.2, .opened i position⟩)
    (hfits : position + n ≤ x.2.length) :
    (s.setUpload id ⟨x.2, .opened i (position + n)⟩
      (s.disk.write i position (slice x.2 position n) now)).Standing cfg i x := by
  have hdata : ((s.disk.write i position (slice x.2 position n) now).inodes i).data =
      writeAt (s.disk.inodes i).data position (slice x.2 position n) := by
    simp only [Disk.write, Function.update_self]
  cases h with
  | @active reached hu hw =>
    by_cases hid : x.1 = id
    · subst hid
      obtain ⟨-, rfl⟩ := UploadPhase.opened.inj
        (Upload.mk.inj (Option.some.inj (hu.symm.trans hup))).2
      refine .active (AList.lookup_insert _) ?_
      rw [setUpload_disk, hdata]
      exact hw.write hfits (fun j hj => by omega)
    · refine .active ((AList.lookup_insert_ne hid).trans hu) ?_
      rw [setUpload_disk, hdata]
      exact hw.write hfits (fun j hj => Or.inl hj)
  | failed ha => exact .failed ha
  | stored ha hw =>
    refine .stored ha ?_
    have hwhole : WrittenUpTo x.2 (s.disk.inodes i).data x.2.length := by
      rw [hw]
      exact ⟨Nat.le_refl _, fun _ _ => rfl⟩
    rw [setUpload_disk, hdata]
    exact (hwhole.write hfits (fun j hj => Or.inl hj)).complete

theorem FileStep.allStand {disk : Disk Bytes} (h : FileStep cfg s t) (hactive : s.Active)
    (hplaced : s.Placed cfg disk) (hc : s.Collisionless cfg) (hs : s.AllStand cfg) :
    t.AllStand cfg := by
  intro i x hx
  cases h with
  | quiet h =>
    have hstand := hs i x (h.openedBy ▸ hx)
    exact hstand.keep (fun u hu _ => h.uploads ▸ hu) (by rw [h.disk]) h.answers
  | @received id data hfresh =>
    refine (hs i x hx).keep (fun u hu _ => ?_) rfl (fun a ha => ha)
    have hne : x.1 ≠ id := by
      intro heq
      exact hfresh.1 (mem_iff_lookup.mpr ⟨u, heq ▸ hu⟩)
    rw [AList.lookup_insert_ne hne]
    exact hu
  | @create id now data hup =>
    by_cases hi : i = s.disk.target (fileID cfg data)
    · subst hi
      dsimp only at hx
      rw [Function.update_self] at hx
      obtain rfl := Option.some.inj hx
      refine .active (AList.lookup_insert _) ?_
      simp only [setUpload_disk, Disk.create, Function.update_self]
      exact writtenUpTo_nil data
    · dsimp only at hx
      rw [Function.update_of_ne hi] at hx
      refine (hs i x hx).keep (fun u hu hphase => ?_) ?_ (fun a ha => ha)
      · have hne : x.1 ≠ id := by
          rintro rfl
          obtain rfl := Option.some.inj (hup.symm.trans hu)
          exact hphase rfl
        rw [setUpload_uploads, AList.lookup_insert_ne hne]
        exact hu
      · simp only [setUpload_disk, Disk.create, Function.update_of_ne hi]
  | @write id n now data inode position hup hfits =>
    by_cases hi : i = inode
    · subst hi
      obtain rfl := hplaced.same_data hactive hc hup hx
      exact (hs i x hx).written hup hfits
    · cases hs i x hx with
      | active hu hw =>
        have hne : x.1 ≠ id := by
          rintro rfl
          exact hi (UploadPhase.opened.inj (Upload.mk.inj (Option.some.inj (hu.symm.trans hup))).2).1
        refine .active ((AList.lookup_insert_ne hne).trans hu) ?_
        simp only [setUpload_disk, Disk.write, Function.update_of_ne hi]
        exact hw
      | failed ha => exact .failed ha
      | stored ha hw =>
        refine .stored ha ?_
        simp only [setUpload_disk, Disk.write, Function.update_of_ne hi]
        exact hw
  | @close id data inode hup =>
    by_cases hid : x.1 = id
    · cases hs i x hx with
      | active hu hw =>
        obtain ⟨hdata, hphase⟩ := Upload.mk.inj (Option.some.inj ((hid ▸ hu).symm.trans hup))
        obtain ⟨rfl, rfl⟩ := UploadPhase.opened.inj hphase
        subst hdata
        refine .stored ?_ hw.complete
        rw [hid]
        exact List.mem_append_right _ (List.mem_singleton_self _)
      | failed ha => exact .failed (List.mem_append_left _ ha)
      | stored ha hw => exact .stored (List.mem_append_left _ ha) hw
    · refine (hs i x hx).keep (fun u hu _ => ?_) rfl (fun a ha => List.mem_append_left _ ha)
      rw [endUpload_uploads, AList.lookup_erase_ne hid]
      exact hu
  | @fail id hup =>
    by_cases hid : x.1 = id
    · refine .failed (List.mem_append_right _ ?_)
      rw [hid]
      exact List.mem_singleton_self _
    · refine (hs i x hx).keep (fun u hu _ => ?_) rfl (fun a ha => List.mem_append_left _ ha)
      rw [endUpload_uploads, AList.lookup_erase_ne hid]
      exact hu
  | remove => exact (hs i x hx).keep (fun u hu _ => hu) rfl (fun a ha => ha)

/-! ## Over a run -/

/-- What holds of the files in every state. -/
structure Kept (cfg : MediaConfig) (disk : Disk Bytes) (s : MediaServer) : Prop where
  active : s.Active
  placed : s.Placed cfg disk
  stand : s.Collisionless cfg → s.AllStand cfg

private theorem kept_start (cfg : MediaConfig) (disk : Disk Bytes) :
    (start disk).Kept cfg disk where
  active := fun _ _ h => by cases h
  placed := {
    received := fun _ _ h => by cases h
    writers := fun _ _ _ _ h => by cases h
    names := fun _ _ h => Or.inl ⟨rfl, h, rfl⟩ }
  stand := fun _ _ _ h => by cases h

theorem Kept.step {disk : Disk Bytes} (hs : s.Kept cfg disk) (h : s.step cfg e = some t) :
    t.Kept cfg disk := by
  have hfiles := (step_cases h).files
  refine ⟨hfiles.active hs.active, hfiles.placed hs.active hs.placed, fun hc => ?_⟩
  have hc' := hfiles.collisionless hc
  exact hfiles.allStand hs.active hs.placed hc' (hs.stand hc')

theorem kept_run {disk : Disk Bytes} {events : List MediaEvent}
    (h : run (step cfg) (start disk) events = some t) : t.Kept cfg disk :=
  run_invariant (fun _ _ _ hs hstep => hs.step hstep) (kept_start cfg disk) h

/-! ## One answer a request -/

/-- The numbers in use are those of uploads, of downloads and of answers, each of one kind. -/
structure Numbered (s : MediaServer) : Prop where
  once : ∀ a ∈ s.answers, ∀ b ∈ s.answers, a.1 = b.1 → a = b
  ended : ∀ a ∈ s.answers, a.1 ∉ s.uploads ∧ a.1 ∉ s.downloads
  apart : ∀ id ∈ s.uploads, id ∉ s.downloads

theorem numbered_start (disk : Disk Bytes) : (start disk).Numbered where
  once := fun _ h => by cases h
  ended := fun _ h => by cases h
  apart := fun _ h => absurd h (AList.notMem_empty _)

/-- A request that is in nobody's hands is answered. -/
theorem Numbered.answer {uploads : GoMap Nat Upload} {downloads : GoMap Nat Download} {id : Nat}
    (hs : s.Numbered) (huploads : ∀ j, j ∈ uploads → j ∈ s.uploads ∧ j ≠ id)
    (hdownloads : ∀ j, j ∈ downloads → j ∈ s.downloads ∧ j ≠ id)
    (hnew : ∀ a ∈ s.answers, a.1 ≠ id) (resp : Response) (ht : t.uploads = uploads)
    (ht' : t.downloads = downloads) (hanswers : t.answers = s.answers ++ [(id, resp)]) :
    t.Numbered where
  once := by
    intro a ha b hb heq
    rw [hanswers, List.mem_append, List.mem_singleton] at ha hb
    rcases ha with ha | rfl <;> rcases hb with hb | rfl
    · exact hs.once a ha b hb heq
    · exact absurd heq (hnew a ha)
    · exact absurd heq.symm (hnew b hb)
    · rfl
  ended := by
    intro a ha
    rw [hanswers, List.mem_append, List.mem_singleton] at ha
    rw [ht, ht']
    rcases ha with ha | rfl
    · exact ⟨fun h => (hs.ended a ha).1 (huploads _ h).1, fun h => (hs.ended a ha).2 (hdownloads _ h).1⟩
    · exact ⟨fun h => (huploads _ h).2 rfl, fun h => (hdownloads _ h).2 rfl⟩
  apart := by
    rw [ht, ht']
    exact fun j hj hj' => hs.apart j (huploads j hj).1 (hdownloads j hj').1

/-- An upload starts or goes on. -/
theorem Numbered.upload {id : Nat} (hs : s.Numbered) (hid : id ∈ s.uploads ∨ s.Fresh id)
    (u : Upload) (ht : t.uploads = s.uploads.insert id u) (ht' : t.downloads = s.downloads)
    (hanswers : t.answers = s.answers) : t.Numbered where
  once := hanswers ▸ hs.once
  ended := by
    intro a ha
    rw [hanswers] at ha
    rw [ht, ht', AList.mem_insert]
    refine ⟨?_, (hs.ended a ha).2⟩
    rintro (heq | hmem)
    · rcases hid with hid | hid
      · exact (hs.ended a ha).1 (heq ▸ hid)
      · exact hid.2.2 a ha heq
    · exact (hs.ended a ha).1 hmem
  apart := by
    intro j hj
    rw [ht, AList.mem_insert] at hj
    rw [ht']
    rcases hj with rfl | hj
    · rcases hid with hid | hid
      · exact hs.apart j hid
      · exact hid.2.1
    · exact hs.apart j hj

/-- A download starts or goes on. -/
theorem Numbered.download {id : Nat} (hs : s.Numbered) (hid : id ∈ s.downloads ∨ s.Fresh id)
    (d : Download) (ht : t.uploads = s.uploads) (ht' : t.downloads = s.downloads.insert id d)
    (hanswers : t.answers = s.answers) : t.Numbered where
  once := hanswers ▸ hs.once
  ended := by
    intro a ha
    rw [hanswers] at ha
    rw [ht, ht', AList.mem_insert]
    refine ⟨(hs.ended a ha).1, ?_⟩
    rintro (heq | hmem)
    · rcases hid with hid | hid
      · exact (hs.ended a ha).2 (heq ▸ hid)
      · exact hid.2.2 a ha heq
    · exact (hs.ended a ha).2 hmem
  apart := by
    intro j hj
    rw [ht] at hj
    rw [ht', AList.mem_insert]
    rintro (rfl | hmem)
    · rcases hid with hid | hid
      · exact hs.apart j hj hid
      · exact hid.1 hj
    · exact hs.apart j hj hmem

theorem Numbered.step (hs : s.Numbered) (h : Step cfg s e t) : t.Numbered := by
  have herase : ∀ {V : Type} {m : GoMap Nat V} {id j : Nat}, j ∈ m.erase id → j ∈ m ∧ j ≠ id :=
    fun hj => ⟨(AList.mem_erase.mp hj).2, (AList.mem_erase.mp hj).1⟩
  have hkeep : ∀ {V : Type} {m : GoMap Nat V} {id j : Nat}, id ∉ m → j ∈ m → j ∈ m ∧ j ≠ id :=
    fun hid hj => ⟨hj, fun heq => hid (heq ▸ hj)⟩
  have hactive : ∀ {V : Type} {m : GoMap Nat V} {id : Nat} {v : V}, m.lookup id = some v → id ∈ m :=
    fun hv => mem_iff_lookup.mpr ⟨_, hv⟩
  have hup : ∀ {id : Nat}, id ∈ s.uploads → ∀ a ∈ s.answers, a.1 ≠ id :=
    fun hid a ha heq => (hs.ended a ha).1 (heq ▸ hid)
  have hdown : ∀ {id : Nat}, id ∈ s.downloads → ∀ a ∈ s.answers, a.1 ≠ id :=
    fun hid a ha heq => (hs.ended a ha).2 (heq ▸ hid)
  cases h with
  | refused hfresh _ | missing hfresh _ _ =>
    exact hs.answer (fun j => hkeep hfresh.1) (fun j => hkeep hfresh.2.1) hfresh.2.2 _ rfl rfl rfl
  | received hfresh _ => exact hs.upload (Or.inr hfresh) _ rfl rfl rfl
  | create h | write h _ => exact hs.upload (Or.inl (hactive h)) _ rfl rfl rfl
  | found hfresh _ _ => exact hs.download (Or.inr hfresh) _ rfl rfl rfl
  | opened h _ | read h => exact hs.download (Or.inl (hactive h)) _ rfl rfl rfl
  | close h =>
    have hid := hactive h
    exact hs.answer (fun j => herase) (fun j => hkeep (hs.apart _ hid)) (hup hid) _ rfl rfl rfl
  | fail hid =>
    exact hs.answer (fun j => herase) (fun j => hkeep (hs.apart _ hid)) (hup hid) _ rfl rfl rfl
  | gone h _ | unreadable h _ | reply h =>
    have hid := hactive h
    exact hs.answer (fun j => hkeep (fun hu => hs.apart _ hu hid)) (fun j => herase) (hdown hid) _
      rfl rfl rfl
  | list | crash | expired | young | remove => exact ⟨hs.once, hs.ended, hs.apart⟩

theorem numbered_run {disk : Disk Bytes} {events : List MediaEvent}
    (h : run (MediaServer.step cfg) (start disk) events = some t) : t.Numbered :=
  run_invariant (fun _ _ _ hs hstep => hs.step (step_cases hstep)) (numbered_start disk) h

/-- The file is whole if the upload that emptied it last was answered with success. -/
theorem Kept.whole {disk : Disk Bytes} (hs : t.Kept cfg disk) (hnumbered : t.Numbered)
    (hc : t.Collisionless cfg) {i : Nat} {x : Nat × Bytes} (hlast : t.openedBy i = some x)
    {resp : Response} (hanswer : (x.1, resp) ∈ t.answers) (hok : resp.status = 200) :
    (t.disk.inodes i).data = x.2 ∧ resp = uploadResponse (fileID cfg x.2) := by
  cases hs.stand hc i x hlast with
  | active hup _ =>
    exact absurd (mem_iff_lookup.mpr ⟨_, hup⟩) (hnumbered.ended _ hanswer).1
  | failed ha =>
    rw [show resp = writeFailed from congrArg Prod.snd (hnumbered.once _ hanswer _ ha rfl)] at hok
    exact absurd hok (by decide)
  | stored ha hw => exact ⟨hw, congrArg Prod.snd (hnumbered.once _ hanswer _ ha rfl)⟩

theorem Placed.name_eq {disk : Disk Bytes} (hs : t.Placed cfg disk) {name : Bytes} {i : Nat}
    (hname : t.disk.names.lookup name = some i) {x : Nat × Bytes} (hlast : t.openedBy i = some x) :
    fileID cfg x.2 = name := by
  rcases hs.names name i hname with ⟨hnone, -⟩ | ⟨y, hy, hid⟩
  · rw [hnone] at hlast
    cases hlast
  · rw [Option.some.inj (hlast.symm.trans hy)]
    exact hid

end MediaServer

open MediaServer

/-- Every file of the media directory has the SHA-256 of its content as its name, once the upload
that emptied it last has been answered with success. Other uploads of the same content may run
at the same time, and may fail, in any interleaving of their system calls. -/
theorem mediaFile_whole (cfg : MediaConfig) (disk : Disk Bytes) (events : List MediaEvent)
    (t : MediaServer) (hrun : run (step cfg) (start disk) events = some t)
    (hc : t.Collisionless cfg) (name : Bytes) (i : Nat)
    (hname : t.disk.names.lookup name = some i) (id : Nat) (data : Bytes)
    (hlast : t.openedBy i = some (id, data)) (resp : Response) (hanswer : (id, resp) ∈ t.answers)
    (hok : resp.status = 200) :
    (t.disk.inodes i).data = data ∧ name = fileID cfg data ∧ resp = uploadResponse name := by
  have hkept := kept_run hrun
  have hid := hkept.placed.name_eq hname hlast
  obtain ⟨hdata, hresp⟩ := hkept.whole (numbered_run hrun) hc hlast hanswer hok
  exact ⟨hdata, hid.symm, hresp.trans (by rw [hid])⟩

/-- A server that asks for a token. -/
def guardedConfig : MediaConfig := ⟨Primitives.transparent.sha256, lit "token"⟩

def uploadOf (data : Bytes) : Request := .upload (lit "POST") (lit "token") ⟨data, true⟩

/-- The second upload empties the file between the two writes of the first. -/
def overlappingUploads : List MediaEvent :=
  [.request 1 (uploadOf [7, 8]), .create 1 5, .write 1 1 6, .request 2 (uploadOf [7, 8]), .create 2 7,
    .write 1 1 8, .close 1, .write 2 2 9, .close 2]

theorem mediaFile_whole_overlapping :
    ∃ t, run (step guardedConfig) (start .empty) overlappingUploads = some t ∧
      (t.disk.inodes 0).data = [7, 8] := by
  refine ⟨_, rfl, (mediaFile_whole guardedConfig .empty overlappingUploads _ rfl ?_
    (fileID guardedConfig [7, 8]) 0 ?_ 2 [7, 8] rfl
    (uploadResponse (fileID guardedConfig [7, 8])) ?_ rfl).1⟩
  · decide
  · decide
  · decide

end VRGram.Relay
