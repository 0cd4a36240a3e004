import Mathlib.Data.List.Induction
import VRGram.Relay.MediaFiles

/-!
# Downloads and the cleanup

The cleanup is the only one to remove files, so what it has listed is there when it looks at it:
the nil pointer behind a failing `Info` is never met. It looks first and removes later, and does
not notice an upload in between; apart from that a file stays for seven days after the last write.
As long as a whole file stays and is not uploaded again, every download of it gets a prefix of it
with the length of all of it.
-/
namespace VRGram.Relay

open VRGram.Lib VRGram.Lib.Maps VRGram.Lib.Strings VRGram.Lib.OpenFiles VRGram.Lib.Machine
  VRGram.Crypto

set_option autoImplicit false

/-- The names that a pass has yet to look at. -/
def Cleaner.pending : Cleaner → List Bytes
  | .looking rest => rest
  | .removing _ rest => rest
  | .crashed => []

/-- The name that is about to be removed. -/
def Cleaner.doomed : Cleaner → Option Bytes
  | .removing name _ => some name
  | _ => none

namespace MediaServer

variable {cfg : MediaConfig} {s t : MediaServer} {e : MediaEvent}

/-! ## The cleanup -/

structure Listed (s : MediaServer) : Prop where
  running : s.cleaner ≠ .crashed
  nodup : s.cleaner.pending.Nodup
  there : ∀ name ∈ s.cleaner.pending, name ∈ s.disk.names
  apart : ∀ name ∈ s.cleaner.doomed, name ∉ s.cleaner.pending

/-- The steps as far as the cleanup is concerned. -/
inductive CleanStep (s : MediaServer) : MediaEvent → MediaServer → Prop
  | other {e : MediaEvent} {t : MediaServer} (hcleaner : t.cleaner = s.cleaner)
      (hnames : ∀ name i, s.disk.names.lookup name = some i → t.disk.names.lookup name = some i) :
      CleanStep s e t
  | list {names : List Bytes} (hnodup : names.Nodup)
      (hnames : ∀ name ∈ names, name ∈ s.disk.names) :
      CleanStep s (.list names) { s with cleaner := .looking names }
  | crash {now : Int} {name : Bytes} {rest : List Bytes}
      (hlook : s.cleaner = .looking (name :: rest)) (hname : s.disk.names.lookup name = none) :
      CleanStep s (.examine now) { s with cleaner := .crashed }
  | expired {now : Int} {name : Bytes} {rest : List Bytes} {i : Nat}
      (hlook : s.cleaner = .looking (name :: rest)) (hname : s.disk.names.lookup name = some i)
      (hold : mediaRetention < now - (s.disk.inodes i).modTime) :
      CleanStep s (.examine now) { s with cleaner := .removing name rest }
  | young {now : Int} {name : Bytes} {rest : List Bytes}
      (hlook : s.cleaner = .looking (name :: rest)) :
      CleanStep s (.examine now) { s with cleaner := .looking rest }
  | remove {name : Bytes} {rest : List Bytes} {disk : Disk Bytes} {e : MediaEvent}
      (hdoomed : s.cleaner = .removing name rest)
      (hnames : ∀ other i, other ≠ name → s.disk.names.lookup other = some i →
        disk.names.lookup other = some i) :
      CleanStep s e { s with cleaner := .looking rest, disk := disk }

theorem Step.clean (h : Step cfg s e t) : CleanStep s e t := by
  cases h with
  | refused | missing | found | received | gone | unreadable | opened | read | reply | close | fail =>
    exact .other rfl (fun _ _ h => h)
  | write => exact .other rfl (fun _ _ h => h)
  | @create id now data hup =>
    refine .other rfl (fun name i h => ?_)
    simp only [setUpload_disk, Disk.create, lookup_insert_ite]
    split
    next heq =>
      subst heq
      rw [s.disk.target_of_lookup h]
    next => exact h
  | list hidle hnodup hnames => exact .list hnodup hnames
  | crash hlook hname => exact .crash hlook hname
  | expired hlook hname hold => exact .expired hlook hname hold
  | young hlook hname hyoung => exact .young hlook
  | @remove ok name rest hdoomed =>
    cases ok with
    | true =>
      refine .remove hdoomed (fun other i hne h => ?_)
      exact lookup_erase_eq_some.mpr ⟨hne, h⟩
    | false => exact .remove hdoomed (fun _ _ _ h => h)

theorem CleanStep.listed (h : CleanStep s e t) (hs : s.Listed) : t.Listed := by
  obtain ⟨hrunning, hnodup, hthere, hapart⟩ := hs
  cases h with
  | other hcleaner hnames =>
    refine ⟨hcleaner ▸ hrunning, hcleaner ▸ hnodup, fun name hname => ?_, hcleaner ▸ hapart⟩
    rw [hcleaner] at hname
    obtain ⟨i, hi⟩ := mem_iff_lookup.mp (hthere name hname)
    exact mem_iff_lookup.mpr ⟨i, hnames name i hi⟩
  | list hnodup' hnames =>
    exact ⟨Cleaner.noConfusion, hnodup', hnames, fun _ h => by cases h⟩
  | @crash now name rest hlook hname =>
    -- only the cleanup removes files, so the name that it has listed is still there
    rw [hlook] at hthere
    obtain ⟨i, hi⟩ := mem_iff_lookup.mp (hthere name List.mem_cons_self)
    rw [hname] at hi
    cases hi
  | @expired now name rest i hlook hname hold =>
    rw [hlook] at hnodup hthere
    obtain ⟨hnot, hrest⟩ := List.nodup_cons.mp hnodup
    refine ⟨Cleaner.noConfusion, hrest, fun n hn => hthere n (List.mem_cons_of_mem name hn), ?_⟩
    intro n hn
    obtain rfl := Option.some.inj hn
    exact hnot
  | @young now name rest hlook =>
    rw [hlook] at hnodup hthere
    exact ⟨Cleaner.noConfusion, (List.nodup_cons.mp hnodup).2,
      fun n hn => hthere n (List.mem_cons_of_mem name hn), fun _ h => by cases h⟩
  | @remove name rest disk e hdoomed hnames =>
    rw [hdoomed] at hnodup hthere hapart
    refine ⟨Cleaner.noConfusion, hnodup, fun n hn => ?_, fun _ h => by cases h⟩
    obtain ⟨i, hi⟩ := mem_iff_lookup.mp (hthere n hn)
    refine mem_iff_lookup.mpr ⟨i, hnames n i ?_ hi⟩
    rintro rfl
    exact hapart n rfl hn

private theorem listed_run {disk : Disk Bytes} {events : List MediaEvent}
    (h : run (step cfg) (start disk) events = some t) : t.Listed := by
  refine run_invariant (fun _ _ _ hs hstep => (step_cases hstep).clean.listed hs) ?_ h
  exact ⟨Cleaner.noConfusion, List.nodup_nil, fun _ h => absurd h List.not_mem_nil,
    fun _ h => by cases h⟩

/-- The file was found to be more than seven days old, earlier in the run. -/
def FoundOld (cfg : MediaConfig) (disk : Disk Bytes) (events : List MediaEvent) (name : Bytes) :
    Prop :=
  ∃ before now after u i, events = before ++ .examine now :: after ∧
    run (step cfg) (start disk) before = some u ∧ u.disk.names.lookup name = some i ∧
    mediaRetention < now - (u.disk.inodes i).modTime

theorem FoundOld.snoc {disk : Disk Bytes} {events : List MediaEvent} {name : Bytes}
    (h : FoundOld cfg disk events name) (e : MediaEvent) : FoundOld cfg disk (events ++ [e]) name := by
  obtain ⟨before, now, after, u, i, rfl, hrun, hname, hold⟩ := h
  exact ⟨before, now, after ++ [e], u, i, by simp, hrun, hname, hold⟩

private theorem foundOld_of_doomed {disk : Disk Bytes} {events : List MediaEvent}
    (h : run (step cfg) (start disk) events = some t) {name : Bytes}
    (hdoomed : t.cleaner.doomed = some name) : FoundOld cfg disk events name := by
  induction events using List.reverseRecOn generalizing t name with
  | nil =>
    obtain rfl := Option.some.inj h
    cases hdoomed
  | append_singleton events e ih =>
    obtain ⟨s, hs, hlast⟩ := run_append.mp h
    obtain ⟨u, hstep, hu⟩ := run_cons.mp hlast
    obtain rfl := Option.some.inj hu
    cases (step_cases hstep).clean with
    | other hcleaner _ => exact (ih hs (hcleaner ▸ hdoomed)).snoc e
    | @expired now old rest i hlook hname hold =>
      obtain rfl := Option.some.inj hdoomed
      exact ⟨events, now, [], s, i, rfl, hs, hname, hold⟩
    | list | crash | young | remove => cases hdoomed

/-! ## Whom a download is for -/

/-- A number stays in use. -/
theorem Step.fresh (h : Step cfg s e t) {id : Nat} (ht : t.Fresh id) : s.Fresh id := by
  obtain ⟨hup, hdown, hanswers⟩ := ht
  have hended : ∀ {j : Nat} {V : Type} {m : GoMap Nat V} {resp : Response}
      {answers : List (Nat × Response)}, id ∉ m.erase j → (∀ a ∈ answers ++ [(j, resp)], a.1 ≠ id) →
      id ∉ m := by
    intro j V m resp answers herase hnew hmem
    have hne : j ≠ id := hnew (j, resp) (List.mem_append_right _ (List.mem_singleton_self _))
    exact herase (AList.mem_erase.mpr ⟨Ne.symm hne, hmem⟩)
  have hold : ∀ {answers : List (Nat × Response)} {b : Nat × Response},
      (∀ a ∈ answers ++ [b], a.1 ≠ id) → ∀ a ∈ answers, a.1 ≠ id :=
    fun h a ha => h a (List.mem_append_left _ ha)
  have hinsert : ∀ {j : Nat} {V : Type} {m : GoMap Nat V} {v : V}, id ∉ m.insert j v → id ∉ m :=
    fun h hmem => h (AList.mem_insert _ |>.mpr (Or.inr hmem))
  cases h with
  | refused | missing => exact ⟨hup, hdown, hold hanswers⟩
  | received | create | write => exact ⟨hinsert hup, hdown, hanswers⟩
  | found | opened | read => exact ⟨hup, hinsert hdown, hanswers⟩
  | close | fail => exact ⟨hended hup hanswers, hdown, hold hanswers⟩
  | gone | unreadable | reply => exact ⟨hup, hended hdown hanswers, hold hanswers⟩
  | list | crash | expired | young | remove => exact ⟨hup, hdown, hanswers⟩

/-- The downloads are those of the requests that asked for a file, each of its file. -/
structure Asked (s : MediaServer) : Prop where
  used : ∀ x ∈ s.asked, ¬ s.Fresh x.1
  uploads : ∀ x ∈ s.asked, x.1 ∉ s.uploads
  names : ∀ id d, s.downloads.lookup id = some d → ∀ name, (id, name) ∈ s.asked → d.name = name

theorem Asked.step (hs : s.Asked) (h : Step cfg s e t) : t.Asked := by
  have hused : ∀ x ∈ s.asked, ¬ t.Fresh x.1 := fun x hx ht => hs.used x hx (h.fresh ht)
  cases h with
  | refused | list | crash | expired | young | remove => exact ⟨hused, hs.uploads, hs.names⟩
  | @received id method token body data hfresh hr =>
    refine ⟨hused, fun x hx hmem => ?_, hs.names⟩
    rcases (AList.mem_insert _).mp hmem with heq | hmem
    · exact hs.used x hx (heq ▸ hfresh)
    · exact hs.uploads x hx hmem
  | create hup | write hup _ =>
    refine ⟨hused, fun x hx hmem => ?_, hs.names⟩
    rcases (AList.mem_insert _).mp hmem with heq | hmem
    · exact hs.uploads x hx (mem_iff_lookup.mpr ⟨_, heq ▸ hup⟩)
    · exact hs.uploads x hx hmem
  | close | fail =>
    exact ⟨hused, fun x hx hmem => hs.uploads x hx (AList.mem_erase.mp hmem).2, hs.names⟩
  | @missing id path token name hfresh hr hname =>
    refine ⟨fun x hx => ?_, fun x hx => ?_, fun j d hd n hn => ?_⟩
    · rcases List.mem_append.mp hx with hx | hx
      · exact hused x hx
      · obtain rfl := List.mem_singleton.mp hx
        exact fun ht => ht.2.2 _ (List.mem_append_right _ (List.mem_singleton_self _)) rfl
    · rcases List.mem_append.mp hx with hx | hx
      · exact hs.uploads x hx
      · obtain rfl := List.mem_singleton.mp hx
        exact hfresh.1
    · rcases List.mem_append.mp hn with hn | hn
      · exact hs.names j d hd n hn
      · obtain ⟨rfl, rfl⟩ := Prod.mk.inj (List.mem_singleton.mp hn)
        exact absurd (mem_iff_lookup.mpr ⟨d, hd⟩) hfresh.2.1
  | @found id path token name hfresh hr hname =>
    refine ⟨fun x hx => ?_, fun x hx => ?_, fun j d hd n hn => ?_⟩
    · rcases List.mem_append.mp hx with hx | hx
      · exact hused x hx
      · obtain rfl := List.mem_singleton.mp hx
        exact fun ht => ht.2.1 ((AList.mem_insert _).mpr (Or.inl rfl))
    · rcases List.mem_append.mp hx with hx | hx
      · exact hs.uploads x hx
      · obtain rfl := List.mem_singleton.mp hx
        exact hfresh.1
    · rw [setDownload_downloads, lookup_insert_ite] at hd
      split at hd
      next heq =>
        obtain rfl := Option.some.inj hd
        rcases List.mem_append.mp hn with hn | hn
        · exact absurd (heq ▸ hfresh) (hs.used _ hn)
        · exact (congrArg Prod.snd (List.mem_singleton.mp hn)).symm
      next hne =>
        rcases List.mem_append.mp hn with hn | hn
        · exact hs.names j d hd n hn
        · exact absurd (congrArg Prod.fst (List.mem_singleton.mp hn)) hne
  | opened hdown _ | read hdown =>
    refine ⟨hused, hs.uploads, fun j d hd n hn => ?_⟩
    rw [setDownload_downloads, lookup_insert_ite] at hd
    split at hd
    next heq =>
      obtain rfl := Option.some.inj hd
      have hname := hs.names _ _ hdown n (heq ▸ hn)
      exact hname
    next => exact hs.names j d hd n hn
  | gone | unreadable | reply =>
    refine ⟨hused, hs.uploads, fun j d hd n hn => ?_⟩
    exact hs.names j d (lookup_erase_eq_some.mp hd).2 n hn

private theorem asked_start (disk : Disk Bytes) : (start disk).Asked :=
  ⟨fun _ h => (by cases h), fun _ h => (by cases h), fun _ _ h => by cases h⟩

/-! ## A file that is left alone -/

/-- Nobody starts to upload the file, and the cleanup does not find it old. -/
def Undisturbed (cfg : MediaConfig) (name : Bytes) (s : MediaServer) : MediaEvent → Prop
  | .create id _ => ∀ data, s.uploads.lookup id = some ⟨data, .received⟩ → fileID cfg data ≠ name
  | .examine now => ∀ i, s.disk.names.lookup name = some i →
      now - (s.disk.inodes i).modTime ≤ mediaRetention
  | _ => True

/-- The file is there, whole, and not about to be removed. -/
structure Unspoiled (name : Bytes) (i : Nat) (x : Nat × Bytes) (s : MediaServer) : Prop where
  there : s.disk.names.lookup name = some i
  whole : (s.disk.inodes i).data = x.2
  opened : s.openedBy i = some x
  spared : s.cleaner.doomed ≠ some name

theorem Unspoiled.step {disk : Disk Bytes} {name : Bytes} {i : Nat} {x : Nat × Bytes}
    (hs : s.Unspoiled name i x) (hkept : s.Kept cfg disk) (hc : s.Collisionless cfg)
    (hquiet : Undisturbed cfg name s e) (h : Step cfg s e t) : t.Unspoiled name i x := by
  have hthere : t.disk.names.lookup name = some i := by
    cases h.clean with
    | other _ hnames => exact hnames name i hs.there
    | list | crash | expired | young => exact hs.there
    | @remove old rest disk' e hdoomed hnames =>
      refine hnames name i ?_ hs.there
      rintro rfl
      exact hs.spared (by rw [hdoomed]; rfl)
  have hspared : t.cleaner.doomed ≠ some name := by
    cases h.clean with
    | other hcleaner _ => exact hcleaner ▸ hs.spared
    | @expired now old rest j hlook hname hold =>
      intro heq
      obtain rfl := Option.some.inj heq
      have hyoung := hquiet j hname
      omega
    | list | crash | young | remove => exact fun heq => by cases heq
  cases h with
  | @create id now data hup =>
    have hne : i ≠ s.disk.target (fileID cfg data) :=
      s.disk.target_ne hs.there (Ne.symm (hquiet data hup))
    refine ⟨hthere, ?_, (Function.update_of_ne hne _ _).trans hs.opened, hspared⟩
    simp only [setUpload_disk, Disk.create, Function.update_of_ne hne]
    exact hs.whole
  | @write id n now data inode position hup hfits =>
    refine ⟨hthere, ?_, hs.opened, hspared⟩
    by_cases hi : i = inode
    · -- an upload that was overtaken writes what is there already
      subst hi
      obtain rfl := hkept.placed.same_data hkept.active hc hup hs.opened
      have hwhole : WrittenUpTo x.2 (s.disk.inodes i).data x.2.length := by
        rw [hs.whole]
        exact ⟨Nat.le_refl _, fun _ _ => rfl⟩
      simp only [setUpload_disk, Disk.write, Function.update_self]
      exact (hwhole.write hfits (fun j hj => Or.inl hj)).complete
    · simp only [setUpload_disk, Disk.write, Function.update_of_ne hi]
      exact hs.whole
  | @remove ok old rest hdoomed =>
    refine ⟨hthere, ?_, hs.opened, hspared⟩
    cases ok <;> exact hs.whole
  | _ => exact ⟨hthere, hs.whole, hs.opened, hspared⟩

/-- What those who ask for the file are answered: the beginning of it, under the length of the
whole. -/
structure Serves (data : Bytes) (resp : Response) : Prop where
  found : resp.status ≠ 404
  part : resp.status = 200 → resp.contentLength = data.length ∧ resp.body <+: data

/-- Whoever has asked for the file since `s₀` is on the way to get it, or got it. -/
structure Serving (s s₀ : MediaServer) (name : Bytes) (i : Nat) (data : Bytes) : Prop where
  downloads : ∀ id, s₀.Fresh id → ∀ d, s.downloads.lookup id = some d → d.name = name →
    d.phase = .found ∨ ∃ got, d.phase = .opened i data.length got ∧ got <+: data
  answers : ∀ id, s₀.Fresh id → (id, name) ∈ s.asked → ∀ resp, (id, resp) ∈ s.answers →
    Serves data resp

private theorem prefix_slice {data got : Bytes} (h : got <+: data) (n : Nat) :
    got ++ slice data got.length n <+: data := by
  obtain ⟨rest, rfl⟩ := h
  rw [slice, List.drop_left]
  exact (List.prefix_append_right_inj got).mpr (List.take_prefix n rest)

section

variable {s₀ : MediaServer} {name : Bytes} {i : Nat} {x : Nat × Bytes}

/-- An answer is appended that is a good one if it is for somebody who has asked for the file. -/
theorem Serving.answer_all (hs : s.Serving s₀ name i x.2) {id : Nat} {resp : Response}
    (hnew : s₀.Fresh id → (id, name) ∈ s.asked → Serves x.2 resp) :
    ∀ j, s₀.Fresh j → (j, name) ∈ s.asked → ∀ r, (j, r) ∈ s.answers ++ [(id, resp)] →
      Serves x.2 r := by
  intro j hj hasked r hr
  rcases List.mem_append.mp hr with hr | hr
  · exact hs.answers j hj hasked r hr
  · obtain ⟨rfl, rfl⟩ := Prod.mk.inj (List.mem_singleton.mp hr)
    exact hnew hj hasked

theorem Serving.step (hs : s.Serving s₀ name i x.2) (hfile : s.Unspoiled name i x)
    (hasked : s.Asked) (h : Step cfg s e t) : t.Serving s₀ name i x.2 := by
  have hended : ∀ {id : Nat}, ∀ j, s₀.Fresh j → ∀ d, (s.downloads.erase id).lookup j = some d →
      d.name = name → d.phase = .found ∨ ∃ got, d.phase = .opened i x.2.length got ∧ got <+: x.2 :=
    fun j hj d hd => hs.downloads j hj d (lookup_erase_eq_some.mp hd).2
  have hupload : ∀ {id : Nat}, id ∈ s.uploads → ∀ {n : Bytes}, (id, n) ∉ s.asked :=
    fun hid n hmem => hasked.uploads _ hmem hid
  cases h with
  | @refused id r resp hfresh hr =>
    exact ⟨hs.downloads, hs.answer_all (fun _ hmem => absurd hfresh (hasked.used _ hmem))⟩
  | list | crash | expired | young | remove | received | create | write =>
    exact ⟨hs.downloads, hs.answers⟩
  | close hup =>
    exact ⟨hs.downloads, hs.answer_all
      (fun _ hmem => absurd hmem (hupload (mem_iff_lookup.mpr ⟨_, hup⟩)))⟩
  | fail hup => exact ⟨hs.downloads, hs.answer_all (fun _ hmem => absurd hmem (hupload hup))⟩
  | @missing id path token other hfresh hr hname =>
    have hne : other ≠ name := by
      rintro rfl
      exact hname (mem_iff_lookup.mpr ⟨i, hfile.there⟩)
    refine ⟨hs.downloads, fun j hj hmem resp hresp => ?_⟩
    rcases List.mem_append.mp hmem with hmem | hmem
    · exact hs.answer_all (fun _ hmem' => absurd hfresh (hasked.used _ hmem')) j hj hmem resp hresp
    · exact absurd (congrArg Prod.snd (List.mem_singleton.mp hmem)).symm hne
  | @found id path token other hfresh hr hname =>
    refine ⟨fun j hj d hd hdn => ?_, fun j hj hmem resp hresp => ?_⟩
    · rw [setDownload_downloads, lookup_insert_ite] at hd
      split at hd
      · obtain rfl := Option.some.inj hd
        exact Or.inl rfl
      · exact hs.downloads j hj d hd hdn
    · rcases List.mem_append.mp hmem with hmem | hmem
      · exact hs.answers j hj hmem resp hresp
      · obtain ⟨rfl, -⟩ := Prod.mk.inj (List.mem_singleton.mp hmem)
        exact absurd rfl (hfresh.2.2 _ hresp)
  | @opened id other j hdown hname =>
    refine ⟨fun k hk d hd hdn => ?_, hs.answers⟩
    rw [setDownload_downloads, lookup_insert_ite] at hd
    split at hd
    · obtain rfl := Option.some.inj hd
      obtain rfl : other = name := hdn
      obtain rfl := Option.some.inj (hname.symm.trans hfile.there)
      exact Or.inr ⟨[], by rw [hfile.whole], List.nil_prefix⟩
    · exact hs.downloads k hk d hd hdn
  | @read id n other j size got hdown =>
    refine ⟨fun k hk d hd hdn => ?_, hs.answers⟩
    rw [setDownload_downloads, lookup_insert_ite] at hd
    split at hd
    next heq =>
      subst heq
      obtain rfl := Option.some.inj hd
      rcases hs.downloads k hk _ hdown hdn with hphase | ⟨got', hphase, hpre⟩
      · cases hphase
      · obtain ⟨rfl, rfl, rfl⟩ := DownloadPhase.opened.inj hphase
        refine Or.inr ⟨_, rfl, ?_⟩
        rw [hfile.whole]
        exact prefix_slice hpre _
    next => exact hs.downloads k hk d hd hdn
  | @gone id ok other hdown hname =>
    refine ⟨hended, hs.answer_all (fun hnew hmem => ?_)⟩
    obtain rfl : other = name := hasked.names id _ hdown name hmem
    rw [hfile.there] at hname
    cases hname
  | unreadable =>
    exact ⟨hended, hs.answer_all (fun _ _ => ⟨by decide, fun h => absurd h (by decide)⟩)⟩
  | @reply id other j size got hdown =>
    have hstatus : (200 : Nat) ≠ 404 := by decide
    refine ⟨hended, hs.answer_all (fun hnew hmem => ⟨hstatus, fun _ => ?_⟩)⟩
    obtain rfl : other = name := hasked.names id _ hdown name hmem
    rcases hs.downloads id hnew _ hdown rfl with hphase | ⟨got', hphase, hpre⟩
    · cases hphase
    · obtain ⟨-, rfl, rfl⟩ := DownloadPhase.opened.inj hphase
      exact ⟨rfl, hpre⟩

/-- All of it, from `s₀` on. No two bodies have one digest in the end, hence none on the way. -/
structure Served (cfg : MediaConfig) (disk : Disk Bytes) (s s₀ : MediaServer) (name : Bytes) (i : Nat)
    (x : Nat × Bytes) : Prop where
  kept : s.Kept cfg disk
  asked : s.Asked
  serving : s.Collisionless cfg → s.Unspoiled name i x ∧ s.Serving s₀ name i x.2

theorem Served.step {disk : Disk Bytes} (hs : s.Served cfg disk s₀ name i x)
    (hquiet : Undisturbed cfg name s e) (h : s.step cfg e = some t) :
    t.Served cfg disk s₀ name i x := by
  have hcases := step_cases h
  refine ⟨hs.kept.step h, hs.asked.step hcases, fun hct => ?_⟩
  have hcs := hcases.files.collisionless hct
  obtain ⟨hfile, hserving⟩ := hs.serving hcs
  exact ⟨hfile.step hs.kept hcs hquiet hcases, hserving.step hfile hs.asked hcases⟩

private theorem served_start {disk : Disk Bytes} {before : List MediaEvent}
    (hbefore : run (MediaServer.step cfg) (start disk) before = some s)
    (hname : s.disk.names.lookup name = some i) (hlast : s.openedBy i = some x)
    (hanswer : (x.1, uploadResponse name) ∈ s.answers)
    (hspared : ∀ rest, s.cleaner ≠ .removing name rest) : s.Served cfg disk s name i x := by
  have hkept := kept_run hbefore
  have hasked : s.Asked :=
    run_invariant (fun _ _ _ hs hstep => hs.step (step_cases hstep)) (asked_start disk) hbefore
  have hdoomed : s.cleaner.doomed ≠ some name := by
    cases hcleaner : s.cleaner with
    | removing old rest =>
      intro heq
      obtain rfl := Option.some.inj heq
      exact hspared rest hcleaner
    | looking | crashed => exact fun heq => by cases heq
  refine ⟨hkept, hasked, fun hc => ?_⟩
  have hwhole := (hkept.whole (numbered_run hbefore) hc hlast hanswer rfl).1
  refine ⟨⟨hname, hwhole, hlast, hdoomed⟩, ?_, ?_⟩
  · exact fun k hk d hd => absurd (mem_iff_lookup.mpr ⟨d, hd⟩) hk.2.1
  · exact fun k hk _ r hr => absurd rfl (hk.2.2 _ hr)

/-- The server after an upload that it has answered with success, and that emptied its file
last. -/
structure Stored (cfg : MediaConfig) (disk : Disk Bytes) (before : List MediaEvent)
    (s : MediaServer) (name : Bytes) (x : Nat × Bytes) : Prop where
  ran : run (MediaServer.step cfg) (start disk) before = some s
  there : ∃ i, s.disk.names.lookup name = some i ∧ s.openedBy i = some x
  answered : (x.1, uploadResponse name) ∈ s.answers
  spared : ∀ rest, s.cleaner ≠ .removing name rest

/-- Whoever asks for the file afterwards, as long as it is left alone. -/
theorem Stored.serves {disk : Disk Bytes} {before after : List MediaEvent}
    (h : Stored cfg disk before s name x) (hafter : run (MediaServer.step cfg) s after = some t)
    (hc : t.Collisionless cfg) (hquiet : Meets (MediaServer.step cfg) (Undisturbed cfg name) s after)
    {j : Nat} (hj : s.Fresh j) (hasked : (j, name) ∈ t.asked) {resp : Response}
    (hresp : (j, resp) ∈ t.answers) : Serves x.2 resp := by
  obtain ⟨i, hname, hlast⟩ := h.there
  have hstart := served_start h.ran hname hlast h.answered h.spared
  have hserved := run_guarded (fun _ _ _ hu hq hstep => Served.step hu hq hstep) hstart hquiet hafter
  exact (hserved.serving hc).2.answers j hj hasked resp hresp

/-- The name of a stored file is the digest of what was uploaded. -/
theorem Stored.name_eq {disk : Disk Bytes} {before : List MediaEvent}
    (h : Stored cfg disk before s name x) : name = fileID cfg x.2 := by
  obtain ⟨i, hname, hlast⟩ := h.there
  exact ((kept_run h.ran).placed.name_eq hname hlast).symm

end

end MediaServer

open MediaServer

/-- Over every run the cleanup never meets the nil pointer, and what it is about to remove it has
found to be more than seven days old. -/
theorem cleanup_safe (cfg : MediaConfig) (disk : Disk Bytes) (events : List MediaEvent)
    (t : MediaServer) (hrun : run (step cfg) (start disk) events = some t) :
    t.cleaner ≠ .crashed ∧
      ∀ name rest, t.cleaner = .removing name rest → FoundOld cfg disk events name := by
  refine ⟨(listed_run hrun).running, fun name rest hdoomed => ?_⟩
  exact foundOld_of_doomed hrun (by rw [hdoomed]; rfl)

/-- A file that nobody touches for more than seven days, and then a pass of the cleanup. -/
def oldFile : List MediaEvent :=
  [.request 1 (uploadOf [7]), .create 1 5, .write 1 1 5, .close 1,
    .list [fileID guardedConfig [7]], .examine (6 + mediaRetention)]

theorem cleanup_safe_oldFile : ∃ t, run (step guardedConfig) (start .empty) oldFile = some t ∧
    t.cleaner = .removing (fileID guardedConfig [7]) [] ∧ t.cleaner ≠ .crashed ∧
    FoundOld guardedConfig .empty oldFile (fileID guardedConfig [7]) := by
  have hsafe := cleanup_safe guardedConfig .empty oldFile _ rfl
  exact ⟨_, rfl, rfl, hsafe.1, hsafe.2 _ [] rfl⟩

/-- A file that was uploaded with success is served, whole, to whoever asks for it afterwards: up
to seven days after it was written, unless the cleanup has already made up its mind about an older
file of that name, and until somebody uploads it again. A client that reads as much as was
announced has the file. -/
theorem download_serves (cfg : MediaConfig) (disk : Disk Bytes) (before after : List MediaEvent)
    (s t : MediaServer) (hbefore : run (step cfg) (start disk) before = some s)
    (hafter : run (step cfg) s after = some t) (hc : t.Collisionless cfg) (name : Bytes) (i : Nat)
    (hname : s.disk.names.lookup name = some i) (id : Nat) (data : Bytes)
    (hlast : s.openedBy i = some (id, data)) (hanswer : (id, uploadResponse name) ∈ s.answers)
    (hspared : ∀ rest, s.cleaner ≠ .removing name rest)
    (hquiet : Meets (step cfg) (Undisturbed cfg name) s after) (j : Nat) (hj : s.Fresh j)
    (hasked : (j, name) ∈ t.asked) (resp : Response) (hresp : (j, resp) ∈ t.answers) :
    resp.status ≠ 404 ∧ (resp.status = 200 → resp.body.length = resp.contentLength →
      resp.body = data) := by
  have hstored : Stored cfg disk before s name (id, data) :=
    ⟨hbefore, ⟨i, hname, hlast⟩, hanswer, hspared⟩
  have hserves := hstored.serves hafter hc hquiet hj hasked hresp
  refine ⟨hserves.found, fun hok hlen => ?_⟩
  obtain ⟨hall, hprefix⟩ := hserves.part hok
  exact hprefix.eq_of_length (hlen.trans hall)

/-- The name of `[7, 8]`, and a request for it. -/
def overlapped : Bytes := fileID guardedConfig [7, 8]

def fetchOverlapped : List MediaEvent :=
  [.request 3 (.download (lit "/download/" ++ overlapped) (lit "token")), .openFile 3 true, .read 3 1,
    .read 3 9, .reply 3]

theorem download_serves_overlapped : ∃ s t resp,
    run (step guardedConfig) (start .empty) overlappingUploads = some s ∧
    run (step guardedConfig) s fetchOverlapped = some t ∧ (3, resp) ∈ t.answers ∧
    resp.body = [7, 8] := by
  refine ⟨_, _, ⟨200, [7, 8], 2⟩, rfl, rfl, by decide, ?_⟩
  exact (download_serves guardedConfig .empty overlappingUploads fetchOverlapped _ _ rfl rfl
    (by decide) overlapped 0 (by decide) 2 [7, 8] rfl (by decide) (fun rest => Cleaner.noConfusion)
    ⟨trivial, fun _ _ => ⟨trivial, fun _ _ => ⟨trivial, fun _ _ => ⟨trivial, fun _ _ =>
      ⟨trivial, fun _ _ => trivial⟩⟩⟩⟩⟩ 3 (by decide) (by decide) _ (by decide)).2 rfl rfl

end VRGram.Relay
