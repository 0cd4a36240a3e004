import VRGram.App.ChatList
import VRGram.Lib.Machine
import VRGram.Lib.Rewriting

/-!
# Start-up of the chat list

`_load` checks for the file, reads it and merges what it read into the list. In between messages
are added and updated, and each time `_save` begins to write the list of that moment to the same
file. Which message is which is told by the ids.
-/
namespace VRGram.App

open VRGram.Lib VRGram.Lib.Rewriting VRGram.Lib.Sorting

set_option autoImplicit false

def ids (l : List ChatMessage) : List DartString := l.map ChatMessage.id

inductive SavePhase where
  | waiting | opened | written
  deriving DecidableEq

/-- A call of `_save`: the list was encoded when it was called. -/
structure Save where
  snapshot : List ChatMessage
  phase : SavePhase
  deriving DecidableEq

/-- Where `_load` is; a text that was read waits to be decoded and merged. -/
inductive Load where
  | checking
  | reading
  | merging (text : Content (List ChatMessage))
  | completed
  deriving DecidableEq

structure Start where
  memory : List ChatMessage
  file : Option (Content (List ChatMessage))
  load : Load
  saves : List Save
  deriving DecidableEq

inductive StartAction where
  | check
  | read
  | merge (now : Int)
  | add (msg : ChatMessage)
  | status (id : DartString) (status : MessageStatus)
  | openSave (k : Nat)
  | writeSave (k : Nat)
  deriving DecidableEq

/-- A message that was queued more than two minutes ago has failed. -/
def expire (now : Int) (m : ChatMessage) : ChatMessage :=
  if m.status = .queued ∧ (now - m.timestamp).tdiv 60000000 > 2 then
    m.copyWith (some .failed) none none
  else m

def appendMissing (stale : List ChatMessage) (msg : ChatMessage) : List ChatMessage :=
  if stale.any (fun m => m.id = msg.id) then stale else stale ++ [msg]

section

variable (sort : List ChatMessage → List ChatMessage) (size : List ChatMessage → Nat)

def mergeLoaded (now : Int) (loaded memory : List ChatMessage) : List ChatMessage :=
  sort (memory.foldl appendMissing (loaded.map (expire now)))

/-- The list after the text that was read; one that does not decode changes nothing. -/
def mergeText (now : Int) (memory : List ChatMessage) : Content (List ChatMessage) → List ChatMessage
  | .whole loaded => mergeLoaded sort now loaded memory
  | .broken _ => memory

/-- The list changes, and `_save` takes a snapshot of it. -/
def Start.change (s : Start) (memory : List ChatMessage) : Start :=
  { s with memory := memory, saves := s.saves ++ [⟨memory, .waiting⟩] }

def startStep (s : Start) : StartAction → Option Start
  | .check =>
    match s.load with
    | .checking => some { s with load := if s.file.isSome then .reading else .completed }
    | _ => none
  | .read =>
    match s.load, s.file with
    | .reading, some text => some { s with load := .merging text }
    | .reading, none => some { s with load := .completed }
    | _, _ => none
  | .merge now =>
    match s.load with
    | .merging text => some { s with memory := mergeText sort now s.memory text, load := .completed }
    | _ => none
  | .add msg => some (s.change (addMessage sort s.memory msg))
  | .status id status => some (s.change (updateStatus s.memory id status))
  | .openSave k =>
    match s.saves[k]? with
    | some ⟨snapshot, .waiting⟩ =>
      some { s with file := some .truncated, saves := s.saves.set k ⟨snapshot, .opened⟩ }
    | _ => none
  | .writeSave k =>
    match s.saves[k]? with
    | some ⟨snapshot, .opened⟩ =>
      some { s with
        file := s.file.map (fun c => c.write size snapshot)
        saves := s.saves.set k ⟨snapshot, .written⟩ }
    | _ => none

/-- The app starts with a well-formed file. -/
def starting (history : List ChatMessage) : Start := ⟨[], some (.whole history), .checking, []⟩

/-! ## Ids -/

theorem ids_map {f : ChatMessage → ChatMessage} (hf : ∀ m, (f m).id = m.id)
    (l : List ChatMessage) : ids (l.map f) = ids l := by
  rw [ids, List.map_map]
  exact List.map_congr_left (fun m _ => hf m)

private theorem ids_modify {f : ChatMessage → ChatMessage} (hf : ∀ m, (f m).id = m.id)
    (l : List ChatMessage) (i : Nat) : ids (l.modify i f) = ids l := by
  induction l generalizing i with
  | nil => rw [List.modify_nil]
  | cons m rest ih =>
    cases i with
    | zero => exact congrArg (· :: ids rest) (hf m)
    | succ i => exact congrArg (m.id :: ·) (ih i)

theorem ids_changeEntries {id : DartString} {change : ChatMessage → ChatMessage}
    (h : ∀ m, m.id = id → (change m).id = id) (state : List ChatMessage) :
    ids (changeEntries state id change) = ids state := by
  refine ids_map (fun m => ?_) state
  split
  next hm => rw [h m hm, hm]
  next => rfl

private theorem ids_updateStatus (state : List ChatMessage) (id : DartString)
    (status : MessageStatus) :
    ids (updateStatus state id status) = ids state := by
  apply ids_changeEntries
  intro m hm
  exact hm

theorem id_expire (now : Int) (m : ChatMessage) : (expire now m).id = m.id := by
  unfold expire
  split <;> rfl

private theorem mem_ids_appendMissing (stale : List ChatMessage) (msg : ChatMessage)
    (x : DartString) :
    x ∈ ids (appendMissing stale msg) ↔ x ∈ ids stale ∨ x = msg.id := by
  unfold appendMissing
  split
  next hany =>
    obtain ⟨m, hm, hid⟩ := List.any_eq_true.mp hany
    have hmem : msg.id ∈ ids stale := of_decide_eq_true hid ▸ List.mem_map_of_mem hm
    exact ⟨Or.inl, fun h => h.elim id (fun heq => heq ▸ hmem)⟩
  next => simp [ids]

private theorem mem_ids_appendAll (memory stale : List ChatMessage) (x : DartString) :
    x ∈ ids (memory.foldl appendMissing stale) ↔ x ∈ ids stale ∨ x ∈ ids memory := by
  induction memory generalizing stale with
  | nil => simp [ids]
  | cons msg rest ih =>
    rw [List.foldl_cons, ih, mem_ids_appendMissing, or_assoc]
    simp [ids]

section Ids

variable {sort} (hsort : ∀ l, (sort l).Perm l)
include hsort

theorem mem_ids_sort (l : List ChatMessage) (x : DartString) : x ∈ ids (sort l) ↔ x ∈ ids l :=
  ((hsort l).map ChatMessage.id).mem_iff

theorem mem_ids_addMessage (state : List ChatMessage) (msg : ChatMessage) (x : DartString) :
    x ∈ ids (addMessage sort state msg) ↔ x ∈ ids state ∨ x = msg.id := by
  by_cases hknown : msg.id ∈ ids state
  · obtain ⟨i, hi⟩ : ∃ i, state.findIdx? (fun m => m.id = msg.id) = some i := by
      obtain ⟨m, hm, hid⟩ := List.mem_map.mp hknown
      exact Option.isSome_iff_exists.mp (List.findIdx?_isSome.trans
        (List.any_eq_true.mpr ⟨m, hm, decide_eq_true hid⟩))
    have hids : ids (addMessage sort state msg) = ids state := by
      rw [addMessage, hi]
      refine ids_modify ?_ state i
      intro m
      rfl
    rw [hids]
    exact ⟨Or.inl, fun h => h.elim id (fun heq => heq ▸ hknown)⟩
  · rw [addMessage_of_fresh sort hknown, mem_ids_sort hsort]
    simp [ids]

theorem mem_ids_mergeLoaded (now : Int) (loaded memory : List ChatMessage) (x : DartString) :
    x ∈ ids (mergeLoaded sort now loaded memory) ↔ x ∈ ids loaded ∨ x ∈ ids memory := by
  rw [mergeLoaded, mem_ids_sort hsort, mem_ids_appendAll, ids_map (id_expire now)]

end Ids

end

/-! ## Ways a step can go -/

inductive StartStep (sort : List ChatMessage → List ChatMessage) (size : List ChatMessage → Nat)
    (s : Start) : StartAction → Start → Prop
  | found (text : Content (List ChatMessage)) (hload : s.load = .checking)
      (hfile : s.file = some text) : StartStep sort size s .check { s with load := .reading }
  | absent (hload : s.load = .checking) (hfile : s.file = none) :
      StartStep sort size s .check { s with load := .completed }
  | read (text : Content (List ChatMessage)) (hload : s.load = .reading)
      (hfile : s.file = some text) : StartStep sort size s .read { s with load := .merging text }
  | vanished (hload : s.load = .reading) (hfile : s.file = none) :
      StartStep sort size s .read { s with load := .completed }
  | merge (now : Int) (text : Content (List ChatMessage)) (hload : s.load = .merging text) :
      StartStep sort size s (.merge now)
        { s with memory := mergeText sort now s.memory text, load := .completed }
  | add (msg : ChatMessage) :
      StartStep sort size s (.add msg) (s.change (addMessage sort s.memory msg))
  | status (id : DartString) (status : MessageStatus) :
      StartStep sort size s (.status id status) (s.change (updateStatus s.memory id status))
  | openSave (k : Nat) (snapshot : List ChatMessage)
      (hk : s.saves[k]? = some ⟨snapshot, .waiting⟩) :
      StartStep sort size s (.openSave k)
        { s with file := some .truncated, saves := s.saves.set k ⟨snapshot, .opened⟩ }
  | writeSave (k : Nat) (snapshot : List ChatMessage)
      (hk : s.saves[k]? = some ⟨snapshot, .opened⟩) :
      StartStep sort size s (.writeSave k)
        { s with
          file := s.file.map (fun c => c.write size snapshot)
          saves := s.saves.set k ⟨snapshot, .written⟩ }

theorem startStep_cases {sort : List ChatMessage → List ChatMessage}
    {size : List ChatMessage → Nat} {s s' : Start} {a : StartAction}
    (h : startStep sort size s a = some s') : StartStep sort size s a s' := by
  cases a with
  | check =>
    simp only [startStep] at h
    split at h
    next hload =>
      split_ifs at h with hfile <;> cases h
      · obtain ⟨text, htext⟩ := Option.isSome_iff_exists.mp hfile
        exact .found text hload htext
      · exact .absent hload (Option.not_isSome_iff_eq_none.mp hfile)
    next => cases h
  | read =>
    simp only [startStep] at h
    split at h <;> cases h
    next text hload hfile => exact .read text hload hfile
    next hload hfile => exact .vanished hload hfile
  | merge now =>
    simp only [startStep] at h
    split at h <;> cases h
    next text hload => exact .merge now text hload
  | add msg =>
    cases h
    exact .add msg
  | status id status =>
    cases h
    exact .status id status
  | openSave k =>
    simp only [startStep] at h
    split at h <;> cases h
    next snapshot hk => exact .openSave k snapshot hk
  | writeSave k =>
    simp only [startStep] at h
    split at h <;> cases h
    next snapshot hk => exact .writeSave k snapshot hk

/-! ## What the load finds -/

/-- What has happened: the ids that were added, whether the load has read the file, and whether a
save had opened the file before. -/
structure Past where
  added : List DartString
  hasRead : Bool
  cut : Bool
  deriving DecidableEq

def Past.record (p : Past) : StartAction → Past
  | .add msg => { p with added := p.added ++ [msg.id] }
  | .read => { p with hasRead := true }
  | .openSave _ => { p with cut := p.cut || !p.hasRead }
  | _ => p

def past (actions : List StartAction) : Past := actions.foldl Past.record ⟨[], false, false⟩

/-- The text is the one of start-up, or a save has put only messages there that were added. -/
def Found (history : List ChatMessage) (p : Past) (text : Content (List ChatMessage)) : Prop :=
  (p.cut = false ∧ text = .whole history) ∨
    (p.cut = true ∧ text.Within (fun l => ids l ⊆ p.added))

/-- A save before the load has read: its snapshot is of added messages, and it has opened the file
only if the past says so. -/
def Save.Early (p : Past) (save : Save) : Prop :=
  ids save.snapshot ⊆ p.added ∧ (save.phase ≠ .waiting → p.cut = true)

/-- Until the load has read the file, memory, snapshots and file know the added messages only. -/
structure Unread (history : List ChatMessage) (s : Start) (p : Past) : Prop where
  hasRead : p.hasRead = false
  memory : ∀ x, x ∈ ids s.memory ↔ x ∈ p.added
  saves : ∀ save ∈ s.saves, save.Early p
  file : ∃ text, s.file = some text ∧ Found history p text

/-- How the state follows from the past: in the end memory also has what the load found. -/
def Follows (history : List ChatMessage) (s : Start) (p : Past) : Prop :=
  match s.load with
  | .checking => Unread history s p
  | .reading => Unread history s p
  | .merging text => p.hasRead = true ∧ (∀ x, x ∈ ids s.memory ↔ x ∈ p.added) ∧
      Found history p text
  | .completed => p.hasRead = true ∧
      ∀ x, x ∈ ids s.memory ↔ x ∈ p.added ∨ p.cut = false ∧ x ∈ ids history

private theorem unread_starting (history : List ChatMessage) :
    Unread history (starting history) ⟨[], false, false⟩ :=
  ⟨rfl, fun _ => Iff.rfl, fun _ h => absurd h List.not_mem_nil, _, rfl, Or.inl ⟨rfl, rfl⟩⟩

theorem Unread.file_ne_none {history : List ChatMessage} {s : Start} {p : Past}
    (h : Unread history s p) : s.file ≠ none := by
  obtain ⟨text, hfile, -⟩ := h.file
  rw [hfile]
  exact Option.some_ne_none text

/-! ### Changes of the list -/

def Past.grow (p : Past) (extra : List DartString) : Past := { p with added := p.added ++ extra }

theorem Found.grow {history : List ChatMessage} {p : Past} {text : Content (List ChatMessage)}
    (h : Found history p text) (extra : List DartString) : Found history (p.grow extra) text := by
  rcases h with hwhole | ⟨hcut, hwithin⟩
  · exact Or.inl hwhole
  · exact Or.inr ⟨hcut, hwithin.mono (fun l hl => List.subset_append_of_subset_left _ hl)⟩

section Change

variable {history : List ChatMessage} {s : Start} {p : Past} {memory : List ChatMessage}
  {extra : List DartString} (hmemory : ∀ x, x ∈ ids memory ↔ x ∈ ids s.memory ∨ x ∈ extra)
include hmemory

theorem mem_grow (h : ∀ x, x ∈ ids s.memory ↔ x ∈ p.added) (x : DartString) :
    x ∈ ids memory ↔ x ∈ (p.grow extra).added := by
  rw [hmemory x, h x]
  exact List.mem_append.symm

theorem Unread.change (h : Unread history s p) :
    Unread history (s.change memory) (p.grow extra) := by
  obtain ⟨text, hfile, hfound⟩ := h.file
  refine ⟨h.hasRead, mem_grow hmemory h.memory, fun save hsave => ?_, text, hfile, hfound.grow extra⟩
  rcases List.mem_append.mp hsave with hold | hnew
  · obtain ⟨hsub, hphase⟩ := h.saves save hold
    exact ⟨List.subset_append_of_subset_left _ hsub, hphase⟩
  · obtain rfl := List.mem_singleton.mp hnew
    exact ⟨fun x hx => (mem_grow hmemory h.memory x).mp hx, fun hphase => absurd rfl hphase⟩

theorem Follows.change (h : Follows history s p) :
    Follows history (s.change memory) (p.grow extra) := by
  have hload : (s.change memory).load = s.load := rfl
  unfold Follows at h ⊢
  rw [hload]
  cases hl : s.load with
  | checking =>
    rw [hl] at h
    exact Unread.change hmemory h
  | reading =>
    rw [hl] at h
    exact Unread.change hmemory h
  | merging text =>
    rw [hl] at h
    obtain ⟨hread, hmem, hfound⟩ := h
    exact ⟨hread, mem_grow hmemory hmem, hfound.grow extra⟩
  | completed =>
    rw [hl] at h
    obtain ⟨hread, hmem⟩ := h
    refine ⟨hread, fun x => ?_⟩
    have hx : x ∈ ids (s.change memory).memory ↔ x ∈ ids s.memory ∨ x ∈ extra := hmemory x
    rw [hx, hmem x, or_right_comm]
    exact or_congr_left List.mem_append.symm

end Change

/-! ### Steps of a save -/

section Saves

variable {history : List ChatMessage} {s : Start} {p : Past} {k : Nat} {snapshot : List ChatMessage}

theorem Unread.openSave (h : Unread history s p) (hk : s.saves[k]? = some ⟨snapshot, .waiting⟩) :
    Unread history
      { s with file := some .truncated, saves := s.saves.set k ⟨snapshot, .opened⟩ }
      (p.record (.openSave k)) := by
  have hcut : (p.record (.openSave k)).cut = true := by
    simp [Past.record, h.hasRead]
  refine ⟨h.hasRead, h.memory, fun save hsave => ?_, _, rfl,
    Or.inr ⟨hcut, Content.within_truncated _⟩⟩
  rcases List.mem_or_eq_of_mem_set hsave with hold | rfl
  · exact ⟨(h.saves save hold).1, fun _ => hcut⟩
  · exact ⟨(h.saves _ (List.mem_of_getElem? hk)).1, fun _ => hcut⟩

theorem Unread.writeSave (size : List ChatMessage → Nat) (h : Unread history s p)
    (hk : s.saves[k]? = some ⟨snapshot, .opened⟩) :
    Unread history
      { s with
        file := s.file.map (fun c => c.write size snapshot)
        saves := s.saves.set k ⟨snapshot, .written⟩ } p := by
  obtain ⟨hsub, hcut⟩ := h.saves _ (List.mem_of_getElem? hk)
  obtain ⟨text, hfile, -⟩ := h.file
  have hopen : p.cut = true := hcut SavePhase.noConfusion
  refine ⟨h.hasRead, h.memory, fun save hsave => ?_, text.write size snapshot, ?_,
    Or.inr ⟨hopen, Content.within_write size hsub text⟩⟩
  · rcases List.mem_or_eq_of_mem_set hsave with hold | rfl
    · exact h.saves save hold
    · exact ⟨hsub, fun _ => hopen⟩
  · simp only [hfile, Option.map_some]

/-- Once the load has read, saves do not matter. -/
theorem Follows.of_read {s' : Start} {p' : Past} (h : Follows history s p)
    (hload : s'.load = s.load) (hmemory : s'.memory = s.memory) (hadded : p'.added = p.added)
    (hread : p'.hasRead = p.hasRead) (hcut : p.hasRead = true → p'.cut = p.cut)
    (hunread : Unread history s p → Unread history s' p') : Follows history s' p' := by
  unfold Follows at h ⊢
  rw [hload]
  cases hl : s.load with
  | checking =>
    rw [hl] at h
    exact hunread h
  | reading =>
    rw [hl] at h
    exact hunread h
  | merging text =>
    rw [hl] at h
    obtain ⟨hr, hmem, hfound⟩ := h
    dsimp only
    rw [hread, hmemory, Found, hadded, hcut hr]
    exact ⟨hr, hmem, hfound⟩
  | completed =>
    rw [hl] at h
    obtain ⟨hr, hmem⟩ := h
    dsimp only
    rw [hread, hmemory, hadded, hcut hr]
    exact ⟨hr, hmem⟩

end Saves

/-! ### Every run -/

private theorem follows_merge {sort : List ChatMessage → List ChatMessage}
    (hsort : ∀ l, (sort l).Perm l)
    {history memory : List ChatMessage} {p : Past} {text : Content (List ChatMessage)}
    (hmem : ∀ x, x ∈ ids memory ↔ x ∈ p.added) (hfound : Found history p text) (now : Int)
    (x : DartString) :
    x ∈ ids (mergeText sort now memory text) ↔ x ∈ p.added ∨ p.cut = false ∧ x ∈ ids history := by
  rcases hfound with ⟨hcut, rfl⟩ | ⟨hcut, hwithin⟩
  · rw [mergeText, mem_ids_mergeLoaded hsort, hmem x, hcut]
    simp [or_comm]
  · cases text with
    | whole l =>
      rw [mergeText, mem_ids_mergeLoaded hsort, hmem x, hcut]
      simp only [Bool.true_eq_false, false_and, or_false, or_iff_right_iff_imp]
      exact fun hx => hwithin hx
    | broken n =>
      rw [mergeText, hmem x, hcut]
      simp

private theorem follows_step {sort : List ChatMessage → List ChatMessage}
    (hsort : ∀ l, (sort l).Perm l)
    (size : List ChatMessage → Nat) {history : List ChatMessage} (s : Start) (a : StartAction)
    (s' : Start) (p : Past) (h : Follows history s p) (hs : startStep sort size s a = some s') :
    Follows history s' (p.record a) := by
  cases startStep_cases hs with
  | found text hload hfile =>
    rw [Follows, hload] at h
    exact ⟨h.hasRead, h.memory, h.saves, h.file⟩
  | absent hload hfile =>
    rw [Follows, hload] at h
    exact absurd hfile h.file_ne_none
  | read text hload hfile =>
    rw [Follows, hload] at h
    obtain ⟨text', hfile', hfound⟩ := h.file
    obtain rfl := Option.some.inj (hfile.symm.trans hfile')
    exact ⟨rfl, h.memory, hfound⟩
  | vanished hload hfile =>
    rw [Follows, hload] at h
    exact absurd hfile h.file_ne_none
  | merge now text hload =>
    rw [Follows, hload] at h
    obtain ⟨hread, hmem, hfound⟩ := h
    exact ⟨hread, follows_merge hsort hmem hfound now⟩
  | add msg =>
    refine Follows.change (fun x => ?_) h
    rw [mem_ids_addMessage hsort, List.mem_singleton]
  | status id status =>
    have hsame : p.grow [] = p := by
      rw [Past.grow, List.append_nil]
    have hids : ∀ x, x ∈ ids (updateStatus s.memory id status) ↔
        x ∈ ids s.memory ∨ x ∈ ([] : List DartString) := by
      intro x
      simp [ids_updateStatus]
    have hchange := Follows.change hids h
    rw [hsame] at hchange
    exact hchange
  | openSave k snapshot hk =>
    refine h.of_read rfl rfl rfl rfl (fun hread => ?_) (fun hu => hu.openSave hk)
    simp [Past.record, hread]
  | writeSave k snapshot hk =>
    exact h.of_read rfl rfl rfl rfl (fun _ => rfl) (fun hu => hu.writeSave size hk)

/-- After start-up the list has the messages of the file and the ones added meanwhile exactly if
no save opened the file before the load read it, or every message of the file was added again. -/
theorem startUp_keeps_iff (sort : List ChatMessage → List ChatMessage)
    (hsort : ∀ l, (sort l).Perm l) (size : List ChatMessage → Nat) (history : List ChatMessage)
    (actions : List StartAction) (s : Start)
    (hrun : Machine.run (startStep sort size) (starting history) actions = some s)
    (hdone : s.load = .completed) :
    ((∀ m ∈ history, m.id ∈ ids s.memory) ∧ ∀ x ∈ (past actions).added, x ∈ ids s.memory) ↔
      (past actions).cut = false ∨ ∀ m ∈ history, m.id ∈ (past actions).added := by
  have hstart : Follows history (starting history) ⟨[], false, false⟩ := unread_starting history
  have hfollows : Follows history s (past actions) :=
    Machine.run_history (fun s a s' p h hs => follows_step hsort size s a s' p h hs) hstart hrun
  rw [Follows, hdone] at hfollows
  obtain ⟨-, hmem⟩ := hfollows
  constructor
  · intro h
    cases hcut : (past actions).cut with
    | false => exact Or.inl rfl
    | true =>
      refine Or.inr (fun m hm => ?_)
      have hin := (hmem m.id).mp (h.1 m hm)
      rw [hcut] at hin
      simpa using hin
  · intro h
    refine ⟨fun m hm => (hmem m.id).mpr ?_, fun x hx => (hmem x).mpr (Or.inl hx)⟩
    rcases h with hcut | hadded
    · exact Or.inr ⟨hcut, List.mem_map_of_mem hm⟩
    · exact Or.inl (hadded m hm)

/-! ### A message that arrives before the load has read -/

def byOrder (l : List ChatMessage) : List ChatMessage := l.insertionSort (Le compareMessages)

/-- The load reads before the save opens the file. -/
def readFirst : List StartAction :=
  [.check, .add (relayed "new" 6 none), .read, .openSave 0, .writeSave 0, .merge 0]

/-- The save is done before the load reads. -/
def saveFirst : List StartAction :=
  [.check, .add (relayed "new" 6 none), .openSave 0, .writeSave 0, .read, .merge 0]

theorem startUp_keeps_iff_readFirst :
    ∃ s, Machine.run (startStep byOrder List.length) (starting [relayed "old" 5 none]) readFirst =
        some s ∧ s.load = .completed ∧
      (∀ m ∈ [relayed "old" 5 none], m.id ∈ ids s.memory) ∧
      ∀ x ∈ (past readFirst).added, x ∈ ids s.memory := by
  refine ⟨_, rfl, rfl, ?_⟩
  exact (startUp_keeps_iff byOrder (List.perm_insertionSort _) List.length [relayed "old" 5 none]
    readFirst _ rfl rfl).mpr (Or.inl rfl)

theorem saveFirst_loses :
    (Machine.run (startStep byOrder List.length) (starting [relayed "old" 5 none]) saveFirst).map
        (fun s => (s.load, ids s.memory, s.file)) =
      some (.completed, [dart "new"], some (.whole [relayed "new" 6 none])) := by
  decide +kernel

end VRGram.App
