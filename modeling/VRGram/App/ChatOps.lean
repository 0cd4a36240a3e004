import VRGram.App.ChatStart

/-!
# Runs of the chat list

All operations of `ChatList`, in any order and with the load at any point. The ids of the list
are unique and stay, and an update changes the entries of its id only. Two operations change the
time of an entry where it stands: the list stays in time order exactly if the new time fits there.
-/
namespace VRGram.App

open VRGram.Lib VRGram.Lib.Machine VRGram.Lib.Rewriting VRGram.Lib.Sorting

set_option autoImplicit false

def updateMessage (state : List ChatMessage) (id : DartString) (updated : ChatMessage) :
    List ChatMessage :=
  changeEntries state id (fun _ => updated)

def updateMediaProgress (state : List ChatMessage) (id : DartString) (progress : Double) :
    List ChatMessage :=
  changeEntries state id (fun m => m.copyWith none none none none (some progress))

def updateMediaMessageId (state : List ChatMessage) (id mediaMessageId : DartString) :
    List ChatMessage :=
  changeEntries state id (fun m => m.copyWith none none none (some mediaMessageId))

/-- The list and the flag `_loaded`. -/
structure Chat where
  messages : List ChatMessage
  loaded : Bool
  deriving DecidableEq

/-- The operations; a load comes with the file it has read, if there is one. -/
inductive ChatOp where
  | add (msg : ChatMessage)
  | updateMessage (id : DartString) (updated : ChatMessage)
  | updateStatus (id : DartString) (status : MessageStatus)
  | updateMediaProgress (id : DartString) (progress : Double)
  | updateMediaMessageId (id mediaMessageId : DartString)
  | load (now : Int) (file : Option (Content (List ChatMessage)))

section

variable (sort : List ChatMessage → List ChatMessage)

/-- The end of `_load`, when the file was read. -/
def Chat.load (c : Chat) (now : Int) : Option (Content (List ChatMessage)) → Chat
  | some text => if c.loaded then c else ⟨mergeText sort now c.messages text, true⟩
  | none => { c with loaded := true }

def Chat.perform (c : Chat) : ChatOp → Chat
  | .add msg => { c with messages := addMessage sort c.messages msg }
  | .updateMessage id updated => { c with messages := updateMessage c.messages id updated }
  | .updateStatus id status => { c with messages := updateStatus c.messages id status }
  | .updateMediaProgress id progress =>
    { c with messages := updateMediaProgress c.messages id progress }
  | .updateMediaMessageId id mediaMessageId =>
    { c with messages := updateMediaMessageId c.messages id mediaMessageId }
  | .load now file => c.load sort now file

/-- Every operation is possible at any time. -/
def chatStep (c : Chat) (op : ChatOp) : Option Chat := some (c.perform sort op)

/-- The list before anything is loaded or added. -/
def Chat.empty : Chat := ⟨[], false⟩

end

/-- A load leaves the list or merges a whole file into it. -/
theorem load_messages (sort : List ChatMessage → List ChatMessage) (c : Chat) (now : Int)
    (file : Option (Content (List ChatMessage))) :
    (c.load sort now file).messages = c.messages ∨
      ∃ loaded, file = some (.whole loaded) ∧
        (c.load sort now file).messages = mergeLoaded sort now loaded c.messages := by
  cases file with
  | none => exact Or.inl rfl
  | some text =>
    rw [Chat.load]
    split
    next => exact Or.inl rfl
    next =>
      cases text with
      | whole loaded => exact Or.inr ⟨loaded, rfl, rfl⟩
      | broken n => exact Or.inl rfl

/-! ## Ids -/

/-- The ids, the order and all entries of other ids are as they were. -/
structure Elsewhere (id : DartString) (before after : List ChatMessage) : Prop where
  ids : ids after = ids before
  others : ∀ (i : Nat) (m : ChatMessage), before[i]? = some m → m.id ≠ id → after[i]? = some m

private theorem elsewhere_changeEntries {id : DartString} {change : ChatMessage → ChatMessage}
    (h : ∀ m, m.id = id → (change m).id = id) (state : List ChatMessage) :
    Elsewhere id state (changeEntries state id change) := by
  refine ⟨ids_changeEntries h state, fun i m hi hne => ?_⟩
  rw [changeEntries, List.getElem?_map, hi, Option.map_some, if_neg hne]

/-- What a known message takes over from a message that is added again. -/
def ChatMessage.withMetadata (existing msg : ChatMessage) : ChatMessage :=
  { existing with
    sequenceNumber := msg.sequenceNumber.or existing.sequenceNumber
    serverTimestamp := msg.serverTimestamp.or existing.serverTimestamp }

private theorem copyWith_metadata (existing msg : ChatMessage) :
    existing.copyWith none (msg.sequenceNumber.or existing.sequenceNumber)
      (msg.serverTimestamp.or existing.serverTimestamp) = existing.withMetadata msg := by
  unfold ChatMessage.copyWith ChatMessage.withMetadata
  cases msg.sequenceNumber <;> cases msg.serverTimestamp <;> simp

private theorem modify_middle (change : ChatMessage → ChatMessage) (front : List ChatMessage)
    (m : ChatMessage) (back : List ChatMessage) :
    (front ++ m :: back).modify front.length change = front ++ change m :: back := by
  induction front with
  | nil => rfl
  | cons first front ih => exact congrArg (first :: ·) ih

/-- A message that is known already keeps its place. -/
theorem addMessage_known (sort : List ChatMessage → List ChatMessage) {msg existing : ChatMessage}
    {front : List ChatMessage} (back : List ChatMessage) (hfront : msg.id ∉ ids front)
    (hid : existing.id = msg.id) :
    addMessage sort (front ++ existing :: back) msg =
      front ++ existing.withMetadata msg :: back := by
  have hidx : (front ++ existing :: back).findIdx? (fun m => m.id = msg.id) =
      some front.length := by
    rw [List.findIdx?_append, findIdx_of_fresh hfront]
    simp [List.findIdx?_cons, hid]
  rw [addMessage, hidx]
  simp only [copyWith_metadata]
  exact modify_middle _ front existing back

/-- The place of a known id: no entry in front of it has the id. -/
theorem mem_ids_split {x : DartString} {state : List ChatMessage} (h : x ∈ ids state) :
    ∃ front existing back, state = front ++ existing :: back ∧ existing.id = x ∧ x ∉ ids front := by
  induction state with
  | nil => cases h
  | cons m rest ih =>
    by_cases hm : m.id = x
    · exact ⟨[], m, rest, rfl, hm, List.not_mem_nil⟩
    · have hrest : x ∈ ids rest := (List.mem_cons.mp h).resolve_left (Ne.symm hm)
      obtain ⟨front, existing, back, rfl, hid, hfront⟩ := ih hrest
      refine ⟨m :: front, existing, back, rfl, hid, ?_⟩
      intro hmem
      exact (List.mem_cons.mp hmem).elim (fun he => hm he.symm) hfront

private theorem nodup_appendMissing {stale : List ChatMessage} (h : (ids stale).Nodup)
    (msg : ChatMessage) :
    (ids (appendMissing stale msg)).Nodup := by
  unfold appendMissing
  split
  next => exact h
  next hany =>
    have hfresh : msg.id ∉ ids stale := by
      intro hmem
      obtain ⟨m, hm, hid⟩ := List.mem_map.mp hmem
      exact hany (List.any_eq_true.mpr ⟨m, hm, decide_eq_true hid⟩)
    rw [ids, List.map_append]
    exact List.Nodup.append h (List.nodup_singleton _)
      (List.disjoint_singleton.mpr hfresh)

private theorem nodup_appendAll (memory : List ChatMessage) {stale : List ChatMessage}
    (h : (ids stale).Nodup) : (ids (memory.foldl appendMissing stale)).Nodup := by
  induction memory generalizing stale with
  | nil => exact h
  | cons msg rest ih => exact ih (nodup_appendMissing h msg)

/-- The operations as they are called: an update keeps the id of the message, and a file has each
id once. -/
def ChatOp.Proper : ChatOp → Prop
  | .updateMessage id updated => updated.id = id
  | .load _ (some (.whole loaded)) => (ids loaded).Nodup
  | _ => True

/-- What an operation does to the list. -/
def ChatOp.Effect (before after : List ChatMessage) : ChatOp → Prop
  | .add msg =>
    (msg.id ∉ ids before → after.Perm (before ++ [msg])) ∧
    ∀ front existing back, before = front ++ existing :: back → existing.id = msg.id →
      after = front ++ existing.withMetadata msg :: back
  | .updateMessage id _ => Elsewhere id before after
  | .updateStatus id _ => Elsewhere id before after
  | .updateMediaProgress id _ => Elsewhere id before after
  | .updateMediaMessageId id _ => Elsewhere id before after
  | .load _ _ => ids before ⊆ ids after

section Unique

variable {sort : List ChatMessage → List ChatMessage} (hsort : ∀ l, (sort l).Perm l)
include hsort

private theorem nodup_addMessage {state : List ChatMessage} (h : (ids state).Nodup)
    (msg : ChatMessage) :
    (ids (addMessage sort state msg)).Nodup := by
  by_cases hknown : msg.id ∈ ids state
  · obtain ⟨front, existing, back, rfl, hid, hfront⟩ := mem_ids_split hknown
    rw [addMessage_known sort back hfront hid]
    have hsame : ids (front ++ existing.withMetadata msg :: back) =
        ids (front ++ existing :: back) := by
      simp [ids, ChatMessage.withMetadata]
    rw [hsame]
    exact h
  · rw [addMessage_of_fresh sort hknown]
    refine ((hsort _).map ChatMessage.id).nodup_iff.mpr ?_
    rw [List.map_append]
    exact List.Nodup.append h (List.nodup_singleton _) (List.disjoint_singleton.mpr hknown)

private theorem nodup_mergeLoaded (now : Int) {loaded : List ChatMessage} (h : (ids loaded).Nodup)
    (memory : List ChatMessage) : (ids (mergeLoaded sort now loaded memory)).Nodup := by
  refine ((hsort _).map ChatMessage.id).nodup_iff.mpr (nodup_appendAll memory ?_)
  rw [ids_map (id_expire now)]
  exact h

private theorem effect_add {state : List ChatMessage} (h : (ids state).Nodup) (msg : ChatMessage) :
    (ChatOp.add msg).Effect state (addMessage sort state msg) := by
  refine ⟨fun hfresh => ?_, ?_⟩
  · rw [addMessage_of_fresh sort hfresh]
    exact hsort (state ++ [msg])
  · rintro front existing back rfl hid
    have hfront : msg.id ∉ ids front := by
      rw [ids, List.map_append, List.map_cons, hid] at h
      exact fun hmem => List.disjoint_of_nodup_append h hmem List.mem_cons_self
    exact addMessage_known sort back hfront hid

/-- One operation, from a list of unique ids. -/
theorem perform_spec {c : Chat} (h : (ids c.messages).Nodup) {op : ChatOp} (hop : op.Proper) :
    op.Effect c.messages (c.perform sort op).messages ∧
    (ids (c.perform sort op).messages).Nodup ∧
    ids c.messages ⊆ ids (c.perform sort op).messages := by
  have hupdate : ∀ {id : DartString} {change : ChatMessage → ChatMessage},
      (∀ m, m.id = id → (change m).id = id) →
      Elsewhere id c.messages (changeEntries c.messages id change) ∧
      (ids (changeEntries c.messages id change)).Nodup ∧
      ids c.messages ⊆ ids (changeEntries c.messages id change) := by
    intro id change hchange
    have hsame := elsewhere_changeEntries hchange c.messages
    rw [hsame.ids]
    exact ⟨hsame, h, List.Subset.refl _⟩
  cases op with
  | add msg =>
    refine ⟨effect_add hsort h msg, nodup_addMessage hsort h msg, fun x hx => ?_⟩
    exact (mem_ids_addMessage hsort c.messages msg x).mpr (Or.inl hx)
  | updateMessage id updated => exact hupdate (fun _ _ => hop)
  | updateStatus id status => exact hupdate (fun _ hm => hm)
  | updateMediaProgress id progress => exact hupdate (fun _ hm => hm)
  | updateMediaMessageId id mediaMessageId => exact hupdate (fun _ hm => hm)
  | load now file =>
    have hkept : (ids (c.load sort now file).messages).Nodup ∧
        ids c.messages ⊆ ids (c.load sort now file).messages := by
      rcases load_messages sort c now file with hsame | ⟨loaded, rfl, hmerged⟩
      · rw [hsame]
        exact ⟨h, List.Subset.refl _⟩
      · rw [hmerged]
        refine ⟨nodup_mergeLoaded hsort now hop c.messages, fun x hx => ?_⟩
        exact (mem_ids_mergeLoaded hsort now loaded c.messages x).mpr (Or.inr hx)
    exact ⟨hkept.2, hkept⟩

end Unique

/-- In every run of the operations, the load at any point: after each prefix of the run the ids are
unique, and each operation keeps the ids and has its effect. -/
theorem chat_unique_and_kept (sort : List ChatMessage → List ChatMessage)
    (hsort : ∀ l, (sort l).Perm l) (ops : List ChatOp) (hops : ∀ op ∈ ops, op.Proper) :
    Always (chatStep sort) (fun c => (ids c.messages).Nodup) Chat.empty ops ∧
    Meets (chatStep sort)
      (fun c op => ids c.messages ⊆ ids (c.perform sort op).messages ∧
        op.Effect c.messages (c.perform sort op).messages) Chat.empty ops := by
  have hproper : Meets (chatStep sort) (fun _ op => op.Proper) Chat.empty ops :=
    meets_of_forall hops _
  have hstep : ∀ (c : Chat) (op : ChatOp) (c' : Chat), (ids c.messages).Nodup → op.Proper →
      chatStep sort c op = some c' → (ids c'.messages).Nodup := by
    intro c op c' h hop hc
    obtain rfl := Option.some.inj hc
    exact (perform_spec hsort h hop).2.1
  have hempty : (ids Chat.empty.messages).Nodup := List.nodup_nil
  refine ⟨always_of_guarded hstep hempty hproper, meets_of_guarded ?_ hstep hempty hproper⟩
  intro c op h hop
  obtain ⟨heffect, -, hkept⟩ := perform_spec hsort h hop
  exact ⟨hkept, heffect⟩

/-- A message of the file is polled again, before and after the load. -/
def polledAround : List ChatOp :=
  [.add (relayed "a" 7 none), .load 0 (some (.whole [relayed "b" 5 none, relayed "a" 6 none])),
    .add (relayed "b" 8 (some 1)), .updateMediaProgress (dart "a") 0]

theorem chat_unique_and_kept_polledAround :
    Always (chatStep byOrder) (fun c => (ids c.messages).Nodup) Chat.empty polledAround := by
  refine (chat_unique_and_kept byOrder (List.perm_insertionSort _) polledAround ?_).1
  intro op hop
  simp only [polledAround, List.mem_cons, List.not_mem_nil, or_false] at hop
  rcases hop with rfl | rfl | rfl | rfl
  · trivial
  · exact (by decide : (ids [relayed "b" 5 none, relayed "a" 6 none]).Nodup)
  · trivial
  · trivial

/-! ## Time order -/

def InTimeOrder (l : List ChatMessage) : Prop :=
  l.Pairwise (fun a b => a.effectiveTime ≤ b.effectiveTime)

instance (l : List ChatMessage) : Decidable (InTimeOrder l) :=
  inferInstanceAs (Decidable (List.Pairwise _ l))

/-- The comparator looks at the time first, so that a sort by it puts the times in order, whatever
it does with messages of one time. -/
structure Chronological (sort : List ChatMessage → List ChatMessage) : Prop where
  perm : ∀ l, (sort l).Perm l
  ordered : ∀ l, InTimeOrder (sort l)

/-- A time between those of the entries in front and those behind. -/
def Fits (front : List ChatMessage) (time : Int) (back : List ChatMessage) : Prop :=
  (∀ m ∈ front, m.effectiveTime ≤ time) ∧ ∀ m ∈ back, time ≤ m.effectiveTime

/-- An entry that an operation changes where it stands gets a time that fits there. -/
def ChatOp.FitsIn (state : List ChatMessage) : ChatOp → Prop
  | .add msg => ∀ front existing back, state = front ++ existing :: back → existing.id = msg.id →
      msg.id ∉ ids front → Fits front (existing.withMetadata msg).effectiveTime back
  | .updateMessage id updated => ∀ front existing back, state = front ++ existing :: back →
      existing.id = id → Fits (front.filter (fun m => m.id ≠ id)) updated.effectiveTime
        (back.filter (fun m => m.id ≠ id))
  | _ => True

theorem inTimeOrder_middle {front back : List ChatMessage} {m : ChatMessage} :
    InTimeOrder (front ++ m :: back) ↔
      InTimeOrder (front ++ back) ∧ Fits front m.effectiveTime back := by
  unfold InTimeOrder Fits
  simp only [List.pairwise_append, List.pairwise_cons, List.mem_cons, forall_eq_or_imp]
  constructor
  · rintro ⟨hfront, ⟨hm, hback⟩, hcross⟩
    exact ⟨⟨hfront, hback, fun a ha => (hcross a ha).2⟩, fun a ha => (hcross a ha).1, hm⟩
  · rintro ⟨⟨hfront, hback, hcross⟩, hle, hm⟩
    exact ⟨hfront, ⟨hm, hback⟩, fun a ha => ⟨hle a ha, hcross a ha⟩⟩

/-- A change that leaves the times leaves the order. -/
theorem inTimeOrder_changeEntries {id : DartString} {change : ChatMessage → ChatMessage}
    (h : ∀ m, (change m).effectiveTime = m.effectiveTime) {state : List ChatMessage} :
    InTimeOrder (changeEntries state id change) ↔ InTimeOrder state := by
  have htime : ∀ m : ChatMessage,
      (if m.id = id then change m else m).effectiveTime = m.effectiveTime := by
    intro m
    split
    next => exact h m
    next => rfl
  unfold InTimeOrder changeEntries
  rw [List.pairwise_map]
  simp only [htime]

private theorem inTimeOrder_updateMessage {state : List ChatMessage} (h : InTimeOrder state)
    (id : DartString) (updated : ChatMessage) :
    InTimeOrder (updateMessage state id updated) ↔
      (ChatOp.updateMessage id updated).FitsIn state := by
  constructor
  · rintro hafter front existing back rfl hid
    rw [updateMessage, changeEntries, List.map_append, List.map_cons, if_pos hid,
      inTimeOrder_middle] at hafter
    obtain ⟨-, hfront, hback⟩ := hafter
    -- an entry of another id is still there
    have hkept : ∀ {part : List ChatMessage} {m : ChatMessage},
        m ∈ part.filter (fun m => m.id ≠ id) →
        m ∈ part.map (fun m => if m.id = id then updated else m) := by
      intro part m hm
      obtain ⟨hmem, hne⟩ := List.mem_filter.mp hm
      exact List.mem_map.mpr ⟨m, hmem, if_neg (of_decide_eq_true hne)⟩
    exact ⟨fun m hm => hfront m (hkept hm), fun m hm => hback m (hkept hm)⟩
  · intro hfits
    rw [updateMessage, changeEntries, InTimeOrder, List.pairwise_map, List.pairwise_iff_getElem]
    intro i j hi hj hij
    have hle : state[i].effectiveTime ≤ state[j].effectiveTime :=
      List.pairwise_iff_getElem.mp h i j hi hj hij
    have hsplit : ∀ {k : Nat} (hk : k < state.length),
        state = state.take k ++ state[k] :: state.drop (k + 1) := by
      intro k hk
      rw [← List.drop_eq_getElem_cons hk, List.take_append_drop]
    by_cases hidi : state[i].id = id <;> by_cases hidj : state[j].id = id
    · rw [if_pos hidi, if_pos hidj]
    · have hmem : state[j] ∈ (state.drop (i + 1)).filter (fun m => m.id ≠ id) := by
        refine List.mem_filter.mpr ⟨?_, decide_eq_true hidj⟩
        exact List.mem_drop_iff_getElem.mpr ⟨j - (i + 1), by omega, by congr 1; omega⟩
      rw [if_pos hidi, if_neg hidj]
      exact (hfits _ _ _ (hsplit hi) hidi).2 _ hmem
    · have hmem : state[i] ∈ (state.take j).filter (fun m => m.id ≠ id) := by
        refine List.mem_filter.mpr ⟨?_, decide_eq_true hidi⟩
        exact List.mem_take_iff_getElem.mpr ⟨i, by omega, rfl⟩
      rw [if_neg hidi, if_pos hidj]
      exact (hfits _ _ _ (hsplit hj) hidj).1 _ hmem
    · rw [if_neg hidi, if_neg hidj]
      exact hle

section Ordered

variable {sort : List ChatMessage → List ChatMessage} (hsort : Chronological sort)
include hsort

private theorem inTimeOrder_addMessage {state : List ChatMessage} (h : InTimeOrder state)
    (msg : ChatMessage) :
    InTimeOrder (addMessage sort state msg) ↔ (ChatOp.add msg).FitsIn state := by
  constructor
  · rintro hafter front existing back rfl hid hfront
    rw [addMessage_known sort back hfront hid, inTimeOrder_middle] at hafter
    exact hafter.2
  · intro hfits
    by_cases hknown : msg.id ∈ ids state
    · obtain ⟨front, existing, back, rfl, hid, hfront⟩ := mem_ids_split hknown
      rw [addMessage_known sort back hfront hid, inTimeOrder_middle]
      exact ⟨(inTimeOrder_middle.mp h).1, hfits front existing back rfl hid hfront⟩
    · rw [addMessage_of_fresh sort hknown]
      exact hsort.ordered _

/-- One operation on a list in time order. -/
theorem inTimeOrder_perform {c : Chat} (h : InTimeOrder c.messages) (op : ChatOp) :
    InTimeOrder (c.perform sort op).messages ↔ op.FitsIn c.messages := by
  have hupdate : ∀ {id : DartString} {change : ChatMessage → ChatMessage},
      (∀ m, (change m).effectiveTime = m.effectiveTime) →
      InTimeOrder (changeEntries c.messages id change) :=
    fun htime => (inTimeOrder_changeEntries htime).mpr h
  cases op with
  | add msg => exact inTimeOrder_addMessage hsort h msg
  | updateMessage id updated => exact inTimeOrder_updateMessage h id updated
  | updateStatus id status =>
    refine iff_of_true ?_ trivial
    exact hupdate (fun _ => rfl)
  | updateMediaProgress id progress =>
    refine iff_of_true ?_ trivial
    exact hupdate (fun _ => rfl)
  | updateMediaMessageId id mediaMessageId =>
    refine iff_of_true ?_ trivial
    exact hupdate (fun _ => rfl)
  | load now file =>
    refine iff_of_true ?_ trivial
    rw [Chat.perform]
    rcases load_messages sort c now file with hsame | ⟨loaded, -, hmerged⟩
    · rw [hsame]
      exact h
    · rw [hmerged]
      exact hsort.ordered _

end Ordered

/-- A run keeps the list in time order all the time exactly if every entry that it adds again or
replaces gets a time that fits where the entry stands. -/
theorem chat_timeOrder_iff (sort : List ChatMessage → List ChatMessage)
    (hsort : Chronological sort) (ops : List ChatOp) :
    Always (chatStep sort) (fun c => InTimeOrder c.messages) Chat.empty ops ↔
      Meets (chatStep sort) (fun c op => op.FitsIn c.messages) Chat.empty ops := by
  have hafter : ∀ (c : Chat) (op : ChatOp), InTimeOrder c.messages →
      ((∀ c', chatStep sort c op = some c' → InTimeOrder c'.messages) ↔ op.FitsIn c.messages) := by
    intro c op h
    rw [← inTimeOrder_perform hsort h op]
    constructor
    · intro hall
      exact hall _ rfl
    · rintro hnext c' hc
      obtain rfl := Option.some.inj hc
      exact hnext
  have hempty : InTimeOrder Chat.empty.messages := List.Pairwise.nil
  rw [always_iff_meets, and_iff_right hempty]
  exact meets_iff_of_invariant hafter (fun _ _ c' _ hok hc => hok c' hc) hempty ops

/-! ### A sort that is chronological -/

theorem effectiveTime_le_of_le {a b : ChatMessage} (h : Le compareMessages a b) :
    a.effectiveTime ≤ b.effectiveTime := by
  rcases (le_iff a b).mp h with hlt | ⟨heq, -⟩
  · exact hlt.le
  · exact heq.le

private theorem effectiveTime_le_of_not_le {a b : ChatMessage} (h : ¬ Le compareMessages a b) :
    b.effectiveTime ≤ a.effectiveTime :=
  effectiveTime_le_of_le ((le_total a b).resolve_left h)

private theorem inTimeOrder_orderedInsert (m : ChatMessage) {l : List ChatMessage}
    (h : InTimeOrder l) :
    InTimeOrder (l.orderedInsert (Le compareMessages) m) := by
  induction l with
  | nil => exact List.pairwise_singleton _ _
  | cons first rest ih =>
    obtain ⟨hfirst, hrest⟩ := List.pairwise_cons.mp h
    by_cases hle : Le compareMessages m first
    · rw [List.orderedInsert_cons_of_le _ _ hle]
      refine List.pairwise_cons.mpr ⟨fun x hx => ?_, h⟩
      have hm := effectiveTime_le_of_le hle
      rcases List.mem_cons.mp hx with rfl | hx
      · exact hm
      · exact hm.trans (hfirst x hx)
    · rw [List.orderedInsert_of_not_le _ _ hle]
      refine List.pairwise_cons.mpr ⟨fun x hx => ?_, ih hrest⟩
      rcases (List.mem_orderedInsert _).mp hx with rfl | hx
      · exact effectiveTime_le_of_not_le hle
      · exact hfirst x hx

/-- An insertion sort, which `List.sort` is for short lists, is chronological: a cycle of the
comparator is among messages of one time. -/
theorem chronological_byOrder : Chronological byOrder where
  perm := List.perm_insertionSort _
  ordered l := by
    induction l with
    | nil => exact List.Pairwise.nil
    | cons m rest ih => exact inTimeOrder_orderedInsert m ih

/-! ### Runs -/

theorem fitsIn_of_fresh {msg : ChatMessage} {state : List ChatMessage} (h : msg.id ∉ ids state) :
    (ChatOp.add msg).FitsIn state := by
  rintro front existing back rfl hid -
  refine absurd (List.mem_map.mpr ⟨existing, ?_, hid⟩) h
  exact List.mem_append_right _ List.mem_cons_self

/-- Each message is new. -/
def newMessages : List ChatOp := [.add (relayed "b" 6 none), .add (relayed "a" 5 none)]

theorem chat_timeOrder_iff_newMessages :
    Always (chatStep byOrder) (fun c => InTimeOrder c.messages) Chat.empty newMessages := by
  refine (chat_timeOrder_iff byOrder chronological_byOrder newMessages).mpr ?_
  refine ⟨fitsIn_of_fresh (by decide), fun c hc => ⟨?_, fun _ _ => trivial⟩⟩
  obtain rfl := Option.some.inj hc
  exact fitsIn_of_fresh (by decide +kernel)

/-- A message is polled again from a relay that took it later. -/
def polledLater : List ChatOp :=
  [.add (relayed "a" 1 none), .add (relayed "b" 2 none), .add (relayed "a" 3 none)]

/-- The entry for a file that is being sent. -/
def pendingMedia (ms : Int) : ChatMessage :=
  { relayed "media" ms none with isSent := true, status := .sending, serverTimestamp := none }

/-- A message arrives while a file is sent, and the end of the sending replaces the entry of the
file by one of that time. -/
def mediaSent : List ChatOp :=
  [.add (pendingMedia 1), .add (relayed "text" 2 none),
    .updateMessage (dart "media") (pendingMedia 3)]

/-- The ids and times in the end. -/
def timeline (ops : List ChatOp) : Option (List (DartString × Int)) :=
  (run (chatStep byOrder) Chat.empty ops).map
    (fun c => c.messages.map (fun m => (m.id, m.effectiveTime)))

theorem chat_out_of_order :
    Chronological byOrder ∧
    timeline polledLater = some [(dart "a", 3000), (dart "b", 2000)] ∧
    timeline mediaSent = some [(dart "media", 3000), (dart "text", 2000)] :=
  ⟨chronological_byOrder, by decide +kernel, by decide +kernel⟩

/-! ## The start-up is such a run -/

def Start.chat (s : Start) : Chat := ⟨s.memory, decide (s.load = .completed)⟩

/-- A step of the start-up is an operation on the list, or the list does not notice it. -/
theorem startStep_chat {sort : List ChatMessage → List ChatMessage} {size : List ChatMessage → Nat}
    {s s' : Start} {a : StartAction} (hs : startStep sort size s a = some s') :
    s'.chat = s.chat ∨ ∃ op, s'.chat = s.chat.perform sort op := by
  cases startStep_cases hs with
  | found text hload hfile => exact Or.inl (by simp [Start.chat, hload])
  | absent hload hfile => exact Or.inr ⟨.load 0 none, rfl⟩
  | read text hload hfile => exact Or.inl (by simp [Start.chat, hload])
  | vanished hload hfile => exact Or.inr ⟨.load 0 none, rfl⟩
  | merge now text hload =>
    exact Or.inr ⟨.load now (some text), by simp [Start.chat, Chat.perform, Chat.load, hload]⟩
  | add msg => exact Or.inr ⟨.add msg, rfl⟩
  | status id status => exact Or.inr ⟨.updateStatus id status, rfl⟩
  | openSave k snapshot hk => exact Or.inl rfl
  | writeSave k snapshot hk => exact Or.inl rfl

/-- Whatever the saves do, the list that a start-up leaves is one that operations make. -/
theorem startUp_chat (sort : List ChatMessage → List ChatMessage) (size : List ChatMessage → Nat)
    (history : List ChatMessage) {actions : List StartAction} {s : Start}
    (hrun : run (startStep sort size) (starting history) actions = some s) :
    ∃ ops, run (chatStep sort) Chat.empty ops = some s.chat := by
  have hstep : ∀ (s : Start) (a : StartAction) (s' : Start),
      (∃ ops, run (chatStep sort) Chat.empty ops = some s.chat) →
      startStep sort size s a = some s' →
      ∃ ops, run (chatStep sort) Chat.empty ops = some s'.chat := by
    rintro s a s' ⟨ops, hops⟩ hs
    rcases startStep_chat hs with hsame | ⟨op, hop⟩
    · exact ⟨ops, hsame ▸ hops⟩
    · exact ⟨ops ++ [op], run_append.mpr ⟨s.chat, hops, by rw [hop]; rfl⟩⟩
  exact run_invariant hstep ⟨[], rfl⟩ hrun

end VRGram.App
