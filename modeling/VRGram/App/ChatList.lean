import VRGram.Lib.Sorting
import VRGram.Lib.Strings
import Mathlib.Data.List.Nodup

/-!
# The chat list and its order

The list is sorted after each new message, by the effective time, then by the sequence numbers
if both messages have one, else by the ids. How `List.sort` works is a parameter.
-/
namespace VRGram.App

open VRGram.Lib.Strings VRGram.Lib.Sorting

set_option autoImplicit false

/-- A Dart string is the list of its UTF-16 code units, and is compared as such. -/
abbrev DartString := List UInt16

/-- A Dart double, by its bits; the list only carries it along. -/
abbrev Double := UInt64

/-- A literal of ASCII characters. -/
def dart (s : String) : DartString := (lit s).map UInt8.toUInt16

inductive MessageStatus where
  | sent | queued | failed | received | sending
  deriving DecidableEq

/-- A `DateTime` is its microseconds since the epoch, by which it is compared. -/
structure ChatMessage where
  id : DartString
  text : DartString
  timestamp : Int
  isSent : Bool
  status : MessageStatus
  fromPeer : Option DartString
  toPeer : Option DartString
  mimeType : Option DartString
  filename : Option DartString
  estimatedSeconds : Option Int
  mediaMessageId : Option DartString
  mediaProgress : Option Double := none
  localFilePath : Option DartString
  sequenceNumber : Option Int
  serverTimestamp : Option Int
  deriving DecidableEq

/-- The arguments that the list passes; a missing one keeps the old value. -/
def ChatMessage.copyWith (m : ChatMessage) (status : Option MessageStatus)
    (sequenceNumber serverTimestamp : Option Int) (mediaMessageId : Option DartString := none)
    (mediaProgress : Option Double := none) : ChatMessage :=
  { m with
    status := status.getD m.status
    mediaMessageId := mediaMessageId.or m.mediaMessageId
    mediaProgress := mediaProgress.or m.mediaProgress
    sequenceNumber := sequenceNumber.or m.sequenceNumber
    serverTimestamp := serverTimestamp.or m.serverTimestamp }

def ChatMessage.effectiveTime (m : ChatMessage) : Int := m.serverTimestamp.getD m.timestamp

/-- The order of two messages of the same time. -/
def tieBreak (a b : ChatMessage) : Ordering :=
  match a.sequenceNumber, b.sequenceNumber with
  | some aSeq, some bSeq => compare aSeq bSeq
  | _, _ => compare a.id b.id

/-- The comparator of `addMessage` and of `_load`. -/
def compareMessages (a b : ChatMessage) : Ordering :=
  (compare a.effectiveTime b.effectiveTime).then (tieBreak a b)

section

variable (sort : List ChatMessage → List ChatMessage)

/-- A known message keeps its place and takes over the metadata of the relay. -/
def addMessage (state : List ChatMessage) (msg : ChatMessage) : List ChatMessage :=
  match state.findIdx? (fun m => m.id = msg.id) with
  | some existingIdx => state.modify existingIdx (fun existing =>
      existing.copyWith none (msg.sequenceNumber.or existing.sequenceNumber)
        (msg.serverTimestamp.or existing.serverTimestamp))
  | none => sort (state ++ [msg])

/-- The entries with an id are replaced where they stand. -/
def changeEntries (state : List ChatMessage) (id : DartString)
    (change : ChatMessage → ChatMessage) : List ChatMessage :=
  state.map (fun m => if m.id = id then change m else m)

def updateStatus (state : List ChatMessage) (id : DartString) (status : MessageStatus) :
    List ChatMessage :=
  changeEntries state id (fun m => m.copyWith (some status) none none)

theorem findIdx_of_fresh {state : List ChatMessage} {msg : ChatMessage}
    (h : msg.id ∉ state.map ChatMessage.id) : state.findIdx? (fun m => m.id = msg.id) = none := by
  rw [List.findIdx?_eq_none_iff]
  intro m hm
  exact decide_eq_false (fun heq => h (heq ▸ List.mem_map_of_mem hm))

theorem addMessage_of_fresh {state : List ChatMessage} {msg : ChatMessage}
    (h : msg.id ∉ state.map ChatMessage.id) : addMessage sort state msg = sort (state ++ [msg]) := by
  rw [addMessage, findIdx_of_fresh h]

/-- Messages with distinct ids are all inserted, as long as the sort loses and doubles none. -/
theorem addMessages_eq_insertAll (order : List ChatMessage)
    (hids : (order.map ChatMessage.id).Nodup)
    (hperm : ∀ first, first <+: order → (insertAll sort first).Perm first) :
    order.foldl (addMessage sort) [] = insertAll sort order := by
  induction order using List.reverseRecOn with
  | nil => rfl
  | append_singleton order msg ih =>
    have hfirst := hperm order (List.prefix_append _ _)
    rw [List.map_append, List.nodup_append'] at hids
    rw [List.foldl_append, List.foldl_cons, List.foldl_nil, insertAll_append,
      ih hids.1 (fun first hpre => hperm first (hpre.trans (List.prefix_append _ _)))]
    refine addMessage_of_fresh sort ?_
    intro hmem
    have hmem' : msg.id ∈ order.map ChatMessage.id := (hfirst.map ChatMessage.id).subset hmem
    exact List.disjoint_left.mp hids.2.2 hmem' (List.mem_singleton.mpr rfl)

end

/-! ## The comparator -/

private theorem tieBreak_swap (a b : ChatMessage) : tieBreak a b = (tieBreak b a).swap := by
  unfold tieBreak
  cases a.sequenceNumber <;> cases b.sequenceNumber <;> exact Std.OrientedOrd.eq_swap

instance : Std.OrientedCmp compareMessages where
  eq_swap := by
    intro a b
    unfold compareMessages
    rw [Ordering.swap_then, ← tieBreak_swap, ← Std.OrientedOrd.eq_swap]

theorem compareMessages_eq_iff (a b : ChatMessage) :
    compareMessages a b = .eq ↔ a.effectiveTime = b.effectiveTime ∧ tieBreak a b = .eq := by
  rw [compareMessages, Ordering.then_eq_eq, Std.LawfulEqOrd.compare_eq_iff_eq]

theorem le_iff (a b : ChatMessage) :
    Le compareMessages a b ↔ a.effectiveTime < b.effectiveTime ∨
      a.effectiveTime = b.effectiveTime ∧ (tieBreak a b).isLE = true := by
  rw [Le, compareMessages, Ordering.isLE_then_iff_or, Std.LawfulEqOrd.compare_eq_iff_eq,
    Int.compare_eq_lt]

/-- Two messages of one time have the same sequence number. -/
def Tied (a b : ChatMessage) : Prop :=
  a.effectiveTime = b.effectiveTime ∧
    ∃ seq, a.sequenceNumber = some seq ∧ b.sequenceNumber = some seq

/-- Of three messages of one time the sequence numbers put `a` before `b`, and the ids `b` before
`c` and `c`, which has no number, before `a`. -/
structure Cyclic (a b c : ChatMessage) : Prop where
  sameTime : a.effectiveTime = b.effectiveTime ∧ b.effectiveTime = c.effectiveTime
  bySequence : ∃ aSeq bSeq, a.sequenceNumber = some aSeq ∧ b.sequenceNumber = some bSeq ∧ aSeq < bSeq
  unnumbered : c.sequenceNumber = none
  byId : compare b.id c.id = .lt ∧ compare c.id a.id = .lt

/-- No tie between different messages and no cycle. -/
structure Unambiguous (msgs : List ChatMessage) : Prop where
  tieless : ∀ a ∈ msgs, ∀ b ∈ msgs, a ≠ b → ¬ Tied a b
  acyclic : ∀ a ∈ msgs, ∀ b ∈ msgs, ∀ c ∈ msgs, ¬ Cyclic a b c

/-! ### When the comparator orders a set of messages -/

theorem tieBreak_numbered {a b : ChatMessage} {aSeq bSeq : Int} (ha : a.sequenceNumber = some aSeq)
    (hb : b.sequenceNumber = some bSeq) : tieBreak a b = compare aSeq bSeq := by
  simp only [tieBreak, ha, hb]

theorem tieBreak_left {a b : ChatMessage} (ha : a.sequenceNumber = none) :
    tieBreak a b = compare a.id b.id := by
  simp only [tieBreak, ha]

theorem tieBreak_right {a b : ChatMessage} (hb : b.sequenceNumber = none) :
    tieBreak a b = compare a.id b.id := by
  unfold tieBreak
  cases a.sequenceNumber <;> simp only [hb]

/-- A cycle is one for the comparator. -/
theorem Cyclic.not_trans {a b c : ChatMessage} (h : Cyclic a b c) :
    Le compareMessages a b ∧ Le compareMessages b c ∧ ¬ Le compareMessages a c := by
  obtain ⟨⟨hab, hbc⟩, ⟨aSeq, bSeq, ha, hb, hlt⟩, hc, hbyb, hbyc⟩ := h
  have hca : compare a.id c.id = .gt := Std.OrientedCmp.gt_iff_lt.mpr hbyc
  simp only [le_iff, tieBreak_numbered ha hb, tieBreak_right hc, hab, hbc, hbyb, hca,
    Int.compare_eq_lt.mpr hlt]
  simp

section Distinct

variable {msgs : List ChatMessage} (hids : (msgs.map ChatMessage.id).Nodup)
include hids

theorem eq_of_id {a b : ChatMessage} (ha : a ∈ msgs) (hb : b ∈ msgs) (h : a.id = b.id) : a = b :=
  List.inj_on_of_nodup_map hids ha hb h

theorem id_lt_of_le {a b : ChatMessage} (ha : a ∈ msgs) (hb : b ∈ msgs) (hne : a ≠ b)
    (h : (compare a.id b.id).isLE = true) : compare a.id b.id = .lt := by
  rcases Ordering.isLE_iff_eq_lt_or_eq_eq.mp h with hlt | heq
  · exact hlt
  · exact absurd (eq_of_id hids ha hb (Std.LawfulEqOrd.compare_eq_iff_eq.mp heq)) hne

/-- Different messages compare as equal exactly if they are tied. -/
theorem tieless_iff :
    Tieless compareMessages msgs ↔ ∀ a ∈ msgs, ∀ b ∈ msgs, a ≠ b → ¬ Tied a b := by
  constructor
  · intro h a ha b hb hne htied
    obtain ⟨htime, seq, hseqa, hseqb⟩ := htied
    refine hne (h a ha b hb ((compareMessages_eq_iff a b).mpr ⟨htime, ?_⟩))
    rw [tieBreak_numbered hseqa hseqb]
    exact Std.ReflOrd.compare_self
  · intro h a ha b hb heq
    obtain ⟨htime, hbreak⟩ := (compareMessages_eq_iff a b).mp heq
    by_contra hne
    cases hseqa : a.sequenceNumber with
    | none =>
      rw [tieBreak_left hseqa] at hbreak
      exact hne (eq_of_id hids ha hb (Std.LawfulEqOrd.compare_eq_iff_eq.mp hbreak))
    | some aSeq =>
      cases hseqb : b.sequenceNumber with
      | none =>
        rw [tieBreak_right hseqb] at hbreak
        exact hne (eq_of_id hids ha hb (Std.LawfulEqOrd.compare_eq_iff_eq.mp hbreak))
      | some bSeq =>
        rw [tieBreak_numbered hseqa hseqb] at hbreak
        obtain rfl := Std.LawfulEqOrd.compare_eq_iff_eq.mp hbreak
        exact h a ha b hb hne ⟨htime, aSeq, hseqa, hseqb⟩

/-- Two numbered messages and one without a number, all of one time, of which the numbers put `a`
first: the ids do not put them the other way round. -/
theorem Unambiguous.not_around (h : Unambiguous msgs) {a b c : ChatMessage} (ha : a ∈ msgs)
    (hb : b ∈ msgs) (hc : c ∈ msgs)
    (htime : a.effectiveTime = b.effectiveTime ∧ b.effectiveTime = c.effectiveTime) {aSeq bSeq : Int}
    (hseqa : a.sequenceNumber = some aSeq) (hseqb : b.sequenceNumber = some bSeq)
    (hseqc : c.sequenceNumber = none) (hle : aSeq ≤ bSeq) (hne : a ≠ b)
    (hbc : (compare b.id c.id).isLE = true) : ¬ (compare c.id a.id).isLE = true := by
  intro hca
  have hstrict : aSeq < bSeq := by
    refine lt_of_le_of_ne hle (fun heq => h.tieless a ha b hb hne ⟨htime.1, aSeq, hseqa, ?_⟩)
    rw [heq, hseqb]
  have hnumbered : ∀ {x : ChatMessage} {seq : Int}, x.sequenceNumber = some seq → x ≠ c := by
    intro x seq hx he
    rw [he, hseqc] at hx
    cases hx
  refine h.acyclic a ha b hb c hc ⟨htime, ⟨aSeq, bSeq, hseqa, hseqb, hstrict⟩, hseqc, ?_, ?_⟩
  · exact id_lt_of_le hids hb hc (hnumbered hseqb) hbc
  · exact id_lt_of_le hids hc ha (hnumbered hseqa).symm hca

/-- The ids or the numbers alone are transitive, so the cases are those with one message that
has no number. -/
theorem Unambiguous.tieBreak_trans (h : Unambiguous msgs) {a b c : ChatMessage} (ha : a ∈ msgs)
    (hb : b ∈ msgs) (hc : c ∈ msgs)
    (htime : a.effectiveTime = b.effectiveTime ∧ b.effectiveTime = c.effectiveTime)
    (hab : (tieBreak a b).isLE = true) (hbc : (tieBreak b c).isLE = true) :
    (tieBreak a c).isLE = true := by
  have hflip : ∀ {x y : DartString}, ¬ (compare x y).isLE = true → (compare y x).isLE = true := by
    intro x y hxy
    have hgt := Ordering.isGT_iff_eq_gt.mp (by simpa using hxy)
    rw [Std.OrientedCmp.gt_iff_lt.mp hgt]
    rfl
  by_contra hac
  cases hseqa : a.sequenceNumber with
  | none =>
    rw [tieBreak_left hseqa] at hab hac
    cases hseqb : b.sequenceNumber with
    | none =>
      rw [tieBreak_left hseqb] at hbc
      exact hac (Std.TransOrd.isLE_trans hab hbc)
    | some bSeq =>
      cases hseqc : c.sequenceNumber with
      | none =>
        rw [tieBreak_right hseqc] at hbc
        exact hac (Std.TransOrd.isLE_trans hab hbc)
      | some cSeq =>
        rw [tieBreak_numbered hseqb hseqc] at hbc
        refine h.not_around hids hb hc ha ⟨htime.2, htime.2.symm.trans htime.1.symm⟩ hseqb hseqc
          hseqa (Int.isLE_compare.mp hbc) ?_ (hflip hac) hab
        intro he
        exact hac (he ▸ hab)
  | some aSeq =>
    cases hseqb : b.sequenceNumber with
    | none =>
      rw [tieBreak_right hseqb] at hab
      rw [tieBreak_left hseqb] at hbc
      cases hseqc : c.sequenceNumber with
      | none =>
        rw [tieBreak_right hseqc] at hac
        exact hac (Std.TransOrd.isLE_trans hab hbc)
      | some cSeq =>
        rw [tieBreak_numbered hseqa hseqc] at hac
        have hlt : cSeq < aSeq := not_le.mp (fun hle => hac (Int.isLE_compare.mpr hle))
        refine h.not_around hids hc ha hb ⟨(htime.1.trans htime.2).symm, htime.1⟩ hseqc hseqa hseqb
          hlt.le ?_ hab hbc
        intro he
        rw [he, hseqa] at hseqc
        exact absurd (Option.some.inj hseqc) hlt.ne'
    | some bSeq =>
      rw [tieBreak_numbered hseqa hseqb] at hab
      cases hseqc : c.sequenceNumber with
      | none =>
        rw [tieBreak_right hseqc] at hbc hac
        refine h.not_around hids ha hb hc htime hseqa hseqb hseqc (Int.isLE_compare.mp hab) ?_ hbc
          (hflip hac)
        intro he
        exact hac (he ▸ hbc)
      | some cSeq =>
        rw [tieBreak_numbered hseqb hseqc] at hbc
        rw [tieBreak_numbered hseqa hseqc] at hac
        exact hac (Std.TransOrd.isLE_trans hab hbc)

theorem Unambiguous.consistent (h : Unambiguous msgs) : Consistent compareMessages msgs := by
  intro a ha b hb c hc hab hbc
  rw [le_iff] at hab hbc ⊢
  rcases hab with hab | ⟨htab, hab⟩
  · rcases hbc with hbc | ⟨htbc, -⟩
    · exact Or.inl (hab.trans hbc)
    · exact Or.inl (htbc ▸ hab)
  · rcases hbc with hbc | ⟨htbc, hbc⟩
    · exact Or.inl (htab ▸ hbc)
    · exact Or.inr ⟨htab.trans htbc, h.tieBreak_trans hids ha hb hc ⟨htab, htbc⟩ hab hbc⟩

/-- The comparator is an order of the messages exactly if there is no tie and no cycle. -/
theorem unambiguous_iff :
    Unambiguous msgs ↔ Consistent compareMessages msgs ∧ Tieless compareMessages msgs := by
  rw [tieless_iff hids]
  constructor
  · intro h
    exact ⟨h.consistent hids, h.tieless⟩
  · intro h
    refine ⟨h.2, fun a ha b hb c hc hcycle => ?_⟩
    obtain ⟨hab, hbc, hac⟩ := hcycle.not_trans
    exact hac (h.1 a ha b hb c hc hab hbc)

end Distinct

/-- The chat list does not depend on the order in which messages with distinct ids are added,
whatever `List.sort` does with ties, exactly if no two messages of one time have the same
sequence number and none is in a cycle. -/
theorem chatOrder_independent_iff (msgs : List ChatMessage)
    (hids : (msgs.map ChatMessage.id).Nodup) :
    (∀ sort, Lawful compareMessages sort → ∀ order₁ order₂ : List ChatMessage,
      order₁.Perm msgs → order₂.Perm msgs →
      order₁.foldl (addMessage sort) [] = order₂.foldl (addMessage sort) []) ↔
    Unambiguous msgs := by
  have hnodup : ∀ {order : List ChatMessage}, order.Perm msgs →
      (order.map ChatMessage.id).Nodup :=
    fun hperm => (hperm.map ChatMessage.id).nodup_iff.mpr hids
  rw [unambiguous_iff hids]
  constructor
  · intro h
    have hfree : OrderFree (cautiousSort compareMessages) msgs := by
      intro order₁ order₂ h₁ h₂
      have heq := h _ lawful_cautiousSort order₁ order₂ h₁ h₂
      rwa [addMessages_eq_insertAll _ _ (hnodup h₁) (fun first _ => insertAll_perm first),
        addMessages_eq_insertAll _ _ (hnodup h₂) (fun first _ => insertAll_perm first)] at heq
    exact ⟨hfree.consistent, hfree.tieless _ (List.Nodup.of_map _ hids)⟩
  · intro h sort hsort order₁ order₂ h₁ h₂
    have hkeeps : ∀ {order : List ChatMessage}, order.Perm msgs → ∀ first, first <+: order →
        (insertAll sort first).Perm first := by
      intro order hperm first hpre
      have hsub : first ⊆ msgs := fun m hm => hperm.subset (hpre.subset hm)
      exact (insertAll_sorted hsort first (h.1.subset hsub)).1
    rw [addMessages_eq_insertAll _ _ (hnodup h₁) (hkeeps h₁),
      addMessages_eq_insertAll _ _ (hnodup h₂) (hkeeps h₂)]
    exact orderFree_of_tieless hsort h.1 h.2 order₁ order₂ h₁ h₂

/-! ### Messages of one moment -/

/-- A received text of the given time in milliseconds. -/
def relayed (id : String) (ms : Int) (sequenceNumber : Option Int) : ChatMessage where
  id := dart id
  text := dart "hello"
  timestamp := ms * 1000
  isSent := false
  status := .received
  fromPeer := none
  toPeer := none
  mimeType := none
  filename := none
  estimatedSeconds := none
  mediaMessageId := none
  localFilePath := none
  sequenceNumber := sequenceNumber
  serverTimestamp := some (ms * 1000)

theorem chatOrder_independent_iff_numbered :
    [relayed "a" 5 (some 1), relayed "b" 5 (some 2)].foldl
        (addMessage (cautiousSort compareMessages)) [] =
      [relayed "b" 5 (some 2), relayed "a" 5 (some 1)].foldl
        (addMessage (cautiousSort compareMessages)) [] := by
  have hunambiguous : Unambiguous [relayed "a" 5 (some 1), relayed "b" 5 (some 2)] := by
    constructor
    · simp [Tied, relayed]
    · intro a _ b _ c hc hcycle
      have hnone := hcycle.unnumbered
      simp only [List.mem_cons, List.not_mem_nil, or_false] at hc
      rcases hc with rfl | rfl <;> cases hnone
  have hsame := (chatOrder_independent_iff [relayed "a" 5 (some 1), relayed "b" 5 (some 2)]
    (by decide +kernel)).mpr hunambiguous
  exact hsame _ lawful_cautiousSort _ _ (List.Perm.refl _) (List.Perm.swap _ _ _)

/-- Two relays give the same number at the same time; and of two numbered messages and a media
message, which has no number, each one comes before the next. -/
theorem chatOrder_depends :
    Lawful compareMessages (cautiousSort compareMessages) ∧
    ([relayed "a" 5 (some 1), relayed "b" 5 (some 1)].foldl
        (addMessage (cautiousSort compareMessages)) [] ≠
      [relayed "b" 5 (some 1), relayed "a" 5 (some 1)].foldl
        (addMessage (cautiousSort compareMessages)) []) ∧
    ([relayed "c" 5 (some 1), relayed "a" 5 (some 2), relayed "b" 5 none].foldl
        (addMessage (cautiousSort compareMessages)) [] ≠
      [relayed "b" 5 none, relayed "a" 5 (some 2), relayed "c" 5 (some 1)].foldl
        (addMessage (cautiousSort compareMessages)) []) :=
  ⟨lawful_cautiousSort, by decide +kernel, by decide +kernel⟩

end VRGram.App
