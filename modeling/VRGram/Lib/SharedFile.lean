import VRGram.Lib.OpenFiles

/-!
# A small file with several writers

Every writer empties the file when it opens it, and later writes its whole text with one write at
the start. Writers may overlap, so a reader can find an empty file, or a short text over the end of
a longer one. But what it finds is empty or starts with one of the texts, and every octet is one
that some text has at its place.
-/
namespace VRGram.Lib.SharedFile

open VRGram.Lib.Strings VRGram.Lib.OpenFiles

set_option autoImplicit false

/-- The file, and the texts of those who have opened it and not written yet. -/
structure Shared where
  content : Option Bytes
  pending : List Bytes
  deriving DecidableEq

/-- What a writer does: it opens the file, writes it, or fails to. -/
inductive Stage where
  | opened
  | wrote
  | failed
  deriving DecidableEq

def Shared.step (s : Shared) (text : Bytes) : Stage → Option Shared
  | .opened => some ⟨some [], text :: s.pending⟩
  | .wrote =>
    if s.pending.contains text then
      some ⟨s.content.map (fun file => writeAt file 0 text), s.pending.erase text⟩
    else none
  | .failed =>
    if s.pending.contains text then some { s with pending := s.pending.erase text } else none

/-- What a reader may find of these texts. -/
structure Overlaid (texts : List Bytes) (file : Bytes) : Prop where
  front : file = [] ∨ ∃ text ∈ texts, text <+: file
  octets : ∀ j < file.length, ∃ text ∈ texts, text[j]? = file[j]?

private theorem overlaid_nil (texts : List Bytes) : Overlaid texts [] :=
  ⟨Or.inl rfl, fun j hj => absurd hj (Nat.not_lt_zero j)⟩

theorem Overlaid.mono {texts more : List Bytes} {file : Bytes} (h : Overlaid texts file)
    (hmore : texts ⊆ more) : Overlaid more file where
  front := h.front.imp id (fun ⟨text, hmem, hfront⟩ => ⟨text, hmore hmem, hfront⟩)
  octets j hj := by
    obtain ⟨text, hmem, htext⟩ := h.octets j hj
    exact ⟨text, hmore hmem, htext⟩

theorem writeAt_zero (file text : Bytes) : writeAt file 0 text = text ++ file.drop text.length := by
  simp [writeAt]

theorem Overlaid.write {texts : List Bytes} {file text : Bytes} (h : Overlaid texts file)
    (htext : text ∈ texts) : Overlaid texts (writeAt file 0 text) := by
  rw [writeAt_zero]
  refine ⟨Or.inr ⟨text, htext, List.prefix_append _ _⟩, ?_⟩
  intro j hj
  rw [List.length_append, List.length_drop] at hj
  by_cases hin : j < text.length
  · exact ⟨text, htext, (List.getElem?_append_left hin).symm⟩
  · -- past the text the octets of the old file are still there
    obtain ⟨other, hother, heq⟩ := h.octets j (by omega)
    refine ⟨other, hother, heq.trans ?_⟩
    rw [List.getElem?_append_right (by omega), List.getElem?_drop]
    congr 1
    omega

/-- The file and the writers have these texts. -/
structure Shared.Holds (s : Shared) (texts : List Bytes) : Prop where
  pending : s.pending ⊆ texts
  content : ∀ file ∈ s.content, Overlaid texts file

theorem holds_empty : (⟨none, []⟩ : Shared).Holds [] :=
  ⟨fun _ h => h, fun _ h => by cases h⟩

theorem Shared.Holds.mono {s : Shared} {texts more : List Bytes} (h : s.Holds texts)
    (hmore : texts ⊆ more) : s.Holds more :=
  ⟨fun _ hp => hmore (h.pending hp), fun file hfile => (h.content file hfile).mono hmore⟩

theorem Shared.Holds.step {s t : Shared} {texts : List Bytes} (h : s.Holds texts) {text : Bytes}
    {stage : Stage} (hs : s.step text stage = some t) : t.Holds (texts ++ [text]) := by
  have hmore : texts ⊆ texts ++ [text] := List.subset_append_left _ _
  cases stage with
  | opened =>
    obtain rfl := Option.some.inj hs
    refine ⟨?_, fun file hfile => ?_⟩
    · intro p hp
      rcases List.mem_cons.mp hp with rfl | hold
      · exact List.mem_append_right _ (List.mem_singleton_self _)
      · exact hmore (h.pending hold)
    · obtain rfl := Option.some.inj hfile
      exact overlaid_nil _
  | wrote =>
    simp only [Shared.step] at hs
    split at hs
    next hmem =>
      obtain rfl := Option.some.inj hs
      refine ⟨fun p hp => hmore (h.pending (List.mem_of_mem_erase hp)), fun file hfile => ?_⟩
      obtain ⟨old, hold, rfl⟩ := Option.map_eq_some_iff.mp hfile
      exact ((h.content old hold).mono hmore).write (hmore (h.pending (List.contains_iff_mem.mp hmem)))
    next => cases hs
  | failed =>
    simp only [Shared.step] at hs
    split at hs
    next hmem =>
      obtain rfl := Option.some.inj hs
      exact ⟨fun p hp => hmore (h.pending (List.mem_of_mem_erase hp)), (h.mono hmore).content⟩
    next => cases hs

/-- A writer that is not interrupted leaves its text. -/
theorem write_alone (s : Shared) (text : Bytes) :
    ∃ t u, s.step text .opened = some t ∧ t.step text .wrote = some u ∧ u.content = some text := by
  refine ⟨_, ⟨some (writeAt [] 0 text), s.pending⟩, rfl, ?_, ?_⟩
  · simp [Shared.step]
  · simp [writeAt_zero]

end VRGram.Lib.SharedFile
