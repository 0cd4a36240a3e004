import VRGram.Lib.Strings

/-!
# Trimming

`strings.TrimSpace` and `strings.TrimPrefix`. White space is what `unicode.IsSpace` accepts,
each character as its UTF-8 octets; octets that are no valid encoding are not white space.
-/
namespace VRGram.Lib.Trim

open VRGram.Lib.Strings

set_option autoImplicit false

/-- The encodings of the white space characters. -/
def spaces : List Bytes :=
  [[9], [10], [11], [12], [13], [32], [0xC2, 0x85], [0xC2, 0xA0], [0xE1, 0x9A, 0x80],
    [0xE2, 0x80, 0x80], [0xE2, 0x80, 0x81], [0xE2, 0x80, 0x82], [0xE2, 0x80, 0x83],
    [0xE2, 0x80, 0x84], [0xE2, 0x80, 0x85], [0xE2, 0x80, 0x86], [0xE2, 0x80, 0x87],
    [0xE2, 0x80, 0x88], [0xE2, 0x80, 0x89], [0xE2, 0x80, 0x8A], [0xE2, 0x80, 0xA8],
    [0xE2, 0x80, 0xA9], [0xE2, 0x80, 0xAF], [0xE2, 0x81, 0x9F], [0xE3, 0x80, 0x80]]

/-- Cut words off the front as long as one of them is there; a cut takes an octet or more. -/
def dropWords (words : List Bytes) : Nat → Bytes → Bytes
  | 0, s => s
  | fuel + 1, s =>
    match words.find? (fun word => word.isPrefixOf s) with
    | none => s
    | some word => dropWords words fuel (s.drop word.length)

/-- `strings.TrimSpace`. -/
def trimSpace (s : Bytes) : Bytes :=
  let front := dropWords spaces s.length s
  (dropWords (spaces.map List.reverse) front.length front.reverse).reverse

/-- `strings.TrimPrefix`: the string itself when the word is not at its front. -/
def trimPrefix (s word : Bytes) : Bytes := if word.isPrefixOf s then s.drop word.length else s

theorem trimPrefix_append (word s : Bytes) : trimPrefix (word ++ s) word = s := by
  have h : word.isPrefixOf (word ++ s) = true :=
    List.isPrefixOf_iff_prefix.mpr (List.prefix_append word s)
  rw [trimPrefix, if_pos h, List.drop_left]

/-- A visible ASCII character. -/
def Graphic (c : UInt8) : Prop := 32 < c.toNat ∧ c.toNat < 0x80

instance (c : UInt8) : Decidable (Graphic c) := inferInstanceAs (Decidable (_ ∧ _))

/-- No word starts with a visible character. -/
def Blank (words : List Bytes) : Prop :=
  ∀ word ∈ words, word ≠ [] ∧ ∀ c ∈ word.head?, ¬ Graphic c

instance (words : List Bytes) : Decidable (Blank words) :=
  inferInstanceAs (Decidable (∀ word ∈ words, word ≠ [] ∧ ∀ c ∈ word.head?, ¬ Graphic c))

theorem blank_spaces : Blank spaces := by decide +kernel

theorem blank_reversed : Blank (spaces.map List.reverse) := by decide +kernel

/-- Cutting stops at a visible character. -/
theorem dropWords_graphic {words : List Bytes} (h : Blank words) {c : UInt8} (hc : Graphic c)
    (fuel : Nat) (s : Bytes) : dropWords words fuel (c :: s) = c :: s := by
  cases fuel with
  | zero => rfl
  | succ fuel =>
    have hnone : words.find? (fun word => word.isPrefixOf (c :: s)) = none := by
      rw [List.find?_eq_none]
      intro word hword hfront
      obtain ⟨hne, hhead⟩ := h word hword
      cases word with
      | nil => exact hne rfl
      | cons d word =>
        obtain ⟨rfl, -⟩ := List.cons_prefix_cons.mp (List.isPrefixOf_iff_prefix.mp hfront)
        exact hhead d rfl hc
    rw [dropWords, hnone]

/-- Of a text between visible characters only the final line break is cut off. -/
theorem trimSpace_line {s : Bytes} {first last : UInt8} (hhead : s.head? = some first)
    (htail : s.getLast? = some last) (hfirst : Graphic first) (hlast : Graphic last) :
    trimSpace (s ++ [10]) = s := by
  obtain ⟨t, rfl⟩ : ∃ t, s = first :: t := List.head?_eq_some_iff.mp hhead
  obtain ⟨u, hu⟩ : ∃ u, (first :: t).reverse = last :: u := by
    rw [← List.head?_eq_some_iff, List.head?_reverse]
    exact htail
  have hfind : (spaces.map List.reverse).find? (fun word => word.isPrefixOf (10 :: last :: u)) =
      some [10] := by
    simp [spaces, List.find?, List.isPrefixOf]
  have hback : (first :: (t ++ [10])).reverse = 10 :: last :: u := by
    rw [← hu]
    simp
  rw [List.cons_append, trimSpace, dropWords_graphic blank_spaces hfirst]
  simp only [hback, List.length_cons]
  rw [dropWords, hfind]
  simp only [List.length_singleton, List.drop_succ_cons, List.drop_zero]
  rw [dropWords_graphic blank_reversed hlast, ← hu, List.reverse_reverse]

/-- The lines of a file that starts and ends with a visible character. -/
theorem split_file {lines : List Bytes} (hlines : ∀ line ∈ lines, 10 ∉ line) {first last : UInt8}
    (hhead : (join 10 lines).head? = some first) (htail : (join 10 lines).getLast? = some last)
    (hfirst : Graphic first) (hlast : Graphic last) :
    split 10 (trimSpace (join 10 lines ++ [10])) = lines := by
  have hne : lines ≠ [] := by
    intro hnil
    subst hnil
    cases hhead
  rw [trimSpace_line hhead htail hfirst hlast]
  exact split_join hlines hne

theorem dropWords_suffix (words : List Bytes) (fuel : Nat) (s : Bytes) :
    dropWords words fuel s <:+ s := by
  induction fuel generalizing s with
  | zero => exact List.suffix_refl s
  | succ fuel ih =>
    unfold dropWords
    split
    · exact List.suffix_refl s
    next word _ => exact (ih _).trans (List.drop_suffix word.length s)

/-- Of a text that is empty or starts with a visible character only an end is cut off. -/
theorem trimSpace_begins {s : Bytes} (h : ∀ c ∈ s.head?, Graphic c) : trimSpace s <+: s := by
  have hfront : dropWords spaces s.length s = s := by
    cases s with
    | nil => rfl
    | cons c s => exact dropWords_graphic blank_spaces (h c rfl) _ s
  have hback := dropWords_suffix (spaces.map List.reverse) s.length s.reverse
  rw [trimSpace]
  simp only [hfront]
  rw [← List.reverse_suffix, List.reverse_reverse]
  exact hback

/-- What is left of a text has the first character of the text. -/
theorem trimSpace_head {s : Bytes} {c : UInt8} (hc : Graphic c) (hs : s.head? = some c) {d : UInt8}
    (hd : (trimSpace s).head? = some d) : d = c := by
  have hbegins : trimSpace s <+: s := by
    apply trimSpace_begins
    intro x hx
    rw [hs] at hx
    obtain rfl := Option.some.inj hx
    exact hc
  obtain ⟨rest, hrest⟩ := hbegins
  obtain ⟨more, hmore⟩ := List.head?_eq_some_iff.mp hd
  rw [← hrest, hmore] at hs
  exact Option.some.inj hs

theorem dropWords_visible {words : List Bytes} (h : Blank words) {s : Bytes}
    (hs : ∀ c ∈ s, Graphic c) (fuel : Nat) : dropWords words fuel s = s := by
  cases s with
  | nil => exact List.suffix_nil.mp (dropWords_suffix words fuel [])
  | cons c s => exact dropWords_graphic h (hs c List.mem_cons_self) fuel s

/-- A text of visible characters is not trimmed. -/
theorem trimSpace_visible {s : Bytes} (h : ∀ c ∈ s, Graphic c) : trimSpace s = s := by
  have hback : ∀ c ∈ s.reverse, Graphic c := fun c hc => h c (List.mem_reverse.mp hc)
  rw [trimSpace]
  simp only [dropWords_visible blank_spaces h]
  rw [dropWords_visible blank_reversed hback, List.reverse_reverse]

end VRGram.Lib.Trim
