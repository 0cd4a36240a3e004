import VRGram.Lib.Hex
import VRGram.Lib.JsonScan

/-!
# Strings as `encoding/json` writes them

`json.Marshal` escapes quotes, backslashes, control characters, the three characters that mean
something in HTML and the two line separators of Unicode, and writes U+FFFD for every byte that
is not part of a rune. What it writes is always read, and read back as it was exactly if it was
well-formed UTF-8.
-/
namespace VRGram.Lib.Json

open VRGram.Lib.Strings VRGram.Lib.Utf8

set_option autoImplicit false

/-- A character below 0x80. -/
def escapeAscii (c : UInt8) : Bytes :=
  if c = quote ∨ c = backslash then [backslash, c]
  else if c = 8 then [backslash, 98]
  else if c = 12 then [backslash, 102]
  else if c = 10 then [backslash, 110]
  else if c = 13 then [backslash, 114]
  else if c = 9 then [backslash, 116]
  else if c.toNat < 32 ∨ c = 38 ∨ c = 60 ∨ c = 62 then
    [backslash, 117, 48, 48, hexDigitOf (c.toNat / 16), hexDigitOf (c.toNat % 16)]
  else [c]

/-- The line separator and the paragraph separator are written as escapes. -/
def escapeRune (rune : Bytes) : Bytes :=
  if rune = [0xE2, 0x80, 0xA8] then lit "\\u2028"
  else if rune = [0xE2, 0x80, 0xA9] then lit "\\u2029"
  else rune

/-- The loop of `appendString`; a step consumes a byte or more. -/
def escapeText : Nat → Bytes → Bytes
  | 0, _ => []
  | _ + 1, [] => []
  | fuel + 1, c :: rest =>
    if c.toNat < 0x80 then escapeAscii c ++ escapeText fuel rest
    else if runeLength (c :: rest) = 0 then lit "\\ufffd" ++ escapeText fuel rest
    else escapeRune ((c :: rest).take (runeLength (c :: rest))) ++
      escapeText fuel ((c :: rest).drop (runeLength (c :: rest)))

def quoteText (s : Bytes) : Bytes := quote :: (escapeText s.length s ++ [quote])

/-! ## What is written is a string -/

theorem escapeAscii_cases {c : UInt8} (h : c.toNat < 0x80) :
    (escapeAscii c = [c] ∧ c ≠ quote ∧ c ≠ backslash ∧ 32 ≤ c.toNat) ∨
      (∃ e, escapeAscii c = [backslash, e] ∧ simpleEscape e = some c) ∨
      ∃ h1 h2, escapeAscii c = [backslash, 117, 48, 48, h1, h2] ∧ hexDigit h1 = some (c.toNat / 16) ∧
        hexDigit h2 = some (c.toNat % 16) := by
  have hhex : ∀ d < 16, hexDigit (hexDigitOf d) = some d := Hex.hexDigit_hexDigitOf
  unfold escapeAscii
  split_ifs with hmark hb hf hn hr ht hlow
  · exact Or.inr (Or.inl ⟨c, rfl, by rcases hmark with rfl | rfl <;> rfl⟩)
  · exact Or.inr (Or.inl ⟨98, rfl, hb ▸ rfl⟩)
  · exact Or.inr (Or.inl ⟨102, rfl, hf ▸ rfl⟩)
  · exact Or.inr (Or.inl ⟨110, rfl, hn ▸ rfl⟩)
  · exact Or.inr (Or.inl ⟨114, rfl, hr ▸ rfl⟩)
  · exact Or.inr (Or.inl ⟨116, rfl, ht ▸ rfl⟩)
  · exact Or.inr (Or.inr ⟨_, _, rfl, hhex _ (by omega), hhex _ (by omega)⟩)
  · obtain ⟨hquote, hslash⟩ := not_or.mp hmark
    exact Or.inl ⟨rfl, hquote, hslash, by omega⟩

theorem Body.ascii {c : UInt8} (h : c.toNat < 0x80) {s : Bytes} (hs : Body s) :
    Body (escapeAscii c ++ s) := by
  rcases escapeAscii_cases h with ⟨heq, hquote, hslash, hcontrol⟩ | ⟨e, heq, he⟩ | ⟨h1, h2, heq, hh1, hh2⟩
  · rw [heq]
    exact .char hquote hslash hcontrol hs
  · rw [heq]
    exact .escape (by rw [he]; rfl) hs
  · rw [heq]
    refine .unicode ?_ hs
    have hzero : hexDigit 48 = some 0 := by decide
    simp [hzero, hh1, hh2]

theorem Body.large {rune : Bytes} (h : ∀ c ∈ rune, 0x80 ≤ c.toNat) {s : Bytes} (hs : Body s) :
    Body (rune ++ s) := by
  induction rune with
  | nil => exact hs
  | cons c rune ih =>
    obtain ⟨hc, hrune⟩ := List.forall_mem_cons.mp h
    refine .char ?_ ?_ (by omega) (ih hrune)
    · rintro rfl
      exact absurd hc (by decide)
    · rintro rfl
      exact absurd hc (by decide)

theorem Body.rune {rune : Bytes} (h : ∀ c ∈ rune, 0x80 ≤ c.toNat) {s : Bytes} (hs : Body s) :
    Body (escapeRune rune ++ s) := by
  unfold escapeRune
  split_ifs
  · exact .unicode (by decide) hs
  · exact .unicode (by decide) hs
  · exact hs.large h

theorem body_escapeText (fuel : Nat) (s : Bytes) : Body (escapeText fuel s) := by
  induction fuel generalizing s with
  | zero => exact .nil
  | succ fuel ih =>
    cases s with
    | nil => exact .nil
    | cons c rest =>
      rw [escapeText]
      split_ifs with hascii hlen
      · exact (ih rest).ascii hascii
      · exact .unicode (by decide) (ih rest)
      · obtain ⟨r, hr, hlarge, htake, -⟩ := take_rune hlen
        refine (ih _).rune ?_
        rw [htake]
        exact encodeRune_nonAscii hr hlarge

/-! ## Reading it back -/

/-- `unquote` after an escaped character. -/
theorem unquote_escapeAscii {c : UInt8} (h : c.toNat < 0x80) (fuel : Nat) (s : Bytes) :
    unquote (fuel + 1) (escapeAscii c ++ s) = c :: unquote fuel s := by
  rcases escapeAscii_cases h with ⟨heq, -, hslash, -⟩ | ⟨e, heq, he⟩ | ⟨h1, h2, heq, hh1, hh2⟩
  · rw [heq]
    exact unquote_ascii hslash h fuel s
  · have hne : e ≠ 117 := simpleEscape_ne_u (by rw [he]; rfl)
    rw [heq, List.cons_append, List.singleton_append, unquote_escape hne, he]
    rfl
  · have hzero : hexDigit 48 = some 0 := by decide
    have hhex : hex4 (48 :: 48 :: h1 :: h2 :: s) = c.toNat := by
      simp only [hex4, List.take_succ_cons, List.take_zero, List.foldl_cons, List.foldl_nil, hzero,
        hh1, hh2, Option.getD_some]
      omega
    have hrune : escapedRune (48 :: 48 :: h1 :: h2 :: s) = (c.toNat, s) := by
      simp only [escapedRune, hhex, List.drop_succ_cons, List.drop_zero]
      rw [if_neg (by omega)]
    rw [heq]
    show unquote (fuel + 1) (backslash :: 117 :: 48 :: 48 :: h1 :: h2 :: s) = _
    rw [unquote_unicode, hrune, encodeRune_ascii h]
    rfl

/-- `unquote` after a rune of several bytes. -/
theorem unquote_escapeRune {r : Nat} (h : Scalar r) (hlarge : 0x80 ≤ r) (fuel : Nat) (s : Bytes) :
    unquote (fuel + 1) (escapeRune (encodeRune r) ++ s) = encodeRune r ++ unquote fuel s := by
  have hseparator : ∀ {d : UInt8} {n : Nat} {rune : Bytes}, hex4 [50, 48, 50, d] = n →
      encodeRune n = rune → n < 0xD800 →
      unquote (fuel + 1) (backslash :: 117 :: 50 :: 48 :: 50 :: d :: s) = rune ++ unquote fuel s := by
    intro d n rune hhex hrune hn
    have hescaped : escapedRune (50 :: 48 :: 50 :: d :: s) = (n, s) := by
      have hhex' : hex4 (50 :: 48 :: 50 :: d :: s) = n := hhex
      simp only [escapedRune, hhex', List.drop_succ_cons, List.drop_zero]
      rw [if_neg (by omega)]
    rw [unquote_unicode, hescaped, hrune]
  unfold escapeRune
  split_ifs with hline hparagraph
  · rw [hline]
    exact hseparator (by decide : _ = 0x2028) (by decide) (by decide)
  · rw [hparagraph]
    exact hseparator (by decide : _ = 0x2029) (by decide) (by decide)
  · obtain ⟨a, more, henc⟩ := List.exists_cons_of_ne_nil (encodeRune_ne_nil r)
    have ha := encodeRune_nonAscii h hlarge a (by rw [henc]; exact List.mem_cons_self)
    have hnext := nextRune_encodeRune h s
    rw [henc, List.cons_append] at hnext ⊢
    have hlen : runeLength (a :: (more ++ s)) ≠ 0 := by
      intro hzero
      rw [nextRune, if_neg (by omega), hzero] at hnext
      cases hnext
    obtain ⟨r', -, -, htake, hnext'⟩ := take_rune hlen
    rw [hnext] at hnext'
    obtain ⟨rfl, hdrop⟩ := Prod.mk.inj (Option.some.inj hnext')
    have hslash : a ≠ backslash := by
      rintro rfl
      exact absurd ha (by decide)
    rw [unquote_rune hslash (by omega) fuel hlen, htake, ← hdrop, henc]

private theorem escapeAscii_ne_nil (c : UInt8) : escapeAscii c ≠ [] := by
  unfold escapeAscii
  split_ifs <;> exact List.cons_ne_nil _ _

private theorem escapeRune_ne_nil {rune : Bytes} (h : rune ≠ []) : escapeRune rune ≠ [] := by
  unfold escapeRune
  split_ifs
  · decide
  · decide
  · exact h

/-- Runes are read back one by one. -/
theorem unquote_escapeText {runes : List Nat} (h : ∀ r ∈ runes, Scalar r) {fuel fuel' : Nat}
    (hfuel : (encodeRunes runes).length ≤ fuel)
    (hfuel' : (escapeText fuel (encodeRunes runes)).length ≤ fuel') :
    unquote fuel' (escapeText fuel (encodeRunes runes)) = encodeRunes runes := by
  induction runes generalizing fuel fuel' with
  | nil => cases fuel <;> cases fuel' <;> rfl
  | cons r rs ih =>
    obtain ⟨hr, hrs⟩ := List.forall_mem_cons.mp h
    have hcons : encodeRunes (r :: rs) = encodeRune r ++ encodeRunes rs := rfl
    rw [hcons] at hfuel hfuel' ⊢
    rw [List.length_append] at hfuel
    have hpos := List.length_pos_iff.mpr (encodeRune_ne_nil r)
    obtain ⟨fuel, rfl⟩ : ∃ f, fuel = f + 1 := ⟨fuel - 1, by omega⟩
    by_cases hone : r < 0x80
    · have hbyte : encodeRune r = [octet r] := by rw [encodeRune, if_pos hone]
      have hascii : (octet r).toNat < 0x80 := by
        rw [toNat_octet (by omega)]
        exact hone
      have hstep : escapeText (fuel + 1) (octet r :: encodeRunes rs) =
          escapeAscii (octet r) ++ escapeText fuel (encodeRunes rs) := by
        rw [escapeText, if_pos hascii]
      rw [hbyte, List.singleton_append] at hfuel' ⊢
      rw [hbyte, List.length_singleton] at hfuel
      rw [hstep, List.length_append] at hfuel'
      have hne := List.length_pos_iff.mpr (escapeAscii_ne_nil (octet r))
      obtain ⟨fuel', rfl⟩ : ∃ f, fuel' = f + 1 := ⟨fuel' - 1, by omega⟩
      rw [hstep, unquote_escapeAscii hascii, ih hrs (by omega) (by omega)]
    · have hlarge := encodeRune_nonAscii hr (by omega)
      obtain ⟨a, more, henc⟩ := List.exists_cons_of_ne_nil (encodeRune_ne_nil r)
      have ha := hlarge a (by rw [henc]; exact List.mem_cons_self)
      have hnext := nextRune_encodeRune hr (encodeRunes rs)
      have hlen : runeLength (encodeRune r ++ encodeRunes rs) ≠ 0 := by
        rw [henc, List.cons_append] at hnext ⊢
        intro hzero
        rw [nextRune, if_neg (by omega), hzero] at hnext
        cases hnext
      have hstep : escapeText (fuel + 1) (encodeRune r ++ encodeRunes rs) =
          escapeRune (encodeRune r) ++ escapeText fuel (encodeRunes rs) := by
        rw [henc, List.cons_append] at hnext hlen ⊢
        obtain ⟨r', -, -, htake, hnext'⟩ := take_rune hlen
        rw [hnext] at hnext'
        obtain ⟨rfl, hdrop⟩ := Prod.mk.inj (Option.some.inj hnext')
        rw [escapeText, if_neg (by omega), if_neg hlen, htake, ← hdrop, henc]
      rw [hstep, List.length_append] at hfuel'
      have hne := List.length_pos_iff.mpr (escapeRune_ne_nil (encodeRune_ne_nil r))
      obtain ⟨fuel', rfl⟩ : ∃ f, fuel' = f + 1 := ⟨fuel' - 1, by omega⟩
      rw [hstep, unquote_escapeRune hr (by omega), ih hrs (by omega) (by omega)]

/-- What a string becomes when it is written and read. -/
def reread (s : Bytes) : Bytes := unquote (escapeText s.length s).length (escapeText s.length s)

theorem stringBody_quoteText (s rest : Bytes) :
    stringBody (escapeText s.length s ++ quote :: rest) = some (reread s, rest) := by
  rw [stringBody, scanString_body (body_escapeText _ s)]
  rfl

/-- A string is read back as it was exactly if it is well-formed. -/
theorem reread_eq_self_iff (s : Bytes) : reread s = s ↔ WellFormed s := by
  constructor
  · intro h
    rw [← h]
    exact wellFormed_unquote _ _
  · rintro ⟨runes, hscalar, rfl⟩
    exact unquote_escapeText hscalar (Nat.le_refl _) (Nat.le_refl _)

theorem Printable.wellFormed {s : Bytes} (h : Printable s) : WellFormed s := by
  rw [← unquote_printable h]
  exact wellFormed_unquote _ _

end VRGram.Lib.Json
