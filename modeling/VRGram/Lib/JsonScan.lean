import VRGram.Lib.JsonText
import VRGram.Lib.Utf8

/-!
# What a JSON string can be read as

A program that renders a string without escaping it has it read back only if reading leaves the
string as it is. Reading never adds ASCII bytes, each escape takes some away, and what it gives is
well-formed UTF-8, so these strings are exactly the well-formed ones without quotes, backslashes
and control characters. If the quotes alone are escaped, only the quotes are exempt.
-/
namespace VRGram.Lib.Json

open VRGram.Lib.Strings VRGram.Lib.Utf8

set_option autoImplicit false

/-! ## Between two quotes -/

/-- A text that can stand between two quotes. -/
inductive Body : Bytes → Prop
  | nil : Body []
  | char {c : UInt8} {s : Bytes} (hquote : c ≠ quote) (hbackslash : c ≠ backslash)
      (hcontrol : 32 ≤ c.toNat) (hs : Body s) : Body (c :: s)
  | escape {e : UInt8} {s : Bytes} (he : (simpleEscape e).isSome = true) (hs : Body s) :
      Body (backslash :: e :: s)
  | unicode {h1 h2 h3 h4 : UInt8} {s : Bytes}
      (hhex : [h1, h2, h3, h4].all (fun h => (hexDigit h).isSome) = true) (hs : Body s) :
      Body (backslash :: 117 :: h1 :: h2 :: h3 :: h4 :: s)

theorem simpleEscape_u : simpleEscape 117 = none := by decide

theorem scanString_body {s : Bytes} (h : Body s) (rest : Bytes) :
    scanString (s ++ quote :: rest) = some (s, rest) := by
  induction h with
  | nil =>
    rw [List.nil_append, scanString.eq_def]
    rfl
  | char hquote hbackslash hcontrol hs ih =>
    rw [List.cons_append, scanString.eq_def]
    simp only [if_neg hquote, if_neg hbackslash, if_neg (Nat.not_lt.mpr hcontrol), ih]
    rfl
  | @escape e s he hs ih =>
    have hu : e ≠ 117 := by
      rintro rfl
      rw [simpleEscape_u] at he
      cases he
    rw [List.cons_append, List.cons_append, scanString.eq_def]
    simp only [if_neg (show backslash ≠ quote by decide), if_true, if_neg hu, he, ih]
    rfl
  | unicode hhex hs ih =>
    simp only [List.cons_append]
    rw [scanString.eq_def]
    simp only [if_neg (show backslash ≠ quote by decide), if_true, hhex, ih]
    rfl

/-- The scanner stops at the first quote that is not part of an escape. -/
theorem scanString_eq_some_iff {s seg rest : Bytes} :
    scanString s = some (seg, rest) ↔ s = seg ++ quote :: rest ∧ Body seg := by
  constructor
  · intro h
    fun_induction scanString s generalizing seg rest <;>
      simp_all only [reduceCtorEq, Option.some.injEq, Option.map_eq_some_iff, Prod.mk.injEq]
    case case2 =>
      obtain ⟨rfl, rfl⟩ := h
      exact ⟨rfl, .nil⟩
    case case4 ih =>
      obtain ⟨r, hr, hseg⟩ := h
      obtain ⟨rfl, rfl⟩ := Prod.mk.inj hseg
      obtain ⟨heq, hbody⟩ := ih hr
      exact ⟨by rw [heq]; rfl, .unicode (by assumption) hbody⟩
    case case7 ih =>
      obtain ⟨r, hr, hseg⟩ := h
      obtain ⟨rfl, rfl⟩ := Prod.mk.inj hseg
      obtain ⟨heq, hbody⟩ := ih hr
      exact ⟨by rw [heq]; rfl, .escape (by assumption) hbody⟩
    case case10 c rest' hquote hbackslash hcontrol ih =>
      obtain ⟨r, hr, hseg⟩ := h
      obtain ⟨rfl, rfl⟩ := Prod.mk.inj hseg
      obtain ⟨heq, hbody⟩ := ih hr
      exact ⟨by rw [heq]; rfl, .char hquote hbackslash (by omega) hbody⟩
  · intro h
    obtain ⟨rfl, hbody⟩ := h
    exact scanString_body hbody rest

theorem Plain.body {s : Bytes} (h : Plain s) : Body s := by
  induction s with
  | nil => exact .nil
  | cons c s ih =>
    obtain ⟨⟨hquote, hbackslash, hcontrol⟩, hs⟩ := List.forall_mem_cons.mp h
    exact .char hquote hbackslash hcontrol (ih hs)

theorem Body.tail {c : UInt8} {s : Bytes} (h : Body (c :: s)) (hc : c ≠ backslash) : Body s := by
  cases h with
  | char _ _ _ hs => exact hs
  | escape _ _ => exact absurd rfl hc
  | unicode _ _ => exact absurd rfl hc

/-- Bytes that cannot start an escape are dropped one by one. -/
theorem Body.drop {s : Bytes} (h : Body s) {n : Nat} (hn : ∀ c ∈ s.take n, 0x80 ≤ c.toNat) :
    Body (s.drop n) := by
  induction n generalizing s with
  | zero => exact h
  | succ n ih =>
    cases s with
    | nil => exact h
    | cons c s =>
      rw [List.take_succ_cons] at hn
      obtain ⟨hc, hs⟩ := List.forall_mem_cons.mp hn
      have hne : c ≠ backslash := by
        rintro rfl
        exact absurd hc (by decide)
      exact ih (h.tail hne) hs

/-- After the backslash and the letter of a `\u` escape come four digits. -/
theorem Body.after_u {s : Bytes} (h : Body (backslash :: 117 :: s)) :
    ∃ h1 h2 h3 h4 rest, s = h1 :: h2 :: h3 :: h4 :: rest ∧
      [h1, h2, h3, h4].all (fun h => (hexDigit h).isSome) = true ∧ Body rest := by
  cases h with
  | char _ hbackslash _ _ => exact absurd rfl hbackslash
  | escape he _ =>
    rw [simpleEscape_u] at he
    cases he
  | unicode hhex hs => exact ⟨_, _, _, _, _, rfl, hhex, hs⟩

theorem hexDigit_graphic {c : UInt8} (h : (hexDigit c).isSome = true) :
    32 ≤ c.toNat ∧ c.toNat < 0x80 ∧ c ≠ quote ∧ c ≠ backslash := by
  have hrange : 48 ≤ c.toNat ∧ c.toNat ≤ 102 ∧ c.toNat ≠ 92 := by
    unfold hexDigit isDigit at h
    split_ifs at h with hdigit hlower hupper
    · have hc := inRange_iff.mp hdigit
      omega
    · have hc := inRange_iff.mp hlower
      omega
    · have hc := inRange_iff.mp hupper
      omega
    · cases h
  refine ⟨by omega, by omega, ?_, ?_⟩
  · rintro rfl
    exact absurd hrange.1 (by decide)
  · rintro rfl
    exact hrange.2.2 rfl

theorem simpleEscape_ascii {e x : UInt8} (h : simpleEscape e = some x) :
    32 ≤ e.toNat ∧ e.toNat < 0x80 ∧ x.toNat < 0x80 := by
  unfold simpleEscape at h
  split_ifs at h with hself hb hf hn hr ht
  · obtain rfl := Option.some.inj h
    rcases hself with rfl | rfl | rfl <;> decide
  all_goals
    subst_vars
    obtain rfl := Option.some.inj h
    decide

/-- A body has no control characters. -/
theorem Body.noControl {s : Bytes} (h : Body s) : ∀ c ∈ s, 32 ≤ c.toNat := by
  induction h with
  | nil => exact fun c hc => absurd hc List.not_mem_nil
  | char _ _ hcontrol _ ih => exact List.forall_mem_cons.mpr ⟨hcontrol, ih⟩
  | escape he _ ih =>
    obtain ⟨x, hx⟩ := Option.isSome_iff_exists.mp he
    exact List.forall_mem_cons.mpr ⟨by decide,
      List.forall_mem_cons.mpr ⟨(simpleEscape_ascii hx).1, ih⟩⟩
  | unicode hhex _ ih =>
    have hdigits := List.all_eq_true.mp hhex
    simp only [List.forall_mem_cons] at hdigits ⊢
    obtain ⟨d1, d2, d3, d4, -⟩ := hdigits
    exact ⟨by decide, by decide, (hexDigit_graphic d1).1, (hexDigit_graphic d2).1,
      (hexDigit_graphic d3).1, (hexDigit_graphic d4).1, ih⟩

/-! ## Runes of escapes -/

private theorem hexDigit_lt {c : UInt8} {v : Nat} (h : hexDigit c = some v) : v < 16 := by
  unfold hexDigit isDigit at h
  split_ifs at h with hdigit hlower hupper
  · have hc := inRange_iff.mp hdigit
    obtain rfl := Option.some.inj h
    omega
  · have hc := inRange_iff.mp hlower
    obtain rfl := Option.some.inj h
    omega
  · have hc := inRange_iff.mp hupper
    obtain rfl := Option.some.inj h
    omega

private theorem hex4_lt (s : Bytes) : hex4 s < 0x10000 := by
  have hdigit : ∀ c, (hexDigit c).getD 0 < 16 := by
    intro c
    cases h : hexDigit c with
    | none => decide
    | some v => exact hexDigit_lt h
  have hfold : ∀ (l : Bytes) (acc k : Nat), acc < 16 ^ k →
      l.foldl (fun acc h => acc * 16 + (hexDigit h).getD 0) acc < 16 ^ (k + l.length) := by
    intro l
    induction l with
    | nil => exact fun acc k h => h
    | cons c rest ih =>
      intro acc k hacc
      have hc := hdigit c
      have hnext := ih (acc * 16 + (hexDigit c).getD 0) (k + 1) (by rw [pow_succ]; omega)
      rw [List.foldl_cons, List.length_cons, show k + (rest.length + 1) = k + 1 + rest.length by omega]
      exact hnext
  have hall := hfold (s.take 4) 0 0 (by decide)
  have hlen : (s.take 4).length ≤ 4 := List.length_take_le 4 s
  calc hex4 s < 16 ^ (0 + (s.take 4).length) := hall
    _ ≤ 16 ^ 4 := Nat.pow_le_pow_right (by decide) (by omega)

theorem scalar_replacementChar : Scalar replacementChar := by
  unfold Scalar
  decide

theorem escapedRune_scalar (s : Bytes) : Scalar (escapedRune s).1 := by
  have hr := hex4_lt s
  unfold escapedRune Scalar
  dsimp only
  split_ifs with hsurrogate hpair
  · dsimp only
    omega
  · exact scalar_replacementChar
  · dsimp only
    omega

/-- An escape ends after its digits, or after the escape that follows. -/
theorem escapedRune_rest (s : Bytes) :
    (escapedRune s).2 = s.drop 4 ∨
      ((s.drop 4).take 2 = [backslash, 117] ∧ (escapedRune s).2 = (s.drop 4).drop 6) := by
  unfold escapedRune
  dsimp only
  split_ifs with hsurrogate hpair
  · exact Or.inr ⟨hpair.2.1, rfl⟩
  · exact Or.inl rfl
  · exact Or.inl rfl

theorem wellFormed_ascii_cons {c : UInt8} (h : c.toNat < 0x80) {s : Bytes} :
    WellFormed (c :: s) ↔ WellFormed s := by
  have hhead := wellFormed_encodeRune_append (scalar_ascii h) s
  rw [encodeRune_ascii h] at hhead
  exact hhead

/-- Whatever is read is well-formed. -/
theorem wellFormed_unquote (fuel : Nat) (s : Bytes) : WellFormed (unquote fuel s) := by
  induction fuel generalizing s with
  | zero => exact wellFormed_nil
  | succ fuel ih =>
    cases s with
    | nil => exact wellFormed_nil
    | cons c rest =>
      by_cases hslash : c = backslash
      · subst hslash
        cases rest with
        | nil => exact wellFormed_nil
        | cons e rest =>
          by_cases hu : e = 117
          · rw [hu, unquote_unicode]
            exact (wellFormed_encodeRune_append (escapedRune_scalar rest) _).mpr (ih _)
          · rw [unquote_escape hu]
            cases hx : simpleEscape e with
            | none => exact ih rest
            | some x => exact (wellFormed_ascii_cons (simpleEscape_ascii hx).2.2).mpr (ih rest)
      by_cases hascii : c.toNat < 0x80
      · rw [unquote_ascii hslash hascii]
        exact (wellFormed_ascii_cons hascii).mpr (ih rest)
      by_cases hlen : runeLength (c :: rest) = 0
      · rw [unquote_invalid hslash hascii fuel hlen]
        exact (wellFormed_encodeRune_append scalar_replacementChar _).mpr (ih rest)
      · obtain ⟨r, hscalar, -, htake, -⟩ := take_rune hlen
        rw [unquote_rune hslash hascii fuel hlen, htake]
        exact (wellFormed_encodeRune_append hscalar _).mpr (ih _)

/-! ## What reading does to the weight of a text -/

/-- The number of ASCII bytes. -/
def asciiCount (s : Bytes) : Nat := s.countP (fun c => c.toNat < 0x80)

/-- The number of quotes and backslashes. -/
def markCount (s : Bytes) : Nat := s.countP (fun c => c = quote ∨ c = backslash)

theorem asciiCount_append (s t : Bytes) : asciiCount (s ++ t) = asciiCount s + asciiCount t :=
  List.countP_append

theorem markCount_append (s t : Bytes) : markCount (s ++ t) = markCount s + markCount t :=
  List.countP_append

theorem asciiCount_cons {c : UInt8} (h : c.toNat < 0x80) (s : Bytes) :
    asciiCount (c :: s) = asciiCount s + 1 := by
  simp [asciiCount, h]

theorem markCount_cons_le (c : UInt8) (s : Bytes) : markCount (c :: s) ≤ markCount s + 1 := by
  rw [markCount, List.countP_cons, markCount]
  split <;> omega

theorem markCount_cons {c : UInt8} (hquote : c ≠ quote) (hbackslash : c ≠ backslash) (s : Bytes) :
    markCount (c :: s) = markCount s := by
  simp [markCount, hquote, hbackslash]

private theorem markCount_eq (s : Bytes) : markCount s = s.count quote + s.count backslash := by
  induction s with
  | nil => rfl
  | cons c s ih =>
    rw [markCount, List.countP_cons, List.count_cons, List.count_cons, ← markCount, ih]
    by_cases hquote : c = quote
    · subst hquote
      have hne : (quote == backslash) = false := by decide
      simp only [true_or, decide_true, if_true, beq_self_eq_true, hne, Bool.false_eq_true, if_false]
      omega
    · by_cases hbackslash : c = backslash
      · simp [hbackslash, show (backslash == quote) = false by decide]
        omega
      · simp [hquote, hbackslash]

theorem markCount_le (s : Bytes) : markCount s ≤ asciiCount s := by
  apply List.countP_mono_left
  intro c _ hmark
  simp only [decide_eq_true_eq] at hmark ⊢
  rcases hmark with rfl | rfl <;> decide

theorem count_nonAscii {s : Bytes} (h : ∀ c ∈ s, 0x80 ≤ c.toNat) :
    asciiCount s = 0 ∧ markCount s = 0 := by
  have hascii : asciiCount s = 0 := by
    rw [asciiCount, List.countP_eq_zero]
    intro c hc
    have hlarge := h c hc
    simp only [decide_eq_true_eq]
    omega
  have hle := markCount_le s
  exact ⟨hascii, by omega⟩

private theorem asciiCount_encodeRune_le {r : Nat} (h : Scalar r) :
    asciiCount (encodeRune r) ≤ 1 := by
  by_cases hr : r < 0x80
  · rw [encodeRune, if_pos hr]
    exact List.countP_le_length
  · rw [(count_nonAscii (encodeRune_nonAscii h (by omega))).1]
    omega

private theorem digits_count {h1 h2 h3 h4 : UInt8}
    (hhex : [h1, h2, h3, h4].all (fun h => (hexDigit h).isSome) = true) (s : Bytes) :
    asciiCount (h1 :: h2 :: h3 :: h4 :: s) = asciiCount s + 4 ∧
      markCount (h1 :: h2 :: h3 :: h4 :: s) = markCount s := by
  have hdigits := List.all_eq_true.mp hhex
  simp only [List.forall_mem_cons] at hdigits
  obtain ⟨d1, d2, d3, d4, -⟩ := hdigits
  obtain ⟨-, a1, q1, b1⟩ := hexDigit_graphic d1
  obtain ⟨-, a2, q2, b2⟩ := hexDigit_graphic d2
  obtain ⟨-, a3, q3, b3⟩ := hexDigit_graphic d3
  obtain ⟨-, a4, q4, b4⟩ := hexDigit_graphic d4
  rw [asciiCount_cons a1, asciiCount_cons a2, asciiCount_cons a3, asciiCount_cons a4,
    markCount_cons q1 b1, markCount_cons q2 b2, markCount_cons q3 b3, markCount_cons q4 b4]
  exact ⟨rfl, rfl⟩

/-- A `\u` escape with its digits weighs six bytes and has one mark. -/
theorem unicode_count {h1 h2 h3 h4 : UInt8}
    (hhex : [h1, h2, h3, h4].all (fun h => (hexDigit h).isSome) = true) (s : Bytes) :
    asciiCount (backslash :: 117 :: h1 :: h2 :: h3 :: h4 :: s) = asciiCount s + 6 ∧
      markCount (backslash :: 117 :: h1 :: h2 :: h3 :: h4 :: s) ≤ markCount s + 1 := by
  obtain ⟨hcount, hmarks⟩ := digits_count hhex s
  refine ⟨by rw [asciiCount_cons (by decide), asciiCount_cons (by decide), hcount], ?_⟩
  have hmark := markCount_cons_le backslash (117 :: h1 :: h2 :: h3 :: h4 :: s)
  rw [markCount_cons (show (117 : UInt8) ≠ quote by decide) (by decide), hmarks] at hmark
  exact hmark

theorem simpleEscape_ne_u {e : UInt8} (h : (simpleEscape e).isSome) : e ≠ 117 := by
  rintro rfl
  rw [simpleEscape_u] at h
  cases h

/-! Reading loses half an ASCII byte or more for every quote and every backslash: one lemma for
each way to begin, from what is lost afterwards. -/

/-- What reading with `fuel` loses. -/
def Loses (fuel : Nat) : Prop :=
  ∀ s, Body s → 2 * asciiCount (unquote fuel s) + markCount s ≤ 2 * asciiCount s

theorem Loses.char {fuel : Nat} (ih : Loses fuel) {c : UInt8} {s : Bytes} (hquote : c ≠ quote)
    (hbackslash : c ≠ backslash) (hcontrol : 32 ≤ c.toNat) (hs : Body s) :
    2 * asciiCount (unquote (fuel + 1) (c :: s)) + markCount (c :: s) ≤
      2 * asciiCount (c :: s) := by
  have hih := ih s hs
  by_cases hascii : c.toNat < 0x80
  · rw [unquote_ascii hbackslash hascii, asciiCount_cons hascii, asciiCount_cons hascii,
      markCount_cons hquote hbackslash]
    omega
  by_cases hlen : runeLength (c :: s) = 0
  · have hskip : asciiCount (c :: s) = asciiCount s := by simp [asciiCount, hascii]
    have hreplaced : asciiCount (encodeRune replacementChar) = 0 := by decide
    rw [unquote_invalid hbackslash hascii fuel hlen, asciiCount_append, hreplaced, hskip,
      markCount_cons hquote hbackslash]
    omega
  · obtain ⟨r, hscalar, hr, htake, -⟩ := take_rune hlen
    rw [unquote_rune hbackslash hascii fuel hlen, asciiCount_append]
    generalize runeLength (c :: s) = n at htake ⊢
    have hlarge : ∀ x ∈ (c :: s).take n, 0x80 ≤ x.toNat := by
      rw [htake]
      exact encodeRune_nonAscii hscalar hr
    have hrest := ih _ ((Body.char hquote hbackslash hcontrol hs).drop hlarge)
    have hascii' := asciiCount_append ((c :: s).take n) ((c :: s).drop n)
    have hmark' := markCount_append ((c :: s).take n) ((c :: s).drop n)
    rw [List.take_append_drop] at hascii' hmark'
    obtain ⟨ha, hm⟩ := count_nonAscii hlarge
    omega

theorem Loses.escape {fuel : Nat} (ih : Loses fuel) {e : UInt8} {s : Bytes}
    (he : (simpleEscape e).isSome) (hs : Body s) :
    2 * asciiCount (unquote (fuel + 1) (backslash :: e :: s)) + markCount (backslash :: e :: s) ≤
      2 * asciiCount (backslash :: e :: s) := by
  have hih := ih s hs
  obtain ⟨x, hx⟩ := Option.isSome_iff_exists.mp he
  obtain ⟨-, hascii, hascii'⟩ := simpleEscape_ascii hx
  have hmark := markCount_cons_le backslash (e :: s)
  have hmark' := markCount_cons_le e s
  rw [unquote_escape (simpleEscape_ne_u he), hx, Option.toList_some, List.singleton_append,
    asciiCount_cons hascii', asciiCount_cons (show backslash.toNat < 0x80 by decide),
    asciiCount_cons hascii]
  omega

theorem Loses.unicode {fuel : Nat} (ih : Loses fuel) {h1 h2 h3 h4 : UInt8} {s : Bytes}
    (hhex : [h1, h2, h3, h4].all (fun h => (hexDigit h).isSome) = true) (hs : Body s) :
    2 * asciiCount (unquote (fuel + 1) (backslash :: 117 :: h1 :: h2 :: h3 :: h4 :: s)) +
        markCount (backslash :: 117 :: h1 :: h2 :: h3 :: h4 :: s) ≤
      2 * asciiCount (backslash :: 117 :: h1 :: h2 :: h3 :: h4 :: s) := by
  obtain ⟨hcount, hmark⟩ := unicode_count hhex s
  have hrune := asciiCount_encodeRune_le (escapedRune_scalar (h1 :: h2 :: h3 :: h4 :: s))
  rw [unquote_unicode, asciiCount_append]
  rcases escapedRune_rest (h1 :: h2 :: h3 :: h4 :: s) with hrest | ⟨hpair, hrest⟩
  · have hih := ih s hs
    rw [hrest]
    simp only [List.drop_succ_cons, List.drop_zero]
    omega
  · -- a surrogate pair: the rest is what follows the second escape
    simp only [List.drop_succ_cons, List.drop_zero] at hpair hrest
    obtain ⟨after, rfl⟩ : ∃ after, s = backslash :: 117 :: after :=
      ⟨s.drop 2, by rw [← List.take_append_drop 2 s, hpair]; rfl⟩
    obtain ⟨g1, g2, g3, g4, rest, rfl, hhex', hrest'⟩ := hs.after_u
    obtain ⟨hcount', hmark'⟩ := unicode_count hhex' rest
    have hih := ih rest hrest'
    rw [hrest]
    simp only [List.drop_succ_cons, List.drop_zero]
    omega

theorem unquote_weight (fuel : Nat) : Loses fuel := by
  induction fuel with
  | zero =>
    intro s _
    have hle := markCount_le s
    have hnil : asciiCount (unquote 0 s) = 0 := rfl
    omega
  | succ fuel ih =>
    intro s h
    cases h with
    | nil => exact Nat.le_refl 0
    | char hquote hbackslash hcontrol hs => exact ih.char hquote hbackslash hcontrol hs
    | escape he hs => exact ih.escape he hs
    | unicode hhex hs => exact ih.unicode hhex hs

/-- Nothing is read of nothing only. -/
theorem unquote_ne_nil {s : Bytes} (h : Body s) (hne : s ≠ []) : unquote s.length s ≠ [] := by
  cases h with
  | nil => exact absurd rfl hne
  | @char c s _ hbackslash _ _ =>
    rw [List.length_cons]
    by_cases hascii : c.toNat < 0x80
    · rw [unquote_ascii hbackslash hascii]
      exact List.cons_ne_nil _ _
    by_cases hlen : runeLength (c :: s) = 0
    · rw [unquote_invalid hbackslash hascii _ hlen]
      exact List.append_ne_nil_of_left_ne_nil (encodeRune_ne_nil _) _
    · obtain ⟨r, -, -, htake, -⟩ := take_rune hlen
      rw [unquote_rune hbackslash hascii _ hlen, htake]
      exact List.append_ne_nil_of_left_ne_nil (encodeRune_ne_nil _) _
  | @escape e s he _ =>
    obtain ⟨x, hx⟩ := Option.isSome_iff_exists.mp he
    rw [List.length_cons, unquote_escape (simpleEscape_ne_u he), hx]
    exact List.cons_ne_nil _ _
  | unicode _ _ =>
    rw [List.length_cons, unquote_unicode]
    exact List.append_ne_nil_of_left_ne_nil (encodeRune_ne_nil _) _

/-! ## When reading leaves a text as it is -/

/-- `strings.ReplaceAll` of the quote by a backslash and a quote. -/
def escapeQuotes (s : Bytes) : Bytes :=
  s.flatMap (fun c => if c = quote then [backslash, quote] else [c])

/-- Free of backslashes and control characters, and well-formed. -/
def Legible (s : Bytes) : Prop := (∀ c ∈ s, c ≠ backslash ∧ 32 ≤ c.toNat) ∧ WellFormed s

instance (s : Bytes) : Decidable (Legible s) := inferInstanceAs (Decidable (_ ∧ _))

private theorem escapeQuotes_append (s t : Bytes) :
    escapeQuotes (s ++ t) = escapeQuotes s ++ escapeQuotes t :=
  List.flatMap_append

theorem escapeQuotes_of_notMem {s : Bytes} (h : quote ∉ s) : escapeQuotes s = s := by
  induction s with
  | nil => rfl
  | cons c s ih =>
    have hc : c ≠ quote := fun heq => h (heq ▸ List.mem_cons_self)
    have hs := ih (fun hmem => h (List.mem_cons_of_mem c hmem))
    rw [escapeQuotes, List.flatMap_cons, if_neg hc]
    exact congrArg (c :: ·) hs

private theorem escapeQuotes_count (s : Bytes) :
    asciiCount (escapeQuotes s) = asciiCount s + s.count quote ∧
      markCount (escapeQuotes s) = markCount s + s.count quote := by
  induction s with
  | nil => exact ⟨rfl, rfl⟩
  | cons c s ih =>
    have hcons : escapeQuotes (c :: s) =
        (if c = quote then [backslash, quote] else [c]) ++ escapeQuotes s := rfl
    have hsplit : c :: s = [c] ++ s := rfl
    rw [hcons, hsplit, asciiCount_append, asciiCount_append, markCount_append, markCount_append,
      List.count_append, ih.1, ih.2]
    by_cases hc : c = quote
    · subst hc
      rw [if_pos rfl]
      have htwo : asciiCount [backslash, quote] = 2 ∧ markCount [backslash, quote] = 2 ∧
        asciiCount [quote] = 1 ∧ markCount [quote] = 1 ∧ [quote].count quote = 1 := by decide
      omega
    · have hnone : [c].count quote = 0 := List.count_eq_zero.mpr (by simpa using Ne.symm hc)
      rw [if_neg hc, hnone]
      omega

private theorem body_escapeQuotes {s : Bytes} (h : ∀ c ∈ s, c ≠ backslash ∧ 32 ≤ c.toNat) :
    Body (escapeQuotes s) := by
  induction s with
  | nil => exact .nil
  | cons c s ih =>
    obtain ⟨⟨hbackslash, hcontrol⟩, hs⟩ := List.forall_mem_cons.mp h
    have hcons : escapeQuotes (c :: s) =
        (if c = quote then [backslash, quote] else [c]) ++ escapeQuotes s := rfl
    rw [hcons]
    split
    · exact .escape (by decide) (ih hs)
    next hquote => exact .char hquote hbackslash hcontrol (ih hs)

/-- A legible text is read back from its escaped form, rune by rune. -/
theorem unquote_escapeQuotes {runes : List Nat} (hscalar : ∀ r ∈ runes, Scalar r)
    (hplain : backslash ∉ encodeRunes runes) {fuel : Nat}
    (hfuel : (escapeQuotes (encodeRunes runes)).length ≤ fuel) :
    unquote fuel (escapeQuotes (encodeRunes runes)) = encodeRunes runes := by
  induction runes generalizing fuel with
  | nil => cases fuel <;> rfl
  | cons r rs ih =>
    obtain ⟨hr, hrs⟩ := List.forall_mem_cons.mp hscalar
    have hcons : encodeRunes (r :: rs) = encodeRune r ++ encodeRunes rs := rfl
    rw [hcons] at hplain hfuel ⊢
    rw [List.mem_append, not_or] at hplain
    rw [escapeQuotes_append] at hfuel ⊢
    rw [List.length_append] at hfuel
    by_cases hone : r < 0x80
    · have hbyte : encodeRune r = [octet r] := by rw [encodeRune, if_pos hone]
      have hascii : (octet r).toNat < 0x80 := by
        rw [toNat_octet (by omega)]
        exact hone
      rw [hbyte] at hplain hfuel ⊢
      by_cases hquote : octet r = quote
      · have hesc : escapeQuotes [octet r] = [backslash, quote] := by rw [hquote]; rfl
        rw [hesc] at hfuel ⊢
        simp only [List.length_cons, List.length_nil] at hfuel
        obtain ⟨fuel, rfl⟩ : ∃ f, fuel = f + 1 := ⟨fuel - 1, by omega⟩
        rw [List.cons_append, List.singleton_append, unquote_escape (by decide),
          ih hrs hplain.2 (by omega), hquote]
        rfl
      · have hesc : escapeQuotes [octet r] = [octet r] := by
          rw [escapeQuotes, List.flatMap_cons, if_neg hquote]
          rfl
        have hslash : octet r ≠ backslash := fun heq => hplain.1 (List.mem_singleton.mpr heq.symm)
        rw [hesc] at hfuel ⊢
        simp only [List.length_cons, List.length_nil] at hfuel
        obtain ⟨fuel, rfl⟩ : ∃ f, fuel = f + 1 := ⟨fuel - 1, by omega⟩
        rw [List.singleton_append, unquote_ascii hslash hascii, ih hrs hplain.2 (by omega)]
        rfl
    · have hlarge := encodeRune_nonAscii hr (by omega)
      have hesc : escapeQuotes (encodeRune r) = encodeRune r :=
        escapeQuotes_of_notMem (fun hmem => absurd (hlarge _ hmem) (by decide))
      have hnext := nextRune_encodeRune hr (escapeQuotes (encodeRunes rs))
      rw [hesc] at hfuel ⊢
      obtain ⟨a, more, henc⟩ := List.exists_cons_of_ne_nil (encodeRune_ne_nil r)
      have ha := hlarge a (by rw [henc]; exact List.mem_cons_self)
      rw [henc, List.cons_append] at hnext ⊢
      rw [henc, List.length_cons] at hfuel
      obtain ⟨fuel, rfl⟩ : ∃ f, fuel = f + 1 := ⟨fuel - 1, by omega⟩
      have hlen : runeLength (a :: (more ++ escapeQuotes (encodeRunes rs))) ≠ 0 := by
        intro hzero
        rw [nextRune, if_neg (by omega), hzero] at hnext
        cases hnext
      obtain ⟨r', -, -, htake, hnext'⟩ := take_rune hlen
      rw [hnext] at hnext'
      obtain ⟨rfl, hdrop⟩ := Prod.mk.inj (Option.some.inj hnext')
      have hslash : a ≠ backslash := by
        rintro rfl
        exact absurd ha (by decide)
      rw [unquote_rune hslash (by omega) fuel hlen, htake, ← hdrop, ih hrs hplain.2 (by omega),
        henc]

/-- A text whose quotes alone are escaped is read back exactly if it is legible. -/
theorem read_escapeQuotes_iff {s : Bytes} :
    (Body (escapeQuotes s) ∧ unquote (escapeQuotes s).length (escapeQuotes s) = s) ↔
      Legible s := by
  constructor
  · intro h
    obtain ⟨hbody, hread⟩ := h
    have hweight := unquote_weight (escapeQuotes s).length _ hbody
    obtain ⟨hascii, hmark⟩ := escapeQuotes_count s
    have hmarks := markCount_eq s
    have hnone : s.count backslash = 0 := by
      rw [hread] at hweight
      omega
    refine ⟨?_, ?_⟩
    · intro c hc
      refine ⟨?_, ?_⟩
      · rintro rfl
        exact List.count_eq_zero.mp hnone hc
      · apply hbody.noControl c
        refine List.mem_flatMap.mpr ⟨c, hc, ?_⟩
        split
        next hquote =>
          rw [hquote]
          decide
        next => exact List.mem_singleton.mpr rfl
    · rw [← hread]
      exact wellFormed_unquote _ _
  · intro h
    obtain ⟨hchars, runes, hscalar, rfl⟩ := h
    refine ⟨body_escapeQuotes hchars, unquote_escapeQuotes hscalar ?_ (Nat.le_refl _)⟩
    intro hmem
    exact (hchars _ hmem).1 rfl

theorem read_eq_self_iff {s : Bytes} (h : Body (escapeQuotes s)) :
    unquote (escapeQuotes s).length (escapeQuotes s) = s ↔ Legible s := by
  rw [← read_escapeQuotes_iff]
  exact (and_iff_right h).symm

theorem read_eq_nil_iff {s : Bytes} (h : Body (escapeQuotes s)) :
    unquote (escapeQuotes s).length (escapeQuotes s) = [] ↔ s = [] := by
  constructor
  · intro hnil
    by_contra hne
    obtain ⟨c, hc⟩ := List.exists_mem_of_ne_nil s hne
    refine unquote_ne_nil h (fun hesc => ?_) hnil
    have hempty := List.flatMap_eq_nil_iff.mp hesc c hc
    split at hempty
    next => cases hempty
    next => cases hempty
  · rintro rfl
    rfl

/-- A text that is not escaped at all is read back exactly if it is legible and has no quote. -/
theorem read_self_iff {s : Bytes} :
    (Body s ∧ unquote s.length s = s) ↔ Plain s ∧ WellFormed s := by
  constructor
  · intro h
    obtain ⟨hbody, hread⟩ := h
    have hweight := unquote_weight s.length _ hbody
    rw [hread] at hweight
    have hnone : markCount s = 0 := by omega
    rw [markCount, List.countP_eq_zero] at hnone
    refine ⟨?_, by rw [← hread]; exact wellFormed_unquote _ _⟩
    intro c hc
    have hmark := hnone c hc
    simp only [decide_eq_true_eq, not_or] at hmark
    exact ⟨hmark.1, hmark.2, hbody.noControl c hc⟩
  · intro h
    obtain ⟨hplain, hwell⟩ := h
    have hlegible : Legible s := ⟨fun c hc => (hplain c hc).2, hwell⟩
    have hescaped : escapeQuotes s = s :=
      escapeQuotes_of_notMem (fun hmem => (hplain _ hmem).1 rfl)
    have hread := read_escapeQuotes_iff.mpr hlegible
    rw [hescaped] at hread
    exact hread

end VRGram.Lib.Json
