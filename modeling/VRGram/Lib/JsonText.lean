import VRGram.Lib.Base64Std
import VRGram.Lib.Json

/-!
# Rendered JSON texts

A program that renders an object with a format string, and not with an encoder, writes its
members in order and leaves every string as it is. Such a text is read back member by
member as long as no string has a quote, a backslash or a control character in it.
-/
namespace VRGram.Lib.Json

open VRGram.Lib.Strings

set_option autoImplicit false

/-! ## Decimal numbers -/

/-- The digit of a number below ten. -/
def digitOf (d : Nat) : UInt8 := octet (48 + d)

theorem digitOf_toNat {d : Nat} (h : d < 10) : (digitOf d).toNat = 48 + d := by
  simp only [digitOf, octet, UInt8.toNat_ofNat']
  omega

theorem isDigit_digitOf {d : Nat} (h : d < 10) : isDigit (digitOf d) = true := by
  simp only [isDigit, inRange, digitOf_toNat h, Bool.and_eq_true, decide_eq_true_eq]
  omega

private theorem digitOf_ne_zero {d : Nat} (h : d < 10) (hd : 0 < d) : digitOf d ≠ 48 := by
  intro hzero
  have hval := digitOf_toNat h
  rw [hzero] at hval
  have : (48 : UInt8).toNat = 48 := rfl
  omega

theorem octet_digitChar : ∀ d < 10, octet (Nat.digitChar d).toNat = digitOf d := by decide

/-- Decimal texts by recursion: one digit, or the digits of the tenth and one more. -/
theorem decimal_cases (n : Nat) :
    (n < 10 ∧ decimal n = [digitOf n]) ∨
      (0 < n / 10 ∧ n / 10 < n ∧ decimal n = decimal (n / 10) ++ [digitOf (n % 10)]) := by
  by_cases h : n < 10
  · refine Or.inl ⟨h, ?_⟩
    rw [decimal, Nat.toDigits_of_lt_base h, List.map_singleton, octet_digitChar n h]
  · refine Or.inr ⟨by omega, by omega, ?_⟩
    have hmod : n % 10 < 10 := Nat.mod_lt n (by omega)
    rw [decimal, Nat.toDigits_of_base_le (by omega) (by omega), List.map_append, List.map_singleton,
      octet_digitChar _ hmod]
    rfl

theorem isDigit_decimal (n : Nat) : ∀ c ∈ decimal n, isDigit c = true := by
  induction n using Nat.strongRecOn with
  | ind n ih =>
    intro c hc
    rcases decimal_cases n with ⟨hn, heq⟩ | ⟨-, hlt, heq⟩
    · rw [heq, List.mem_singleton] at hc
      exact hc ▸ isDigit_digitOf hn
    · rw [heq, List.mem_append, List.mem_singleton] at hc
      rcases hc with hc | rfl
      · exact ih (n / 10) hlt c hc
      · exact isDigit_digitOf (Nat.mod_lt n (by omega))

/-- Only zero starts with the digit zero. -/
theorem decimal_head (n : Nat) : ∃ c rest, decimal n = c :: rest ∧ (c = 48 → n = 0) := by
  induction n using Nat.strongRecOn with
  | ind n ih =>
    rcases decimal_cases n with ⟨hn, heq⟩ | ⟨hpos, hlt, heq⟩
    · refine ⟨digitOf n, [], heq, fun hc => ?_⟩
      by_contra hne
      exact digitOf_ne_zero hn (by omega) hc
    · obtain ⟨c, rest, hcons, hc⟩ := ih (n / 10) hlt
      refine ⟨c, rest ++ [digitOf (n % 10)], by rw [heq, hcons]; rfl, fun h => ?_⟩
      have hzero := hc h
      omega

theorem digitsValue_append (s rest : Bytes) :
    digitsValue (s ++ rest) =
      rest.foldl (fun acc c => acc * 10 + (c.toNat - 48)) (digitsValue s) :=
  List.foldl_append

theorem digitsValue_decimal (n : Nat) : digitsValue (decimal n) = n := by
  induction n using Nat.strongRecOn with
  | ind n ih =>
    rcases decimal_cases n with ⟨hn, heq⟩ | ⟨-, hlt, heq⟩
    · rw [heq, digitsValue, List.foldl_cons, List.foldl_nil, digitOf_toNat hn]
      omega
    · rw [heq, digitsValue_append, ih (n / 10) hlt, List.foldl_cons, List.foldl_nil,
        digitOf_toNat (Nat.mod_lt n (by omega : 10 > 0))]
      omega

private theorem le_foldl_digits (s : Bytes) (acc : Nat) :
    acc ≤ s.foldl (fun acc c => acc * 10 + (c.toNat - 48)) acc := by
  induction s generalizing acc with
  | nil => exact Nat.le_refl acc
  | cons c s ih =>
    have hrest := ih (acc * 10 + (c.toNat - 48))
    rw [List.foldl_cons]
    omega

/-- More digits make at least the tenfold. -/
theorem digitsValue_longer (s : Bytes) (c : UInt8) (rest : Bytes) :
    digitsValue s * 10 ≤ digitsValue (s ++ c :: rest) := by
  have hrest := le_foldl_digits rest (digitsValue s * 10 + (c.toNat - 48))
  rw [digitsValue_append, List.foldl_cons]
  omega

theorem parseDigits_decimal (n : Nat) : parseDigits (decimal n) = some n := by
  have hdigits : (decimal n).all isDigit = true := List.all_eq_true.mpr (isDigit_decimal n)
  have hne : decimal n ≠ [] := by
    obtain ⟨c, rest, hcons, -⟩ := decimal_head n
    rw [hcons]
    exact List.cons_ne_nil c rest
  rw [parseDigits, if_pos ⟨hne, hdigits⟩, digitsValue_decimal]

/-- A 64-bit number is read back from its digits. -/
theorem parseUint_decimal (x : UInt64) : parseUint (decimal x.toNat) = some x := by
  rw [parseUint, parseDigits_decimal, Option.bind_some, if_pos x.toNat_lt, UInt64.ofNat_toNat]

/-- The bytes that end a number inside an object. -/
def Closes (b : UInt8) : Prop := b = 44 ∨ b = 125

private theorem integerPart_decimal (n : Nat) {b : UInt8} (hb : Closes b) (rest : Bytes) :
    integerPart (decimal n ++ b :: rest) = some (decimal n, b :: rest) := by
  obtain ⟨c, tail, hcons, hzero⟩ := decimal_head n
  have hstop : isDigit b = false := by
    rcases hb with rfl | rfl <;> rfl
  have hspan : (decimal n ++ b :: rest).span isDigit = (decimal n, b :: rest) := by
    rw [List.span_eq_takeWhile_dropWhile,
      List.takeWhile_append_of_pos (isDigit_decimal n), List.dropWhile_append_of_pos (isDigit_decimal n)]
    simp [hstop]
  by_cases hc : c = 48
  · obtain rfl := hzero hc
    rfl
  · have hdigits : integerPart (decimal n ++ b :: rest) = digits (decimal n ++ b :: rest) := by
      rw [hcons, List.cons_append, integerPart]
      intro tail' h
      exact hc (List.cons.inj h).1
    rw [hdigits, digits, hspan, hcons]

private theorem numberLiteral_decimal (n : Nat) {b : UInt8} (hb : Closes b) (rest : Bytes) :
    numberLiteral (decimal n ++ b :: rest) = some (decimal n, b :: rest) := by
  have hfraction : fractionPart (b :: rest) = some ([], b :: rest) := by
    rcases hb with rfl | rfl <;> rfl
  have hexponent : exponentPart (b :: rest) = some ([], b :: rest) := by
    rcases hb with rfl | rfl <;> rfl
  have hunsigned : unsignedNumber (decimal n ++ b :: rest) = some (decimal n, b :: rest) := by
    simp [unsignedNumber, integerPart_decimal n hb, hfraction, hexponent]
  obtain ⟨c, tail, hcons, -⟩ := decimal_head n
  have hc : isDigit c = true := isDigit_decimal n c (by rw [hcons]; exact List.mem_cons_self)
  rw [hcons, List.cons_append] at hunsigned ⊢
  rw [numberLiteral, hunsigned]
  intro tail' h
  rw [(List.cons.inj h).1] at hc
  cases hc

/-! ## Strings -/

/-- Free of the characters that JSON escapes. -/
def Plain (s : Bytes) : Prop := ∀ c ∈ s, c ≠ quote ∧ c ≠ backslash ∧ 32 ≤ c.toNat

instance (s : Bytes) : Decidable (Plain s) :=
  inferInstanceAs (Decidable (∀ c ∈ s, c ≠ quote ∧ c ≠ backslash ∧ 32 ≤ c.toNat))

theorem scanString_plain {s : Bytes} (h : Plain s) (rest : Bytes) :
    scanString (s ++ quote :: rest) = some (s, rest) := by
  induction s with
  | nil =>
    rw [List.nil_append, scanString.eq_def]
    rfl
  | cons c s ih =>
    obtain ⟨hquote, hbackslash, hcontrol⟩ := h c List.mem_cons_self
    have hs : Plain s := fun c' hc' => h c' (List.mem_cons_of_mem c hc')
    rw [List.cons_append, scanString.eq_def]
    simp only [if_neg hquote, if_neg hbackslash, if_neg (show ¬ c.toNat < 32 by omega), ih hs]
    rfl

/-- Plain and ASCII, so that reading the text leaves it as it is. -/
def Printable (s : Bytes) : Prop :=
  ∀ c ∈ s, 32 ≤ c.toNat ∧ c.toNat < 0x80 ∧ c.toNat ≠ 34 ∧ c.toNat ≠ 92

instance (s : Bytes) : Decidable (Printable s) :=
  inferInstanceAs
    (Decidable (∀ c ∈ s, 32 ≤ c.toNat ∧ c.toNat < 0x80 ∧ c.toNat ≠ 34 ∧ c.toNat ≠ 92))

theorem Printable.plain {s : Bytes} (h : Printable s) : Plain s := by
  intro c hc
  obtain ⟨hcontrol, -, hquote, hbackslash⟩ := h c hc
  refine ⟨?_, ?_, hcontrol⟩
  · intro heq
    exact hquote (by rw [heq]; rfl)
  · intro heq
    exact hbackslash (by rw [heq]; rfl)

theorem unquote_printable {s : Bytes} (h : Printable s) : unquote s.length s = s := by
  induction s with
  | nil => rfl
  | cons c s ih =>
    have hc := h.plain c List.mem_cons_self
    have hascii := (h c List.mem_cons_self).2.1
    have hs : Printable s := fun c' hc' => h c' (List.mem_cons_of_mem c hc')
    rw [List.length_cons, unquote_ascii hc.2.1 hascii, ih hs]

theorem printable_decimal (n : Nat) : Printable (decimal n) := by
  intro c hc
  have hdigit := isDigit_decimal n c hc
  simp only [isDigit, inRange, Bool.and_eq_true, decide_eq_true_eq] at hdigit
  omega

theorem printable_base64 (b : Bytes) : Printable (Base64Std.encodeToString b) := by
  intro c hc
  have halphabet := Base64Std.encode_alphabet b c hc
  unfold Base64Std.Alphabet Base64Std.undigit at halphabet
  rcases halphabet with hdigit | rfl
  · split_ifs at hdigit with hupper hlower hnumber hplus hslash
    · omega
    · omega
    · omega
    · rw [hplus]; decide
    · rw [hslash]; decide
    · cases hdigit
  · decide

/-! ## Objects -/

/-- What a rendered member holds. -/
inductive Item where
  | text (s : Bytes)
  | nat (n : Nat)

def Item.Plain : Item → Prop
  | .text s => Json.Plain s
  | .nat _ => True

instance : (item : Item) → Decidable item.Plain
  | .text s => inferInstanceAs (Decidable (Json.Plain s))
  | .nat _ => isTrue trivial

def Item.render : Item → Bytes
  | .text s => quote :: s ++ [quote]
  | .nat n => decimal n

def Item.value : Item → Value
  | .text s => .string (unquote s.length s)
  | .nat n => .number (decimal n)

def renderMember (m : Bytes × Item) : Bytes := quote :: m.1 ++ quote :: 58 :: m.2.render

/-- The members up to the closing brace. -/
def renderMembers : List (Bytes × Item) → Bytes
  | [] => [125]
  | [m] => renderMember m ++ [125]
  | m :: rest => renderMember m ++ 44 :: renderMembers rest

def renderObject (ms : List (Bytes × Item)) : Bytes := 123 :: renderMembers ms

def readMember (m : Bytes × Item) : Bytes × Value := (unquote m.1.length m.1, m.2.value)

theorem token_cons {c : UInt8} (h : isSpace c = false) (b : UInt8) (rest : Bytes) :
    token b (c :: rest) = if c = b then some rest else none := by
  simp [token, skipSpace, h]

private theorem value_item {item : Item} (h : item.Plain) {b : UInt8} (hb : Closes b)
    (fuel depth : Nat) (rest : Bytes) :
    value (fuel + 1) depth (item.render ++ b :: rest) = some (item.value, b :: rest) := by
  cases item with
  | text s =>
    have hscan := scanString_plain h (b :: rest)
    have hquote : isSpace quote = false := rfl
    simp only [Item.render, List.cons_append, List.append_assoc, List.nil_append]
    rw [value, token_cons hquote, token_cons hquote, if_neg (by decide), if_neg (by decide)]
    simp [scalar, skipSpace, hquote, stringBody, hscan, Item.value]
  | nat n =>
    have hnumber := numberLiteral_decimal n hb rest
    obtain ⟨c, tail, hcons, -⟩ := decimal_head n
    have hc : isDigit c = true := isDigit_decimal n c (by rw [hcons]; exact List.mem_cons_self)
    simp only [Item.render, Item.value]
    rw [hcons, List.cons_append] at hnumber ⊢
    have hne : ∀ x, isDigit x = false → c ≠ x := by
      intro x hx heq
      rw [heq, hx] at hc
      cases hc
    have hspace : isSpace c = false := by
      simp [isSpace, hne 32 rfl, hne 9 rfl, hne 13 rfl, hne 10 rfl]
    rw [value, token_cons hspace, token_cons hspace, if_neg (hne _ rfl), if_neg (hne _ rfl)]
    simp [scalar, skipSpace, hspace, hne quote rfl, hne 116 rfl, hne 102 rfl, hne 110 rfl, hnumber]

/-- A member is read, and the byte after it decides how the object goes on. -/
theorem members_renderMember {m : Bytes × Item} (hkey : Plain m.1) (hitem : m.2.Plain) {b : UInt8}
    (hb : Closes b) (fuel depth : Nat) (rest : Bytes) :
    members (fuel + 2) depth (renderMember m ++ b :: rest) =
      match token 44 (b :: rest) with
      | some more =>
        (members (fuel + 1) depth more).map (fun ms => (readMember m :: ms.1, ms.2))
      | none => (token 125 (b :: rest)).map (fun rest => ([readMember m], rest)) := by
  have hscan := scanString_plain hkey (58 :: (m.2.render ++ b :: rest))
  have htext : renderMember m ++ b :: rest =
      quote :: (m.1 ++ quote :: 58 :: (m.2.render ++ b :: rest)) := by
    simp [renderMember]
  rw [htext, members, token_cons rfl, if_pos rfl]
  simp only [Option.bind_some, stringBody, hscan, Option.map_some]
  rw [token_cons rfl, if_pos rfl, Option.bind_some, value_item hitem hb, Option.bind_some]
  rfl

private theorem members_render (ms : List (Bytes × Item)) (hne : ms ≠ [])
    (hplain : ∀ m ∈ ms, Plain m.1 ∧ m.2.Plain) (depth : Nat) :
    members (ms.length + 1) depth (renderMembers ms) = some (ms.map readMember, []) := by
  induction ms with
  | nil => exact absurd rfl hne
  | cons m rest ih =>
    obtain ⟨hkey, hitem⟩ := hplain m List.mem_cons_self
    cases rest with
    | nil =>
      rw [renderMembers, List.length_singleton, members_renderMember hkey hitem (Or.inr rfl)]
      rfl
    | cons m' rest =>
      have hrest := ih (List.cons_ne_nil _ _) (fun x hx => hplain x (List.mem_cons_of_mem m hx))
      rw [renderMembers, List.length_cons, List.length_cons,
        members_renderMember hkey hitem (Or.inl rfl), token_cons rfl, if_pos rfl]
      simp only [List.length_cons] at hrest
      simp only [hrest, Option.map_some, List.map_cons]
      exact List.cons_ne_nil _ _

/-- A rendered object is parsed to its members in order. -/
theorem unmarshal_render (ms : List (Bytes × Item)) (hplain : ∀ m ∈ ms, Plain m.1 ∧ m.2.Plain) :
    unmarshal (renderObject ms) = some (ms.map readMember) := by
  have hvalue : value (ms.length + 2) maxNestingDepth (renderObject ms) =
      some (.object (ms.map readMember), []) := by
    rw [renderObject, value, token_cons rfl, if_pos rfl]
    show bracketed 125 .object (members (ms.length + 1)) (9999 + 1) (renderMembers ms) = _
    cases ms with
    | nil => rfl
    | cons m rest =>
      have hquote : ∃ text, renderMembers (m :: rest) = quote :: text := by
        cases rest <;> exact ⟨_, rfl⟩
      obtain ⟨text, htext⟩ := hquote
      have hopen : token 125 (renderMembers (m :: rest)) = none := by
        rw [htext, token_cons rfl, if_neg (by decide)]
      simp only [bracketed, hopen, members_render (m :: rest) (List.cons_ne_nil _ _) hplain,
        Option.map_some]
  rw [unmarshal, parse_of_value hvalue rfl]

/-! ## Filling a struct -/

section

variable {α : Type} (read : Value → Option α) (zero : α) {names : List Bytes} {name : Bytes}
  {ms : List (Bytes × Value)}

theorem fieldOf_self {key : Bytes} (h : key ∈ names) : fieldOf names key = some key := if_pos h

/-- A field that no member selects stays as it was. -/
theorem field_absent (h : ∀ m ∈ ms, fieldOf names m.1 ≠ some name) :
    field read zero names ms name = some zero := by
  induction ms with
  | nil => rfl
  | cons m rest ih =>
    rw [field, List.foldlM_cons, if_neg (h m List.mem_cons_self)]
    exact ih (fun m' hm' => h m' (List.mem_cons_of_mem m hm'))

/-- A field is read from the one member that selects it. -/
theorem field_of_mem {v : Value} (hmem : (name, v) ∈ ms) (hnodup : (ms.map Prod.fst).Nodup)
    (hname : name ∈ names) (honly : ∀ m ∈ ms, fieldOf names m.1 = some name → m.1 = name)
    (hv : v ≠ .null) : field read zero names ms name = read v := by
  induction ms with
  | nil => cases hmem
  | cons m rest ih =>
    obtain ⟨hfresh, hnodup'⟩ := List.nodup_cons.mp hnodup
    have honly' : ∀ m' ∈ rest, fieldOf names m'.1 = some name → m'.1 = name :=
      fun m' hm' => honly m' (List.mem_cons_of_mem m hm')
    rcases List.mem_cons.mp hmem with rfl | hin
    · have hrest : ∀ m' ∈ rest, fieldOf names m'.1 ≠ some name := by
        intro m' hm' hsel
        exact hfresh (List.mem_map.mpr ⟨m', hm', honly' m' hm' hsel⟩)
      have hread : field read zero names ((name, v) :: rest) name =
          (read v).bind (fun x => field read x names rest name) := by
        rw [field, List.foldlM_cons, if_pos (fieldOf_self hname)]
        cases v <;> first | exact absurd rfl hv | rfl
      rw [hread]
      simp only [field_absent read _ hrest]
      exact Option.bind_fun_some (read v)
    · have hskip : fieldOf names m.1 ≠ some name := by
        intro hsel
        have hkey := honly m List.mem_cons_self hsel
        exact hfresh (List.mem_map.mpr ⟨(name, v), hin, hkey.symm⟩)
      rw [field, List.foldlM_cons, if_neg hskip]
      exact ih hin hnodup' honly'

end

end VRGram.Lib.Json
