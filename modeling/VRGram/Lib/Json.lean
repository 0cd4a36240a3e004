import Mathlib.Data.List.Nodup
import VRGram.Lib.Strings

/-!
# JSON as `encoding/json` reads it

`json.Unmarshal` first checks the whole text against the grammar and then stores it.
A text is therefore parsed to a `Value` here, and a struct is filled from the members
of an object: a key selects the field of that name or else the one that equals it up
to case, a later member overwrites an earlier one, `null` leaves a field alone, and a
value of another type is an error. Strings are coerced to well-formed UTF-8.
-/
namespace VRGram.Lib.Json

open VRGram.Lib.Strings

set_option autoImplicit false

inductive Value where
  | null
  | bool (b : Bool)
  | number (literal : Bytes)
  | string (s : Bytes)
  | array (items : List Value)
  | object (members : List (Bytes × Value))

/-! ## UTF-8 -/

def inRange (lo hi : Nat) (c : UInt8) : Bool := lo ≤ c.toNat && c.toNat ≤ hi

def isContinuation (c : UInt8) : Bool := inRange 0x80 0xBF c

/-- The size of the multi-byte rune that `s` starts with; zero if it is malformed. -/
def runeLength : Bytes → Nat
  | a :: b :: rest =>
    if inRange 0xC2 0xDF a then (if isContinuation b then 2 else 0)
    else
      match rest with
      | [] => 0
      | c :: rest =>
        -- the second byte is restricted further to exclude overlong forms and surrogates
        if inRange 0xE0 0xEF a then
          let lo := if a = 0xE0 then 0xA0 else 0x80
          let hi := if a = 0xED then 0x9F else 0xBF
          if inRange lo hi b && isContinuation c then 3 else 0
        else if inRange 0xF0 0xF4 a then
          let lo := if a = 0xF0 then 0x90 else 0x80
          let hi := if a = 0xF4 then 0x8F else 0xBF
          match rest with
          | [] => 0
          | d :: _ => if inRange lo hi b && isContinuation c && isContinuation d then 4 else 0
        else 0
  | _ => 0

/-- `utf8.EncodeRune` of a rune that is not a surrogate. -/
def encodeRune (r : Nat) : Bytes :=
  if r < 0x80 then [octet r]
  else if r < 0x800 then [octet (0xC0 + r / 64), octet (0x80 + r % 64)]
  else if r < 0x10000 then
    [octet (0xE0 + r / 4096), octet (0x80 + r / 64 % 64), octet (0x80 + r % 64)]
  else [octet (0xF0 + r / 262144), octet (0x80 + r / 4096 % 64), octet (0x80 + r / 64 % 64),
    octet (0x80 + r % 64)]

def replacementChar : Nat := 0xFFFD

/-! ## Strings -/

def quote : UInt8 := 34

def backslash : UInt8 := 92

def isDigit (c : UInt8) : Bool := inRange 48 57 c

def hexDigit (c : UInt8) : Option Nat :=
  if isDigit c then some (c.toNat - 48)
  else if inRange 97 102 c then some (c.toNat - 87)
  else if inRange 65 70 c then some (c.toNat - 55)
  else none

/-- The byte that a one-letter escape stands for. -/
def simpleEscape (e : UInt8) : Option UInt8 :=
  if e = quote ∨ e = backslash ∨ e = 47 then some e
  else if e = 98 then some 8
  else if e = 102 then some 12
  else if e = 110 then some 10
  else if e = 114 then some 13
  else if e = 116 then some 9
  else none

def prepend (front : Bytes) (r : Bytes × Bytes) : Bytes × Bytes := (front ++ r.1, r.2)

/-- The text up to the closing quote, still escaped, and what follows the quote. -/
def scanString : Bytes → Option (Bytes × Bytes)
  | [] => none
  | c :: rest =>
    if c = quote then some ([], rest)
    else if c = backslash then
      match rest with
      | [] => none
      | e :: rest =>
        if e = 117 then
          match rest with
          | h1 :: h2 :: h3 :: h4 :: rest =>
            if [h1, h2, h3, h4].all (fun h => (hexDigit h).isSome) then
              (scanString rest).map (prepend [c, e, h1, h2, h3, h4])
            else none
          | _ => none
        else if (simpleEscape e).isSome then (scanString rest).map (prepend [c, e])
        else none
    else if c.toNat < 32 then none
    else (scanString rest).map (prepend [c])

/-- The number in the four hexadecimal digits that `s` starts with. -/
def hex4 (s : Bytes) : Nat := (s.take 4).foldl (fun acc h => acc * 16 + (hexDigit h).getD 0) 0

/-- The rune of a `\u` escape whose digits `s` starts with, and the text after it. A
high surrogate takes the escape after it when that is a low one. -/
def escapedRune (s : Bytes) : Nat × Bytes :=
  let r := hex4 s
  let rest := s.drop 4
  if 0xD800 ≤ r ∧ r < 0xE000 then
    let low := hex4 (rest.drop 2)
    if r < 0xDC00 ∧ rest.take 2 = [backslash, 117] ∧ 0xDC00 ≤ low ∧ low < 0xE000 then
      (0x10000 + (r - 0xD800) * 1024 + (low - 0xDC00), rest.drop 6)
    else (replacementChar, rest)
  else (r, rest)

/-- `unquoteBytes` on a text that `scanString` accepted; a step consumes a byte or more. -/
def unquote : Nat → Bytes → Bytes
  | 0, _ => []
  | _ + 1, [] => []
  | fuel + 1, c :: rest =>
    if c = backslash then
      match rest with
      | [] => []
      | e :: rest =>
        if e = 117 then encodeRune (escapedRune rest).1 ++ unquote fuel (escapedRune rest).2
        else (simpleEscape e).toList ++ unquote fuel rest
    else if c.toNat < 0x80 then c :: unquote fuel rest
    else if runeLength (c :: rest) = 0 then encodeRune replacementChar ++ unquote fuel rest
    else (c :: rest).take (runeLength (c :: rest)) ++
      unquote fuel ((c :: rest).drop (runeLength (c :: rest)))

theorem unquote_ascii {c : UInt8} (hc : c ≠ backslash) (h : c.toNat < 0x80) (fuel : Nat)
    (s : Bytes) : unquote (fuel + 1) (c :: s) = c :: unquote fuel s := by
  rw [unquote.eq_def]
  dsimp only
  rw [if_neg hc, if_pos h]

theorem unquote_invalid {c : UInt8} (hc : c ≠ backslash) (h : ¬ c.toNat < 0x80) (fuel : Nat)
    {s : Bytes} (hlen : runeLength (c :: s) = 0) :
    unquote (fuel + 1) (c :: s) = encodeRune replacementChar ++ unquote fuel s := by
  rw [unquote.eq_def]
  dsimp only
  rw [if_neg hc, if_neg h, if_pos hlen]

theorem unquote_rune {c : UInt8} (hc : c ≠ backslash) (h : ¬ c.toNat < 0x80) (fuel : Nat)
    {s : Bytes} (hlen : runeLength (c :: s) ≠ 0) :
    unquote (fuel + 1) (c :: s) = (c :: s).take (runeLength (c :: s)) ++
      unquote fuel ((c :: s).drop (runeLength (c :: s))) := by
  rw [unquote.eq_def]
  dsimp only
  rw [if_neg hc, if_neg h, if_neg hlen]

theorem unquote_escape {e : UInt8} (he : e ≠ 117) (fuel : Nat) (s : Bytes) :
    unquote (fuel + 1) (backslash :: e :: s) = (simpleEscape e).toList ++ unquote fuel s := by
  rw [unquote.eq_def]
  dsimp only
  rw [if_pos rfl, if_neg he]

theorem unquote_unicode (fuel : Nat) (s : Bytes) :
    unquote (fuel + 1) (backslash :: 117 :: s) =
      encodeRune (escapedRune s).1 ++ unquote fuel (escapedRune s).2 := by
  rw [unquote.eq_def]
  dsimp only
  rw [if_pos rfl, if_pos rfl]

/-- A string after its opening quote. -/
def stringBody (s : Bytes) : Option (Bytes × Bytes) :=
  (scanString s).map (fun r => (unquote r.1.length r.1, r.2))

/-! ## Numbers -/

/-- One digit or more. -/
def digits (s : Bytes) : Option (Bytes × Bytes) :=
  match s.span isDigit with
  | ([], _) => none
  | run => some run

/-- Digits without a leading zero. -/
def integerPart : Bytes → Option (Bytes × Bytes)
  | 48 :: rest => some ([48], rest)
  | s => digits s

def fractionPart : Bytes → Option (Bytes × Bytes)
  | 46 :: rest => (digits rest).map (prepend [46])
  | s => some ([], s)

def exponentPart : Bytes → Option (Bytes × Bytes)
  | [] => some ([], [])
  | e :: rest =>
    if e = 101 ∨ e = 69 then
      match rest with
      | [] => none
      | sign :: tail =>
        if sign = 43 ∨ sign = 45 then (digits tail).map (prepend [e, sign])
        else (digits rest).map (prepend [e])
    else some ([], e :: rest)

def unsignedNumber (s : Bytes) : Option (Bytes × Bytes) := do
  let (i, s) ← integerPart s
  let (f, s) ← fractionPart s
  let (e, s) ← exponentPart s
  some (i ++ f ++ e, s)

def numberLiteral : Bytes → Option (Bytes × Bytes)
  | 45 :: rest => (unsignedNumber rest).map (prepend [45])
  | s => unsignedNumber s

/-! ## Values -/

def isSpace (c : UInt8) : Bool := c == 32 || c == 9 || c == 13 || c == 10

def skipSpace (s : Bytes) : Bytes := s.dropWhile isSpace

/-- The literal `word` at the front of `s`. -/
def expect (word : Bytes) (v : Value) (s : Bytes) : Option (Value × Bytes) :=
  if word.isPrefixOf s then some (v, s.drop word.length) else none

/-- What follows the byte `b`, if that is what comes after the white space. -/
def token (b : UInt8) (s : Bytes) : Option Bytes :=
  match skipSpace s with
  | [] => none
  | c :: rest => if c = b then some rest else none

/-- A string, a literal or a number. -/
def scalar (s : Bytes) : Option (Value × Bytes) :=
  match skipSpace s with
  | [] => none
  | c :: rest =>
    if c = quote then (stringBody rest).map (fun r => (.string r.1, r.2))
    else if c = 116 then expect (lit "true") (.bool true) (c :: rest)
    else if c = 102 then expect (lit "false") (.bool false) (c :: rest)
    else if c = 110 then expect (lit "null") .null (c :: rest)
    else (numberLiteral (c :: rest)).map (fun r => (.number r.1, r.2))

/-- What follows an opening bracket: the closing one, or items one level further down. -/
def bracketed {α : Type} (close : UInt8) (wrap : List α → Value)
    (scan : Nat → Bytes → Option (List α × Bytes)) (depth : Nat) (s : Bytes) :
    Option (Value × Bytes) :=
  match depth with
  | 0 => none
  | depth + 1 =>
    match token close s with
    | some rest => some (wrap [], rest)
    | none => (scan depth s).map (fun r => (wrap r.1, r.2))

/-- Nesting that the scanner refuses to exceed. -/
def maxNestingDepth : Nat := 10000

mutual

/-- A value and the text after it. `depth` bounds the nesting, as the scanner does. -/
def value : Nat → Nat → Bytes → Option (Value × Bytes)
  | 0, _, _ => none
  | fuel + 1, depth, s =>
    match token 123 s with
    | some rest => bracketed 125 .object (members fuel) depth rest
    | none =>
      match token 91 s with
      | some rest => bracketed 93 .array (elements fuel) depth rest
      | none => scalar s

/-- The elements of an array, up to its closing bracket. -/
def elements : Nat → Nat → Bytes → Option (List Value × Bytes)
  | 0, _, _ => none
  | fuel + 1, depth, s =>
    (value fuel depth s).bind fun v =>
      match token 44 v.2 with
      | some rest => (elements fuel depth rest).map (fun vs => (v.1 :: vs.1, vs.2))
      | none => (token 93 v.2).map (fun rest => ([v.1], rest))

/-- The members of an object, up to its closing brace. -/
def members : Nat → Nat → Bytes → Option (List (Bytes × Value) × Bytes)
  | 0, _, _ => none
  | fuel + 1, depth, s =>
    ((token quote s).bind stringBody).bind fun key =>
      ((token 58 key.2).bind (value fuel depth)).bind fun v =>
        match token 44 v.2 with
        | some rest => (members fuel depth rest).map (fun ms => ((key.1, v.1) :: ms.1, ms.2))
        | none => (token 125 v.2).map (fun rest => ([(key.1, v.1)], rest))

end

/-- The value that the whole text denotes. Every second call consumes a byte. -/
def parse (s : Bytes) : Option Value :=
  match value (2 * s.length + 2) maxNestingDepth s with
  | some (v, rest) => if skipSpace rest = [] then some v else none
  | none => none

/-! ## The fuel is enough -/

/-- A scanner that succeeds only after it has consumed a byte. -/
def Consumes {α : Type} (scan : Bytes → Option (α × Bytes)) : Prop :=
  ∀ s r, scan s = some r → r.2.length < s.length

theorem skipSpace_length_le (s : Bytes) : (skipSpace s).length ≤ s.length :=
  (List.dropWhile_suffix isSpace).length_le

private theorem consumes_scanString : Consumes scanString := by
  intro s r h
  fun_induction scanString s generalizing r <;>
    simp_all only [reduceCtorEq, Option.some.injEq, Option.map_eq_some_iff, List.length_cons]
  case case2 => subst h; simp
  all_goals
    rename_i ih
    obtain ⟨r', hr', rfl⟩ := h
    have hlt := ih r' hr'
    simp only [prepend]
    omega

theorem consumes_stringBody : Consumes stringBody := by
  intro s r h
  obtain ⟨r', hr', rfl⟩ := Option.map_eq_some_iff.mp h
  exact consumes_scanString s r' hr'

theorem consumes_digits : Consumes digits := by
  intro s r h
  have happ : s.takeWhile isDigit ++ s.dropWhile isDigit = s := List.takeWhile_append_dropWhile
  unfold digits at h
  rw [List.span_eq_takeWhile_dropWhile] at h
  cases ht : s.takeWhile isDigit with
  | nil =>
    rw [ht] at h
    cases h
  | cons c run =>
    rw [ht] at h happ
    obtain rfl := Option.some.inj h
    have hl := congrArg List.length happ
    simp only [List.length_append, List.length_cons] at hl
    show (s.dropWhile isDigit).length < s.length
    omega

private theorem consumes_integerPart : Consumes integerPart := by
  intro s r h
  unfold integerPart at h
  split at h
  · obtain rfl := Option.some.inj h
    simp
  · exact consumes_digits _ _ h

theorem fractionPart_length {s : Bytes} {r : Bytes × Bytes} (h : fractionPart s = some r) :
    r.2.length ≤ s.length := by
  unfold fractionPart at h
  split at h
  · obtain ⟨r', hr', rfl⟩ := Option.map_eq_some_iff.mp h
    have hlt := consumes_digits _ _ hr'
    simp only [prepend, List.length_cons]
    omega
  · obtain rfl := Option.some.inj h
    exact le_refl _

theorem exponentPart_length {s : Bytes} {r : Bytes × Bytes} (h : exponentPart s = some r) :
    r.2.length ≤ s.length := by
  unfold exponentPart at h
  split at h
  · obtain rfl := Option.some.inj h
    exact le_refl _
  · split at h
    · split at h
      · cases h
      · split at h <;> obtain ⟨r', hr', rfl⟩ := Option.map_eq_some_iff.mp h <;>
        · have hlt := consumes_digits _ _ hr'
          simp only [prepend, List.length_cons] at hlt ⊢
          omega
    · obtain rfl := Option.some.inj h
      exact le_refl _

theorem consumes_unsignedNumber : Consumes unsignedNumber := by
  intro s r h
  simp only [unsignedNumber, Option.bind_eq_bind, Option.bind_eq_some_iff] at h
  obtain ⟨i, hi, f, hf, e, he, hr⟩ := h
  obtain rfl := Option.some.inj hr
  have h1 := consumes_integerPart _ _ hi
  have h2 := fractionPart_length hf
  have h3 := exponentPart_length he
  show e.2.length < s.length
  omega

private theorem consumes_numberLiteral : Consumes numberLiteral := by
  intro s r h
  unfold numberLiteral at h
  split at h
  · obtain ⟨r', hr', rfl⟩ := Option.map_eq_some_iff.mp h
    have hlt := consumes_unsignedNumber _ _ hr'
    simp only [prepend, List.length_cons]
    omega
  · exact consumes_unsignedNumber _ _ h

theorem consumes_expect {word : Bytes} (hw : word ≠ []) (v : Value) :
    Consumes (expect word v) := by
  intro s r h
  unfold expect at h
  split at h
  next hp =>
    obtain rfl := Option.some.inj h
    have hle := (List.isPrefixOf_iff_prefix.mp hp).length_le
    have hpos := List.length_pos_iff.mpr hw
    simp only [List.length_drop]
    omega
  next => cases h

theorem token_length {b : UInt8} {s rest : Bytes} (h : token b s = some rest) :
    rest.length < s.length := by
  have hs := skipSpace_length_le s
  unfold token at h
  split at h
  next => cases h
  next c tail hsk =>
    split at h
    · obtain rfl := Option.some.inj h
      rw [hsk, List.length_cons] at hs
      omega
    · cases h

private theorem consumes_scalar : Consumes scalar := by
  intro s r h
  have hs := skipSpace_length_le s
  unfold scalar at h
  split at h
  next => cases h
  next c rest hsk =>
    rw [hsk] at hs
    refine Nat.lt_of_lt_of_le ?_ hs
    split at h
    · obtain ⟨r', hr', rfl⟩ := Option.map_eq_some_iff.mp h
      exact Nat.lt_succ_of_lt (consumes_stringBody _ _ hr')
    · split at h
      · exact consumes_expect (by decide) _ _ _ h
      · split at h
        · exact consumes_expect (by decide) _ _ _ h
        · split at h
          · exact consumes_expect (by decide) _ _ _ h
          · obtain ⟨r', hr', rfl⟩ := Option.map_eq_some_iff.mp h
            exact consumes_numberLiteral _ _ hr'

/-- A result that some fuel gives consumes a byte and is the result for every fuel from a
bound on that grows with the text. -/
def Settled {α : Type} (scan : Nat → Nat → Bytes → Option (α × Bytes)) (extra F : Nat) : Prop :=
  ∀ depth s r, scan F depth s = some r →
    r.2.length < s.length ∧ ∀ f, 2 * s.length + extra ≤ f → scan f depth s = some r

/-- The elements of an array start with a value at the same place, hence the larger bound. -/
structure FuelFree (F : Nat) : Prop where
  value : Settled value 2 F
  elements : Settled elements 3 F
  members : Settled members 2 F

/-- Brackets consume a byte and depend on the items' scanner only through its result. -/
theorem bracketed_congr {α : Type} {close : UInt8} {wrap : List α → Value}
    {scan scan' : Nat → Bytes → Option (List α × Bytes)} {depth : Nat} {s : Bytes}
    {r : Value × Bytes} (h : bracketed close wrap scan depth s = some r)
    (hscan : ∀ d q, scan d s = some q → q.2.length < s.length ∧ scan' d s = some q) :
    r.2.length < s.length ∧ bracketed close wrap scan' depth s = some r := by
  cases depth with
  | zero => cases h
  | succ depth =>
    unfold bracketed at h ⊢
    cases hclose : token close s with
    | some rest =>
      simp only [hclose] at h ⊢
      refine ⟨?_, h⟩
      obtain rfl := Option.some.inj h
      exact token_length hclose
    | none =>
      simp only [hclose] at h ⊢
      obtain ⟨q, hq, rfl⟩ := Option.map_eq_some_iff.mp h
      obtain ⟨hlen, hq'⟩ := hscan depth q hq
      exact ⟨hlen, by rw [hq', Option.map_some]⟩

private theorem settled_value {F : Nat} (ih : FuelFree F) : Settled value 2 (F + 1) := by
  intro depth s r h
  have hfuel : ∀ f, 2 * s.length + 2 ≤ f → ∃ g, f = g + 1 ∧ 2 * s.length + 1 ≤ g :=
    fun f hf => ⟨f - 1, by omega, by omega⟩
  rw [value] at h
  cases hobj : token 123 s with
  | some rest =>
    have hrest := token_length hobj
    simp only [hobj] at h
    have hinner : ∀ g, 2 * s.length + 1 ≤ g → r.2.length < rest.length ∧
        bracketed 125 .object (members g) depth rest = some r := by
      intro g hg
      apply bracketed_congr h
      intro d q hq
      obtain ⟨hlen, hall⟩ := ih.members d rest q hq
      exact ⟨hlen, hall g (by omega)⟩
    refine ⟨Nat.lt_trans (hinner _ (Nat.le_refl _)).1 hrest, fun f hf => ?_⟩
    obtain ⟨g, rfl, hg⟩ := hfuel f hf
    rw [value]
    simp only [hobj]
    exact (hinner g hg).2
  | none =>
    simp only [hobj] at h
    cases harr : token 91 s with
    | some rest =>
      have hrest := token_length harr
      simp only [harr] at h
      have hinner : ∀ g, 2 * s.length + 1 ≤ g → r.2.length < rest.length ∧
          bracketed 93 .array (elements g) depth rest = some r := by
        intro g hg
        apply bracketed_congr h
        intro d q hq
        obtain ⟨hlen, hall⟩ := ih.elements d rest q hq
        exact ⟨hlen, hall g (by omega)⟩
      refine ⟨Nat.lt_trans (hinner _ (Nat.le_refl _)).1 hrest, fun f hf => ?_⟩
      obtain ⟨g, rfl, hg⟩ := hfuel f hf
      rw [value]
      simp only [hobj, harr]
      exact (hinner g hg).2
    | none =>
      simp only [harr] at h
      refine ⟨consumes_scalar s r h, fun f hf => ?_⟩
      obtain ⟨g, rfl, -⟩ := hfuel f hf
      rw [value]
      simp only [hobj, harr]
      exact h

private theorem settled_elements {F : Nat} (ih : FuelFree F) : Settled elements 3 (F + 1) := by
  intro depth s r h
  rw [elements, Option.bind_eq_some_iff] at h
  obtain ⟨v, hv, h⟩ := h
  obtain ⟨hvlen, hvall⟩ := ih.value depth s v hv
  have hfuel : ∀ f, 2 * s.length + 3 ≤ f → ∃ g, f = g + 1 ∧ 2 * s.length + 2 ≤ g :=
    fun f hf => ⟨f - 1, by omega, by omega⟩
  cases hmore : token 44 v.2 with
  | some rest =>
    have hrest := token_length hmore
    simp only [hmore] at h
    obtain ⟨vs, hvs, rfl⟩ := Option.map_eq_some_iff.mp h
    obtain ⟨hlen, hall⟩ := ih.elements depth rest vs hvs
    refine ⟨by show vs.2.length < s.length; omega, fun f hf => ?_⟩
    obtain ⟨g, rfl, hg⟩ := hfuel f hf
    rw [elements, hvall g hg, Option.bind_some]
    simp only [hmore, hall g (by omega), Option.map_some]
  | none =>
    simp only [hmore] at h
    obtain ⟨rest, hclose, rfl⟩ := Option.map_eq_some_iff.mp h
    have hrest := token_length hclose
    refine ⟨by show rest.length < s.length; omega, fun f hf => ?_⟩
    obtain ⟨g, rfl, hg⟩ := hfuel f hf
    rw [elements, hvall g hg, Option.bind_some]
    simp only [hmore, hclose, Option.map_some]

/-- What an object's members consist of. -/
theorem members_inv {fuel depth : Nat} {s : Bytes} {r : List (Bytes × Value) × Bytes}
    (h : members fuel depth s = some r) :
    ∃ fuel' start key after v, fuel = fuel' + 1 ∧ token quote s = some start ∧
      stringBody start = some key ∧ token 58 key.2 = some after ∧
      value fuel' depth after = some v ∧
      ((∃ rest ms, token 44 v.2 = some rest ∧ members fuel' depth rest = some ms ∧
          r = ((key.1, v.1) :: ms.1, ms.2)) ∨
        (token 44 v.2 = none ∧ ∃ rest, token 125 v.2 = some rest ∧ r = ([(key.1, v.1)], rest))) := by
  cases fuel with
  | zero => simp [members] at h
  | succ fuel =>
    rw [members, Option.bind_eq_some_iff] at h
    obtain ⟨key, hkey, h⟩ := h
    rw [Option.bind_eq_some_iff] at h
    obtain ⟨v, hv, h⟩ := h
    obtain ⟨start, hquote, hbody⟩ := Option.bind_eq_some_iff.mp hkey
    obtain ⟨after, hcolon, hval⟩ := Option.bind_eq_some_iff.mp hv
    refine ⟨fuel, start, key, after, v, rfl, hquote, hbody, hcolon, hval, ?_⟩
    cases hmore : token 44 v.2 with
    | some rest =>
      simp only [hmore] at h
      obtain ⟨ms, hms, rfl⟩ := Option.map_eq_some_iff.mp h
      exact Or.inl ⟨rest, ms, rfl, hms, rfl⟩
    | none =>
      simp only [hmore] at h
      obtain ⟨rest, hclose, rfl⟩ := Option.map_eq_some_iff.mp h
      exact Or.inr ⟨rfl, rest, hclose, rfl⟩

private theorem settled_members {F : Nat} (ih : FuelFree F) : Settled members 2 (F + 1) := by
  intro depth s r h
  obtain ⟨fuel, start, key, after, v, hF, hquote, hbody, hcolon, hval, hnext⟩ := members_inv h
  obtain rfl := Nat.succ.inj hF
  have hstart := token_length hquote
  have hkeylen := consumes_stringBody _ _ hbody
  have hafter := token_length hcolon
  obtain ⟨hvlen, hvall⟩ := ih.value depth after v hval
  have hfuel : ∀ f, 2 * s.length + 2 ≤ f → ∃ g, f = g + 1 ∧ 2 * after.length + 2 ≤ g :=
    fun f hf => ⟨f - 1, by omega, by omega⟩
  rcases hnext with ⟨rest, ms, hmore, hms, rfl⟩ | ⟨hmore, rest, hclose, rfl⟩
  · have hrest := token_length hmore
    obtain ⟨hlen, hall⟩ := ih.members depth rest ms hms
    refine ⟨by show ms.2.length < s.length; omega, fun f hf => ?_⟩
    obtain ⟨g, rfl, hg⟩ := hfuel f hf
    simp only [members, hquote, hbody, hcolon, Option.bind_some, hvall g hg, hmore,
      hall g (by omega), Option.map_some]
  · have hrest := token_length hclose
    refine ⟨by show rest.length < s.length; omega, fun f hf => ?_⟩
    obtain ⟨g, rfl, hg⟩ := hfuel f hf
    simp only [members, hquote, hbody, hcolon, Option.bind_some, hvall g hg, hmore, hclose,
      Option.map_some]

theorem fuelFree (F : Nat) : FuelFree F := by
  induction F with
  | zero =>
    constructor <;>
    · intro depth s r h
      simp [value, elements, members] at h
  | succ F ih => exact ⟨settled_value ih, settled_elements ih, settled_members ih⟩

/-- `parse` finds every value that any amount of fuel finds. -/
theorem parse_of_value {F : Nat} {s : Bytes} {r : Value × Bytes}
    (h : value F maxNestingDepth s = some r) (hend : skipSpace r.2 = []) :
    parse s = some r.1 := by
  have hv := ((fuelFree F).value maxNestingDepth s r h).2 (2 * s.length + 2) (Nat.le_refl _)
  simp only [parse, hv, if_pos hend]

/-! ## Structs -/

/-- Readers check their fields with `guard`. -/
theorem guard_some_iff {p : Prop} [Decidable p] {u : Unit} :
    (guard p : Option Unit) = some u ↔ p := by
  by_cases h : p <;> simp [guard, h]

/-- The members that fill a struct; `null` fills nothing. -/
def unmarshal (s : Bytes) : Option (List (Bytes × Value)) :=
  match parse s with
  | some (.object ms) => some ms
  | some .null => some []
  | _ => none

/-- Case folding as far as a folded name can be ASCII: besides the letters, the long s
and the Kelvin sign. -/
def foldName : Bytes → Bytes
  | 0xC5 :: 0xBF :: rest => 83 :: foldName rest
  | 0xE2 :: 0x84 :: 0xAA :: rest => 75 :: foldName rest
  | c :: rest => (if inRange 97 122 c then c - 32 else c) :: foldName rest
  | [] => []

/-- The field that a key selects. -/
def fieldOf (names : List Bytes) (key : Bytes) : Option Bytes :=
  if key ∈ names then some key else names.find? (fun name => foldName name = foldName key)

/-- The number that a run of digits denotes. -/
def digitsValue (s : Bytes) : Nat := s.foldl (fun acc c => acc * 10 + (c.toNat - 48)) 0

/-- A number without a sign, of any size. -/
def parseDigits (s : Bytes) : Option Nat :=
  if s ≠ [] ∧ s.all isDigit then some (digitsValue s) else none

/-- `strconv.ParseUint(s, 10, 64)`. -/
def parseUint (s : Bytes) : Option UInt64 :=
  (parseDigits s).bind (fun n => if n < 2 ^ 64 then some (UInt64.ofNat n) else none)

def asString : Value → Option Bytes
  | .string s => some s
  | _ => none

def asUint64 : Value → Option UInt64
  | .number literal => parseUint literal
  | _ => none

/-- Field `name` of a struct with the given field names, from `zero` on. -/
def field {α : Type} (read : Value → Option α) (zero : α) (names : List Bytes)
    (ms : List (Bytes × Value)) (name : Bytes) : Option α :=
  ms.foldlM (fun current m =>
    if fieldOf names m.1 = some name then
      match m.2 with
      | .null => some current
      | v => read v
    else some current) zero

def stringField (names : List Bytes) (ms : List (Bytes × Value)) (name : Bytes) : Option Bytes :=
  field asString [] names ms name

def uint64Field (names : List Bytes) (ms : List (Bytes × Value)) (name : Bytes) : Option UInt64 :=
  field asUint64 0 names ms name

/-- Of names that differ up to case, a key selects the one that it equals up to case. -/
theorem fieldOf_eq_some_iff {names : List Bytes} (hn : (names.map foldName).Nodup) {name : Bytes}
    (hmem : name ∈ names) (key : Bytes) :
    fieldOf names key = some name ↔ foldName key = foldName name := by
  have hinj : ∀ a ∈ names, ∀ b ∈ names, foldName a = foldName b → a = b :=
    fun a ha b hb h => List.inj_on_of_nodup_map hn ha hb h
  unfold fieldOf
  split_ifs with hkey
  · rw [Option.some.injEq]
    exact ⟨fun h => by rw [h], hinj key hkey name hmem⟩
  · constructor
    · intro h
      have hfold : foldName name = foldName key := by simpa using List.find?_some h
      exact hfold.symm
    · intro h
      cases hfind : names.find? (fun n => foldName n = foldName key) with
      | none =>
        have hnone := List.find?_eq_none.mp hfind name hmem
        exact absurd (decide_eq_true h.symm) hnone
      | some other =>
        have hfold : foldName other = foldName key := by simpa using List.find?_some hfind
        rw [hinj other (List.mem_of_find?_eq_some hfind) name hmem (hfold.trans h)]

/-- A field that two structs have in common is read alike by both. -/
theorem field_congr {α : Type} (read : Value → Option α) (zero : α) {names names' : List Bytes}
    (hn : (names.map foldName).Nodup) (hn' : (names'.map foldName).Nodup) {name : Bytes}
    (hmem : name ∈ names) (hmem' : name ∈ names') (ms : List (Bytes × Value)) :
    field read zero names ms name = field read zero names' ms name := by
  simp only [field, fieldOf_eq_some_iff hn hmem, fieldOf_eq_some_iff hn' hmem']

example : (unmarshal (lit "\x7b\"KEY_epoch\": 7, \"x\": [true, null], \"name\":\"a\\u0062\"\x7d")).bind
    (fun ms => uint64Field [lit "key_epoch", lit "name"] ms (lit "key_epoch")) = some 7 := by
  decide +kernel

end VRGram.Lib.Json
