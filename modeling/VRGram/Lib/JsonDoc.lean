import VRGram.Lib.JsonObject
import VRGram.Lib.JsonWrite

/-!
# Documents as `encoding/json` writes them

What `json.Marshal` and `json.MarshalIndent` make of nested structs and maps whose leaves are
strings, integers and nil pointers. The white space between the tokens is a layout. Whatever the layout, the
text is read as the document, and no beginning of it is read as anything.
-/
namespace VRGram.Lib.Json

open VRGram.Lib.Strings VRGram.Lib.Utf8

set_option autoImplicit false

inductive Doc where
  | null
  | text (s : Bytes)
  | number (z : Int)
  | object (members : List (Bytes × Doc))

/-- The white space at the start of a line, by depth, and after a colon. -/
structure Layout where
  line : Nat → Bytes
  gap : Bytes
  line_space : ∀ depth, ∀ c ∈ line depth, isSpace c = true
  gap_space : ∀ c ∈ gap, isSpace c = true

/-- `json.Marshal`. -/
def compact : Layout where
  line := fun _ => []
  gap := []
  line_space := fun _ _ h => absurd h List.not_mem_nil
  gap_space := fun _ h => absurd h List.not_mem_nil

/-- `json.MarshalIndent` without a prefix, with two spaces. -/
def twoSpaces : Layout where
  line := fun depth => 10 :: List.replicate (2 * depth) 32
  gap := [32]
  line_space := by
    intro depth c hc
    rcases List.mem_cons.mp hc with rfl | hc
    · rfl
    · rw [List.eq_of_mem_replicate hc]
      rfl
  gap_space := by
    intro c hc
    rw [List.mem_singleton.mp hc]
    rfl

mutual

def Doc.write (l : Layout) (depth : Nat) : Doc → Bytes
  | .null => lit "null"
  | .text s => quoteText s
  | .number z => decimalInt z
  | .object [] => [123, 125]
  | .object (m :: ms) =>
    123 :: (writeMember l (depth + 1) m ++ (writeMembers l (depth + 1) ms ++ (l.line depth ++ [125])))

def writeMember (l : Layout) (depth : Nat) : Bytes × Doc → Bytes
  | (key, d) => l.line depth ++ (quoteText key ++ 58 :: (l.gap ++ d.write l depth))

def writeMembers (l : Layout) (depth : Nat) : List (Bytes × Doc) → Bytes
  | [] => []
  | m :: ms => 44 :: (writeMember l depth m ++ writeMembers l depth ms)

end

mutual

/-- What a document is read as. -/
def Doc.value : Doc → Value
  | .null => .null
  | .text s => .string (reread s)
  | .number z => .number (decimalInt z)
  | .object ms => .object (memberValues ms)

def memberValue : Bytes × Doc → Bytes × Value
  | (key, d) => (reread key, d.value)

def memberValues : List (Bytes × Doc) → List (Bytes × Value)
  | [] => []
  | m :: ms => memberValue m :: memberValues ms

end

example : (Doc.object [(lit "a", .text (lit "<b>")), (lit "c", .object [])]).write twoSpaces 0 =
    lit "\x7b\n  \"a\": \"\\u003cb\\u003e\",\n  \"c\": \x7b\x7d\n\x7d" := by
  decide +kernel

/-! ## White space and numbers -/

theorem token_spaces {ws : Bytes} (h : ∀ c ∈ ws, isSpace c = true) (b : UInt8) (s : Bytes) :
    token b (ws ++ s) = token b s := by
  have hskip : skipSpace (ws ++ s) = skipSpace s := List.dropWhile_append_of_pos h
  rw [token, token, hskip]

/-- What may follow a number. -/
def Stops (rest : Bytes) : Prop :=
  ∀ b ∈ rest.head?, isDigit b = false ∧ b ≠ 46 ∧ b ≠ 101 ∧ b ≠ 69

theorem unsignedNumber_decimal (n : Nat) {rest : Bytes} (h : Stops rest) :
    unsignedNumber (decimal n ++ rest) = some (decimal n, rest) := by
  obtain ⟨c, tail, hcons, hzero⟩ := decimal_head n
  have hspan : (decimal n ++ rest).span isDigit = (decimal n, rest) := by
    have hstop : rest.takeWhile isDigit = [] ∧ rest.dropWhile isDigit = rest := by
      cases rest with
      | nil => exact ⟨rfl, rfl⟩
      | cons b rest =>
        have hb := (h b rfl).1
        simp [hb]
    rw [List.span_eq_takeWhile_dropWhile, List.takeWhile_append_of_pos (isDigit_decimal n),
      List.dropWhile_append_of_pos (isDigit_decimal n), hstop.1, hstop.2, List.append_nil]
  have hinteger : integerPart (decimal n ++ rest) = some (decimal n, rest) := by
    by_cases hc : c = 48
    · obtain rfl := hzero hc
      rfl
    · have hdigits : integerPart (decimal n ++ rest) = digits (decimal n ++ rest) := by
        rw [hcons, List.cons_append, integerPart]
        intro tail' h
        exact hc (List.cons.inj h).1
      rw [hdigits, digits, hspan, hcons]
  have hfraction : fractionPart rest = some ([], rest) := by
    rw [fractionPart]
    intro tail heq
    exact (h 46 (by rw [heq]; rfl)).2.1 rfl
  have hexponent : exponentPart rest = some ([], rest) := by
    cases rest with
    | nil => rfl
    | cons b rest =>
      obtain ⟨-, -, he, hE⟩ := h b rfl
      rw [exponentPart.eq_def]
      dsimp only
      rw [if_neg (not_or.mpr ⟨he, hE⟩)]
  simp [unsignedNumber, hinteger, hfraction, hexponent]

private theorem numberLiteral_decimalInt (z : Int) {rest : Bytes} (h : Stops rest) :
    numberLiteral (decimalInt z ++ rest) = some (decimalInt z, rest) := by
  cases z with
  | ofNat n =>
    obtain ⟨c, tail, hcons, -⟩ := decimal_head n
    have hc : isDigit c = true := isDigit_decimal n c (by rw [hcons]; exact List.mem_cons_self)
    have hnumber := unsignedNumber_decimal n h
    show numberLiteral (decimal n ++ rest) = some (decimal n, rest)
    rw [hcons, List.cons_append] at hnumber ⊢
    rw [numberLiteral, hnumber]
    intro tail' heq
    rw [(List.cons.inj heq).1] at hc
    cases hc
  | negSucc n =>
    show (unsignedNumber (decimal (n + 1) ++ rest)).map (prepend [45]) = _
    rw [unsignedNumber_decimal (n + 1) h]
    rfl

/-- An integer starts with a digit or a minus sign. -/
theorem decimalInt_head (z : Int) : ∃ c tail, decimalInt z = c :: tail ∧ (isDigit c = true ∨ c = 45) := by
  cases z with
  | ofNat n =>
    obtain ⟨c, tail, hcons, -⟩ := decimal_head n
    exact ⟨c, tail, hcons, Or.inl (isDigit_decimal n c (by rw [hcons]; exact List.mem_cons_self))⟩
  | negSucc n => exact ⟨45, decimal (n + 1), rfl, Or.inr rfl⟩

private theorem value_number (z : Int) {rest : Bytes} (h : Stops rest) (fuel depth : Nat) :
    value (fuel + 1) depth (decimalInt z ++ rest) = some (.number (decimalInt z), rest) := by
  have hnumber := numberLiteral_decimalInt z h
  obtain ⟨c, tail, hcons, hc⟩ := decimalInt_head z
  have hplain : isSpace c = false ∧ c ≠ 123 ∧ c ≠ 91 ∧ c ≠ quote ∧ c ≠ 116 ∧ c ≠ 102 ∧ c ≠ 110 := by
    have hrange : 45 ≤ c.toNat ∧ c.toNat ≤ 57 := by
      rcases hc with hdigit | rfl
      · have hr := inRange_iff.mp hdigit
        omega
      · decide
    have hne : ∀ d : UInt8, (d.toNat < 45 ∨ 57 < d.toNat) → c ≠ d := by
      rintro d hd rfl
      omega
    refine ⟨?_, hne _ (by decide), hne _ (by decide), hne _ (by decide), hne _ (by decide),
      hne _ (by decide), hne _ (by decide)⟩
    simp [isSpace, hne 32 (by decide), hne 9 (by decide), hne 13 (by decide), hne 10 (by decide)]
  obtain ⟨hspace, hbrace, hbracket, hquote, ht, hf, hn⟩ := hplain
  rw [hcons, List.cons_append] at hnumber ⊢
  rw [value, token_cons hspace, if_neg hbrace, token_cons hspace, if_neg hbracket]
  simp only [scalar, skipSpace, List.dropWhile_cons, hspace, Bool.false_eq_true, if_false, hquote,
    ht, hf, hn, hnumber, Option.map_some]

/-! ## Reading a document -/

mutual

/-- The nesting of a document. -/
def Doc.height : Doc → Nat
  | .null => 0
  | .text _ => 0
  | .number _ => 0
  | .object ms => membersHeight ms + 1

def memberHeight : Bytes × Doc → Nat
  | (_, d) => d.height

def membersHeight : List (Bytes × Doc) → Nat
  | [] => 0
  | m :: ms => max (memberHeight m) (membersHeight ms)

end

/-- A property of all documents holds of an object if it holds of its members. -/
theorem Doc.induction {P : Doc → Prop} (null : P .null) (text : ∀ s, P (.text s))
    (number : ∀ z, P (.number z)) (object : ∀ ms, (∀ m ∈ ms, P m.2) → P (.object ms)) (d : Doc) : P d :=
  @Doc.rec P (fun ms => ∀ m ∈ ms, P m.2) (fun m => P m.2) null text number object
    (fun _ h => absurd h List.not_mem_nil) (fun _ _ hm hms => List.forall_mem_cons.mpr ⟨hm, hms⟩)
    (fun _ _ h => h) d

private theorem memberHeight_le {ms : List (Bytes × Doc)} {m : Bytes × Doc} (h : m ∈ ms) :
    m.2.height ≤ membersHeight ms := by
  induction ms with
  | nil => cases h
  | cons first ms ih =>
    obtain ⟨key, d⟩ := first
    rw [membersHeight, memberHeight]
    rcases List.mem_cons.mp h with rfl | h
    · exact Nat.le_max_left _ _
    · exact (ih h).trans (Nat.le_max_right _ _)

/-- Enough fuel is found once. -/
theorem value_enough {F depth : Nat} {s : Bytes} {r : Value × Bytes} (h : value F depth s = some r)
    {f : Nat} (hf : 2 * s.length + 2 ≤ f) : value f depth s = some r :=
  ((fuelFree F).value depth s r h).2 f hf

private theorem members_enough {F depth : Nat} {s : Bytes} {r : List (Bytes × Value) × Bytes}
    (h : members F depth s = some r) {f : Nat} (hf : 2 * s.length + 2 ≤ f) :
    members f depth s = some r :=
  ((fuelFree F).members depth s r h).2 f hf

private theorem value_spaces {ws : Bytes} (h : ∀ c ∈ ws, isSpace c = true) (fuel depth : Nat)
    (s : Bytes) :
    value fuel depth (ws ++ s) = value fuel depth s := by
  have hskip : skipSpace (ws ++ s) = skipSpace s := List.dropWhile_append_of_pos h
  cases fuel with
  | zero => rw [value, value]
  | succ fuel =>
    rw [value, value, token_spaces h, token_spaces h]
    simp only [scalar, hskip]

/-- A member is read, and then what follows it decides. -/
theorem members_member (l : Layout) (indent : Nat) {m : Bytes × Doc} {after : Bytes} {F depth : Nat}
    (hvalue : value F depth (m.2.write l indent ++ after) = some (m.2.value, after)) {f : Nat}
    (hf : 2 * (writeMember l indent m ++ after).length + 2 ≤ f) :
    members (f + 1) depth (writeMember l indent m ++ after) =
      match token 44 after with
      | some more => (members f depth more).map (fun ms => (memberValue m :: ms.1, ms.2))
      | none => (token 125 after).map (fun rest => ([memberValue m], rest)) := by
  obtain ⟨key, d⟩ := m
  have htext : writeMember l indent (key, d) ++ after = l.line indent ++
      quote :: (escapeText key.length key ++ quote :: 58 :: (l.gap ++ (d.write l indent ++ after))) := by
    simp only [writeMember, quoteText, List.append_assoc, List.cons_append, List.nil_append]
  have hf' : 2 * (d.write l indent ++ after).length + 2 ≤ f := by
    rw [htext] at hf
    simp only [List.length_append, List.length_cons] at hf ⊢
    omega
  rw [htext, members, token_spaces (l.line_space indent), token_cons rfl, if_pos rfl, Option.bind_some,
    stringBody_quoteText, Option.bind_some, token_cons rfl, if_pos rfl, Option.bind_some,
    value_spaces l.gap_space, value_enough hvalue hf', Option.bind_some]
  rfl

theorem stops_cons {b : UInt8} (h : isSpace b = true ∨ b = 44 ∨ b = 125) (rest : Bytes) :
    Stops (b :: rest) := by
  intro c hc
  obtain rfl := Option.some.inj hc
  simp only [isSpace, Bool.or_eq_true, beq_iff_eq] at h
  rcases h with (((rfl | rfl) | rfl) | rfl) | rfl | rfl <;> decide

/-- After the last member comes the closing brace, after some white space. -/
theorem stops_close {ws : Bytes} (h : ∀ c ∈ ws, isSpace c = true) (rest : Bytes) :
    Stops (ws ++ 125 :: rest) := by
  cases ws with
  | nil => exact stops_cons (Or.inr (Or.inr rfl)) rest
  | cons c ws => exact stops_cons (Or.inl (h c List.mem_cons_self)) _

/-- The members of an object, up to its closing brace. -/
theorem members_read (l : Layout) (indent outer depth : Nat) (rest : Bytes) (m : Bytes × Doc)
    (ms : List (Bytes × Doc))
    (hread : ∀ m' ∈ m :: ms, ∀ after, Stops after →
      ∃ F, value F depth (m'.2.write l indent ++ after) = some (m'.2.value, after)) :
    ∃ F, members F depth (writeMember l indent m ++ (writeMembers l indent ms ++
      (l.line outer ++ 125 :: rest))) = some (memberValues (m :: ms), rest) := by
  induction ms generalizing m with
  | nil =>
    obtain ⟨F, hF⟩ := hread m List.mem_cons_self _ (stops_close (l.line_space outer) rest)
    have hnil : writeMembers l indent [] = [] := by simp only [writeMembers]
    rw [hnil, List.nil_append]
    refine ⟨_, (members_member l indent hF (Nat.le_refl _)).trans ?_⟩
    rw [token_spaces (l.line_space outer), token_cons rfl, if_neg (by decide)]
    dsimp only
    rw [token_spaces (l.line_space outer), token_cons rfl, if_pos rfl]
    rfl
  | cons next ms ih =>
    obtain ⟨G, hG⟩ := ih next (fun m' hm' => hread m' (List.mem_cons_of_mem m hm'))
    have htext : writeMembers l indent (next :: ms) ++ (l.line outer ++ 125 :: rest) =
        44 :: (writeMember l indent next ++ (writeMembers l indent ms ++
          (l.line outer ++ 125 :: rest))) := by
      simp only [writeMembers, List.cons_append, List.append_assoc]
    rw [htext]
    obtain ⟨F, hF⟩ := hread m List.mem_cons_self _ (stops_cons (Or.inr (Or.inl rfl)) _)
    refine ⟨_, (members_member l indent hF (Nat.le_refl _)).trans ?_⟩
    have hmore := members_enough hG (f := 2 * (writeMember l indent m ++ 44 :: (writeMember l indent next ++
      (writeMembers l indent ms ++ (l.line outer ++ 125 :: rest)))).length + 2) (by
        simp only [List.length_append, List.length_cons]
        omega)
    rw [token_cons rfl, if_pos rfl]
    dsimp only
    rw [hmore]
    rfl

/-- A document is read from the text that it is written as. -/
theorem Doc.read (l : Layout) (d : Doc) (indent : Nat) {depth : Nat} (hdepth : d.height ≤ depth)
    {rest : Bytes} (hrest : Stops rest) :
    ∃ F, Json.value F depth (d.write l indent ++ rest) = some (d.value, rest) := by
  induction d using Doc.induction generalizing indent depth rest with
  | null =>
    refine ⟨1, ?_⟩
    rw [Doc.write]
    rfl
  | text s =>
    refine ⟨1, ?_⟩
    have htext : (Doc.text s).write l indent ++ rest =
        quote :: (escapeText s.length s ++ quote :: rest) := by
      simp only [Doc.write, quoteText, List.cons_append, List.append_assoc, List.nil_append]
    rw [htext, value_quote, stringBody_quoteText]
    rfl
  | number z => exact ⟨1, by rw [Doc.write]; exact value_number z hrest 0 depth⟩
  | object ms ih =>
    rw [Doc.height] at hdepth
    obtain ⟨depth, rfl⟩ : ∃ d, depth = d + 1 := ⟨depth - 1, by omega⟩
    cases ms with
    | nil =>
      refine ⟨1, ?_⟩
      show Json.value 1 (depth + 1) (123 :: 125 :: rest) = _
      rw [Json.value, token_cons rfl, if_pos rfl]
      simp only [bracketed, token_cons (show isSpace 125 = false from rfl), if_true]
      rfl
    | cons m ms =>
      have hread : ∀ m' ∈ m :: ms, ∀ after, Stops after → ∃ F,
          Json.value F depth (m'.2.write l (indent + 1) ++ after) = some (m'.2.value, after) := by
        intro m' hm' after hafter
        have hle := memberHeight_le hm'
        exact ih m' hm' (indent + 1) (by omega) hafter
      obtain ⟨F, hF⟩ := members_read l (indent + 1) indent depth rest m ms hread
      have htext : (Doc.object (m :: ms)).write l indent ++ rest =
          123 :: (writeMember l (indent + 1) m ++ (writeMembers l (indent + 1) ms ++
            (l.line indent ++ 125 :: rest))) := by
        simp only [Doc.write, List.cons_append, List.append_assoc, List.nil_append]
      refine ⟨F + 1, ?_⟩
      rw [htext, Json.value, token_cons rfl, if_pos rfl]
      have hopen : token 125 (writeMember l (indent + 1) m ++ (writeMembers l (indent + 1) ms ++
          (l.line indent ++ 125 :: rest))) = none := by
        obtain ⟨key, d⟩ := m
        simp only [writeMember, quoteText, List.append_assoc, List.cons_append]
        rw [token_spaces (l.line_space (indent + 1)), token_cons rfl, if_neg (by decide)]
      simp only [bracketed, hopen, hF, Option.map_some]
      rfl

/-- What is written can be parsed, and denotes the document. -/
theorem parse_write (l : Layout) (d : Doc) (hdepth : d.height ≤ maxNestingDepth) :
    parse (d.write l 0) = some d.value := by
  obtain ⟨F, hF⟩ := d.read l 0 hdepth (show Stops [] from fun _ h => by cases h)
  rw [List.append_nil] at hF
  exact parse_of_value hF rfl

end VRGram.Lib.Json
