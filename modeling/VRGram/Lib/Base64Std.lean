import VRGram.Lib.Strings

/-!
# Standard base64

`base64.StdEncoding`: three octets are four digits, and a final group of one or
two octets is padded with `=`. The decoder drops CR and LF, requires the padding,
ignores the unused low bits of a padded group and, on corrupt input, returns the
octets of the groups read so far together with the error.
-/
namespace VRGram.Lib.Base64Std

open VRGram.Lib.Strings

set_option autoImplicit false

/-- Digit `d` of `A–Z a–z 0–9 + /`. -/
def digit (d : Nat) : UInt8 :=
  if d < 26 then UInt8.ofNat (65 + d)
  else if d < 52 then UInt8.ofNat (71 + d)
  else if d < 62 then UInt8.ofNat (d - 4)
  else if d = 62 then 43 else 47

def undigit (c : UInt8) : Option Nat :=
  if 65 ≤ c.toNat ∧ c.toNat ≤ 90 then some (c.toNat - 65)
  else if 97 ≤ c.toNat ∧ c.toNat ≤ 122 then some (c.toNat - 71)
  else if 48 ≤ c.toNat ∧ c.toNat ≤ 57 then some (c.toNat + 4)
  else if c = 43 then some 62
  else if c = 47 then some 63
  else none

/-- The padding byte `=`. -/
def pad : UInt8 := 61

def encodeToString : Bytes → Bytes
  | a :: b :: c :: rest =>
    digit (a.toNat / 4) :: digit (a.toNat % 4 * 16 + b.toNat / 16) ::
      digit (b.toNat % 16 * 4 + c.toNat / 64) :: digit (c.toNat % 64) :: encodeToString rest
  | [a, b] =>
    [digit (a.toNat / 4), digit (a.toNat % 4 * 16 + b.toNat / 16), digit (b.toNat % 16 * 4), pad]
  | [a] => [digit (a.toNat / 4), digit (a.toNat % 4 * 16), pad, pad]
  | [] => []

/-- Decode a text without line breaks: the octets, and whether there was no error. -/
def decodeQuanta : Bytes → Bytes × Bool
  | [] => ([], true)
  | p :: q :: r :: s :: rest =>
    match undigit p, undigit q, undigit r, undigit s with
    | some p, some q, some r, some s =>
      let tail := decodeQuanta rest
      (octet (p * 4 + q / 16) :: octet (q * 16 + r / 4) :: octet (r * 64 + s) :: tail.1, tail.2)
    | some p, some q, some r, none =>
      if s = pad then ([octet (p * 4 + q / 16), octet (q * 16 + r / 4)], rest.isEmpty)
      else ([], false)
    | some p, some q, none, _ =>
      if r = pad ∧ s = pad then ([octet (p * 4 + q / 16)], rest.isEmpty) else ([], false)
    | _, _, _, _ => ([], false)
  | _ => ([], false)

/-- `StdEncoding.DecodeString` with both of its results. -/
def decode (s : Bytes) : Bytes × Bool := decodeQuanta (s.filter (fun c => !isNewline c))

/-- `StdEncoding.DecodeString` for callers that stop on an error. -/
def decodeString (s : Bytes) : Option Bytes := if (decode s).2 then some (decode s).1 else none

theorem digit_toNat {d : Nat} (h : d < 64) : (digit d).toNat =
    if d < 26 then 65 + d else if d < 52 then 71 + d else if d < 62 then d - 4
    else if d = 62 then 43 else 47 := by
  unfold digit
  split
  · rw [UInt8.toNat_ofNat_of_lt' (by simp only [UInt8.size]; omega)]
  · split
    · rw [UInt8.toNat_ofNat_of_lt' (by simp only [UInt8.size]; omega)]
    · split
      · rw [UInt8.toNat_ofNat_of_lt' (by simp only [UInt8.size]; omega)]
      · split <;> rfl

theorem undigit_digit {d : Nat} (h : d < 64) : undigit (digit d) = some d := by
  revert d
  decide

theorem undigit_pad : undigit pad = none := by decide

/-- The bytes an encoding can hold. -/
def Alphabet (c : UInt8) : Prop := (undigit c).isSome ∨ c = pad

instance : DecidablePred Alphabet := fun _ => inferInstanceAs (Decidable (_ ∨ _))

theorem digit_alphabet {d : Nat} (h : d < 64) : Alphabet (digit d) := by
  rw [Alphabet, undigit_digit h]
  simp

theorem encode_alphabet (b : Bytes) : ∀ c ∈ encodeToString b, Alphabet c := by
  have hpad : Alphabet pad := Or.inr rfl
  fun_induction encodeToString b with
  | case1 a b c rest ih =>
    have ha := a.toNat_lt; have hb := b.toNat_lt; have hc := c.toNat_lt
    simp only [List.mem_cons]
    rintro x (rfl | rfl | rfl | rfl | hx)
    case inr.inr.inr.inr => exact ih x hx
    all_goals exact digit_alphabet (by omega)
  | case2 a b =>
    have ha := a.toNat_lt; have hb := b.toNat_lt
    simp only [List.mem_cons, List.not_mem_nil, or_false]
    rintro x (rfl | rfl | rfl | rfl)
    case inr.inr.inr => exact hpad
    all_goals exact digit_alphabet (by omega)
  | case3 a =>
    have ha := a.toNat_lt
    simp only [List.mem_cons, List.not_mem_nil, or_false]
    rintro x (rfl | rfl | rfl | rfl)
    case inr.inr.inl => exact hpad
    case inr.inr.inr => exact hpad
    all_goals exact digit_alphabet (by omega)
  | case4 => simp

theorem notMem_encode {c : UInt8} (h : ¬ Alphabet c) (b : Bytes) : c ∉ encodeToString b :=
  fun hc => h (encode_alphabet b c hc)

private theorem decodeQuanta_encode (b : Bytes) : decodeQuanta (encodeToString b) = (b, true) := by
  fun_induction encodeToString b with
  | case1 a b c rest ih =>
    have ha := a.toNat_lt; have hb := b.toNat_lt; have hc := c.toNat_lt
    simp only [decodeQuanta]
    rw [undigit_digit (by omega), undigit_digit (by omega), undigit_digit (by omega),
      undigit_digit (by omega)]
    simp only [ih]
    rw [octet_eq (a := a) (by omega), octet_eq (a := b) (by omega), octet_eq (a := c) (by omega)]
  | case2 a b =>
    have ha := a.toNat_lt; have hb := b.toNat_lt
    simp only [decodeQuanta]
    rw [undigit_digit (by omega), undigit_digit (by omega), undigit_digit (by omega), undigit_pad]
    simp only [if_pos, List.isEmpty_nil]
    rw [octet_eq (a := a) (by omega), octet_eq (a := b) (by omega)]
  | case3 a =>
    have ha := a.toNat_lt
    simp only [decodeQuanta]
    rw [undigit_digit (by omega), undigit_digit (by omega), undigit_pad]
    simp only [and_self, if_pos, List.isEmpty_nil]
    rw [octet_eq (a := a) (by omega)]
  | case4 => rfl

theorem decode_encode (b : Bytes) : decode (encodeToString b) = (b, true) := by
  have hf : (encodeToString b).filter (fun c => !isNewline c) = encodeToString b := by
    rw [List.filter_eq_self]
    intro c hc
    have ha := encode_alphabet b c hc
    simp only [isNewline, Bool.not_eq_true', Bool.or_eq_false_iff, beq_eq_false_iff_ne]
    constructor <;>
    · rintro rfl
      revert ha
      decide
  rw [decode, hf, decodeQuanta_encode]

theorem decodeString_encode (b : Bytes) : decodeString (encodeToString b) = some b := by
  simp [decodeString, decode_encode]

theorem encode_length (b : Bytes) : (encodeToString b).length = 4 * ((b.length + 2) / 3) := by
  fun_induction encodeToString b with
  | case1 a b c rest ih =>
    simp only [List.length_cons, ih]
    omega
  | _ => simp

/-- Four characters give three octets at most. -/
theorem decodeQuanta_length (s : Bytes) : (decodeQuanta s).1.length ≤ 3 * (s.length / 4) := by
  fun_induction decodeQuanta s with
  | case1 => exact Nat.zero_le _
  | case2 =>
    rename_i tail ih
    simp only [List.length_cons, tail]
    omega
  | case3 =>
    simp only [List.length_cons, List.length_nil]
    omega
  | case5 =>
    simp only [List.length_cons, List.length_nil]
    omega
  | _ => exact Nat.zero_le _

theorem decodeString_length {s b : Bytes} (h : decodeString s = some b) :
    b.length ≤ 3 * (s.length / 4) := by
  unfold decodeString at h
  split at h
  · obtain rfl := Option.some.inj h
    have hquanta := decodeQuanta_length (s.filter (fun c => !isNewline c))
    have hfilter := List.length_filter_le (fun c => !isNewline c) s
    have hdiv := Nat.div_le_div_right (c := 4) hfilter
    exact hquanta.trans (Nat.mul_le_mul_left 3 hdiv)
  · cases h

end VRGram.Lib.Base64Std
