import VRGram.Lib.Strings

/-!
# Base32 with the extended hex alphabet and no padding

`base32.HexEncoding.WithPadding(base32.NoPadding)`. Five octets are one quantum
of eight digits; a final group of 1, 2, 3 or 4 octets takes 2, 4, 5 or 7 digits.
The decoder drops CR and LF, rejects every other byte outside the alphabet and
ignores the unused low bits of a final group. A final group of 1, 3 or 6 digits
holds no complete encoding and contributes no octet, without an error.
-/
namespace VRGram.Lib.Base32Hex

open VRGram.Lib.Strings

set_option autoImplicit false

/-- Digit `d` of `0123456789ABCDEFGHIJKLMNOPQRSTUV`. -/
def digit (d : Nat) : UInt8 := if d < 10 then UInt8.ofNat (48 + d) else UInt8.ofNat (55 + d)

def undigit (c : UInt8) : Option Nat :=
  if 48 ≤ c.toNat ∧ c.toNat ≤ 57 then some (c.toNat - 48)
  else if 65 ≤ c.toNat ∧ c.toNat ≤ 86 then some (c.toNat - 55)
  else none

def encodeDigits : Bytes → List Nat
  | a :: b :: c :: d :: e :: rest =>
    a.toNat / 8 :: (a.toNat % 8 * 4 + b.toNat / 64) :: b.toNat / 2 % 32 ::
      (b.toNat % 2 * 16 + c.toNat / 16) :: (c.toNat % 16 * 2 + d.toNat / 128) ::
      d.toNat / 4 % 32 :: (d.toNat % 4 * 8 + e.toNat / 32) :: e.toNat % 32 :: encodeDigits rest
  | [a, b, c, d] =>
    [a.toNat / 8, a.toNat % 8 * 4 + b.toNat / 64, b.toNat / 2 % 32,
      b.toNat % 2 * 16 + c.toNat / 16, c.toNat % 16 * 2 + d.toNat / 128, d.toNat / 4 % 32,
      d.toNat % 4 * 8]
  | [a, b, c] =>
    [a.toNat / 8, a.toNat % 8 * 4 + b.toNat / 64, b.toNat / 2 % 32,
      b.toNat % 2 * 16 + c.toNat / 16, c.toNat % 16 * 2]
  | [a, b] =>
    [a.toNat / 8, a.toNat % 8 * 4 + b.toNat / 64, b.toNat / 2 % 32, b.toNat % 2 * 16]
  | [a] => [a.toNat / 8, a.toNat % 8 * 4]
  | [] => []

def decodeDigits : List Nat → Bytes
  | p :: q :: r :: s :: t :: u :: v :: w :: rest =>
    octet (p * 8 + q / 4) :: octet (q * 64 + r * 2 + s / 16) :: octet (s * 16 + t / 2) ::
      octet (t * 128 + u * 4 + v / 8) :: octet (v * 32 + w) :: decodeDigits rest
  | [p, q, r, s, t, u, v] =>
    [octet (p * 8 + q / 4), octet (q * 64 + r * 2 + s / 16), octet (s * 16 + t / 2),
      octet (t * 128 + u * 4 + v / 8)]
  | [p, q, r, s, t] =>
    [octet (p * 8 + q / 4), octet (q * 64 + r * 2 + s / 16), octet (s * 16 + t / 2)]
  | [p, q, r, s] => [octet (p * 8 + q / 4), octet (q * 64 + r * 2 + s / 16)]
  | [p, q] => [octet (p * 8 + q / 4)]
  | _ => []

def encodeToString (b : Bytes) : Bytes := (encodeDigits b).map digit

/-- `none` stands for `CorruptInputError`. -/
def decodeString (s : Bytes) : Option Bytes :=
  ((s.filter (fun c => !isNewline c)).mapM undigit).map decodeDigits

theorem encodeDigits_lt (b : Bytes) : ∀ d ∈ encodeDigits b, d < 32 := by
  fun_induction encodeDigits b with
  | case1 a b c d e rest ih =>
    have ha := a.toNat_lt; have hb := b.toNat_lt; have hc := c.toNat_lt
    have hd := d.toNat_lt; have he := e.toNat_lt
    intro x hx
    simp only [List.mem_cons] at hx
    rcases hx with h | h | h | h | h | h | h | h | h
    case inr.inr.inr.inr.inr.inr.inr.inr => exact ih x h
    all_goals omega
  | case2 a b c d =>
    have ha := a.toNat_lt; have hb := b.toNat_lt; have hc := c.toNat_lt; have hd := d.toNat_lt
    simp only [List.mem_cons, List.not_mem_nil, or_false]
    omega
  | case3 a b c =>
    have ha := a.toNat_lt; have hb := b.toNat_lt; have hc := c.toNat_lt
    simp only [List.mem_cons, List.not_mem_nil, or_false]
    omega
  | case4 a b =>
    have ha := a.toNat_lt; have hb := b.toNat_lt
    simp only [List.mem_cons, List.not_mem_nil, or_false]
    omega
  | case5 a =>
    have ha := a.toNat_lt
    simp only [List.mem_cons, List.not_mem_nil, or_false]
    omega
  | case6 => simp

private theorem decodeDigits_encodeDigits (b : Bytes) : decodeDigits (encodeDigits b) = b := by
  fun_induction encodeDigits b with
  | case1 a b c d e rest ih =>
    have ha := a.toNat_lt; have hb := b.toNat_lt; have hc := c.toNat_lt
    have hd := d.toNat_lt; have he := e.toNat_lt
    rw [decodeDigits, ih, octet_eq (a := a) (by omega), octet_eq (a := b) (by omega),
      octet_eq (a := c) (by omega), octet_eq (a := d) (by omega), octet_eq (a := e) (by omega)]
  | case2 a b c d =>
    have ha := a.toNat_lt; have hb := b.toNat_lt; have hc := c.toNat_lt; have hd := d.toNat_lt
    rw [decodeDigits, octet_eq (a := a) (by omega), octet_eq (a := b) (by omega),
      octet_eq (a := c) (by omega), octet_eq (a := d) (by omega)]
  | case3 a b c =>
    have ha := a.toNat_lt; have hb := b.toNat_lt; have hc := c.toNat_lt
    rw [decodeDigits, octet_eq (a := a) (by omega), octet_eq (a := b) (by omega),
      octet_eq (a := c) (by omega)]
  | case4 a b =>
    have ha := a.toNat_lt; have hb := b.toNat_lt
    rw [decodeDigits, octet_eq (a := a) (by omega), octet_eq (a := b) (by omega)]
  | case5 a =>
    have ha := a.toNat_lt
    rw [decodeDigits, octet_eq (a := a) (by omega)]
  | case6 => rfl

private theorem encodeDigits_length (b : Bytes) :
    (encodeDigits b).length = (8 * b.length + 4) / 5 := by
  fun_induction encodeDigits b with
  | case1 a b c d e rest ih =>
    simp only [List.length_cons, ih]
    omega
  | _ => simp

theorem digit_toNat {d : Nat} (h : d < 32) :
    (digit d).toNat = if d < 10 then 48 + d else 55 + d := by
  unfold digit
  split
  · rw [UInt8.toNat_ofNat_of_lt' (by simp only [UInt8.size]; omega)]
  · rw [UInt8.toNat_ofNat_of_lt' (by simp only [UInt8.size]; omega)]

theorem undigit_digit {d : Nat} (h : d < 32) : undigit (digit d) = some d := by
  unfold undigit
  rw [digit_toNat h]
  by_cases hd : d < 10
  · rw [if_pos hd, if_pos (by omega)]
    congr 1; omega
  · rw [if_neg hd, if_neg (by omega), if_pos (by omega)]
    congr 1; omega

/-- Every byte of an encoding is a digit or a capital letter up to `V`. -/
def Alphabet (c : UInt8) : Prop := (48 ≤ c.toNat ∧ c.toNat ≤ 57) ∨ (65 ≤ c.toNat ∧ c.toNat ≤ 86)

instance : DecidablePred Alphabet := fun _ => inferInstanceAs (Decidable (_ ∨ _))

theorem encode_alphabet (b : Bytes) : ∀ c ∈ encodeToString b, Alphabet c := by
  intro c hc
  obtain ⟨d, hd, rfl⟩ := List.mem_map.mp hc
  have hlt := encodeDigits_lt b d hd
  unfold Alphabet
  rw [digit_toNat hlt]
  split <;> omega

/-- No byte outside the alphabet occurs in an encoding; callers use it for dots and colons. -/
theorem notMem_encode {c : UInt8} (h : ¬ Alphabet c) (b : Bytes) : c ∉ encodeToString b :=
  fun hc => h (encode_alphabet b c hc)

theorem encode_length (b : Bytes) : (encodeToString b).length = (8 * b.length + 4) / 5 := by
  rw [encodeToString, List.length_map, encodeDigits_length]

private theorem mapM_undigit {ds : List Nat} (h : ∀ d ∈ ds, d < 32) :
    (ds.map digit).mapM undigit = some ds := by
  induction ds with
  | nil => rfl
  | cons d ds ih =>
    have hd := undigit_digit (h d (by simp))
    have ht := ih (fun x hx => h x (by simp [hx]))
    simp [List.mapM_cons, hd, ht]

theorem decode_encode (b : Bytes) : decodeString (encodeToString b) = some b := by
  have hf : (encodeToString b).filter (fun c => !isNewline c) = encodeToString b := by
    rw [List.filter_eq_self]
    intro c hc
    have ha := encode_alphabet b c hc
    simp only [isNewline, Bool.not_eq_true', Bool.or_eq_false_iff, beq_eq_false_iff_ne]
    constructor <;>
    · rintro rfl
      revert ha
      decide
  rw [decodeString, hf, encodeToString, mapM_undigit (encodeDigits_lt b), Option.map_some,
    decodeDigits_encodeDigits]

private theorem undigit_eq_none {c : UInt8} (h : ¬ Alphabet c) : undigit c = none := by
  unfold Alphabet at h
  rw [undigit, if_neg (fun hc => h (.inl hc)), if_neg (fun hc => h (.inr hc))]

/-- A byte outside the alphabet that is no line break makes the decoder fail. -/
theorem decode_eq_none {s : Bytes} {c : UInt8} (hc : c ∈ s) (hline : isNewline c = false)
    (h : ¬ Alphabet c) : decodeString s = none := by
  have hmem : c ∈ s.filter (fun c => !isNewline c) := List.mem_filter.mpr ⟨hc, by simp [hline]⟩
  have hmap : (s.filter (fun c => !isNewline c)).mapM undigit = none := by
    generalize s.filter (fun c => !isNewline c) = digits at hmem
    induction digits with
    | nil => cases hmem
    | cons d digits ih =>
      rcases List.mem_cons.mp hmem with rfl | hrest
      · simp [List.mapM_cons, undigit_eq_none h]
      · simp [List.mapM_cons, ih hrest]
  rw [decodeString, hmap, Option.map_none]

end VRGram.Lib.Base32Hex
