import VRGram.Lib.JsonText
import VRGram.Lib.Paths

/-!
# Hexadecimal texts

`hex.DecodeString` takes the digits of both cases in pairs. A text that it accepts has no slash
and no dot in it, so it is the name of a file in whatever directory it is joined to.
-/
namespace VRGram.Lib.Hex

open VRGram.Lib.Strings VRGram.Lib.Json VRGram.Lib.Paths

set_option autoImplicit false

/-- `hex.DecodeString`. -/
def decodeString : Bytes → Option Bytes
  | [] => some []
  | [_] => none
  | a :: b :: rest =>
    match hexDigit a, hexDigit b with
    | some high, some low => (decodeString rest).map (octet (16 * high + low) :: ·)
    | _, _ => none

theorem hexEncode_length (b : Bytes) : (hexEncode b).length = 2 * b.length := by
  unfold hexEncode
  induction b with
  | nil => rfl
  | cons x rest ih =>
    rw [List.flatMap_cons, List.length_append, ih]
    simp
    omega

theorem hexDigit_hexDigitOf : ∀ d < 16, hexDigit (hexDigitOf d) = some d := by decide

theorem decodeString_hexEncode (b : Bytes) : decodeString (hexEncode b) = some b := by
  induction b with
  | nil => rfl
  | cons c rest ih =>
    have hlt := c.toNat_lt
    have hhigh := hexDigit_hexDigitOf (c.toNat / 16) (by omega)
    have hlow := hexDigit_hexDigitOf (c.toNat % 16) (by omega)
    have hoctet : octet (16 * (c.toNat / 16) + c.toNat % 16) = c := octet_eq (by omega)
    show decodeString (hexDigitOf (c.toNat / 16) :: hexDigitOf (c.toNat % 16) :: hexEncode rest) = _
    simp only [decodeString, hhigh, hlow, ih, Option.map_some, hoctet]

theorem hexEncode_inj {a b : Bytes} (h : hexEncode a = hexEncode b) : a = b := by
  have hdecoded := congrArg decodeString h
  rw [decodeString_hexEncode, decodeString_hexEncode] at hdecoded
  exact Option.some.inj hdecoded

private theorem isDigit_of_decodes {s b : Bytes} (h : decodeString s = some b) :
    ∀ c ∈ s, (hexDigit c).isSome = true := by
  induction s using decodeString.induct generalizing b with
  | case1 => exact fun c hc => absurd hc List.not_mem_nil
  | case2 => cases h
  | case3 x y rest high low hy hx ih =>
    simp only [decodeString, hx, hy, Option.map_eq_some_iff] at h
    obtain ⟨tail, htail, -⟩ := h
    refine List.forall_mem_cons.mpr ⟨by rw [hx]; rfl, List.forall_mem_cons.mpr ⟨by rw [hy]; rfl, ?_⟩⟩
    exact ih htail
  | case4 x y rest hbad =>
    simp only [decodeString] at h
    cases h

/-- What the decoder accepts is a file name, unless it is empty. -/
theorem properName_of_decodes {s b : Bytes} (h : decodeString s = some b) (hne : s ≠ []) :
    ProperName s := by
  have hdigits := isDigit_of_decodes h
  have hdot : hexDigit 46 = none := by decide
  have hslash : hexDigit slash = none := by decide
  have hnodot : (46 : UInt8) ∉ s := by
    intro hmem
    have hsome := hdigits 46 hmem
    rw [hdot] at hsome
    cases hsome
  refine ⟨hne, ?_, ?_, ?_⟩
  · rintro rfl
    exact hnodot (by decide)
  · rintro rfl
    exact hnodot (by decide)
  · intro hmem
    have hsome := hdigits slash hmem
    rw [hslash] at hsome
    cases hsome

theorem printable_hexEncode (b : Bytes) : Printable (hexEncode b) := by
  have hdigit : ∀ d < 16, Printable [hexDigitOf d] := by decide +kernel
  intro c hc
  obtain ⟨x, -, hx⟩ := List.mem_flatMap.mp hc
  have hlt := x.toNat_lt
  rcases List.mem_cons.mp hx with rfl | hx
  · exact hdigit _ (by omega) _ List.mem_cons_self
  · rw [List.mem_singleton.mp hx]
    exact hdigit _ (by omega) _ List.mem_cons_self

end VRGram.Lib.Hex
