import VRGram.Daemon.MediaFormat
import VRGram.Lib.JsonMap
import VRGram.Media.TcpTransport

/-!
# `MediaMessage.Marshal`

The metadata of a file as `encoding/json` writes it. A thumbnail is never set, so the two
fields about it are always omitted.
-/
namespace VRGram.Client

open VRGram.Lib VRGram.Lib.Strings VRGram.Lib.Json VRGram.Lib.Utf8 VRGram.Crypto

set_option autoImplicit false

/-! ## Documents on one line -/

private theorem newline_notMem_body {s : Bytes} (h : Body s) : newline ∉ s := by
  have hhex : ∀ c : UInt8, (hexDigit c).isSome = true → newline ≠ c := by
    rintro _ hc rfl
    exact absurd hc (by decide)
  induction h with
  | nil => exact List.not_mem_nil
  | char hquote hbackslash hcontrol hs ih =>
    rw [List.mem_cons, not_or]
    refine ⟨?_, ih⟩
    rintro rfl
    exact absurd hcontrol (by decide)
  | @escape e s he hs ih =>
    rw [List.mem_cons, List.mem_cons, not_or, not_or]
    refine ⟨by decide, ?_, ih⟩
    rintro rfl
    exact absurd he (by decide)
  | @unicode h1 h2 h3 h4 s hall hs ih =>
    simp only [List.all_cons, List.all_nil, Bool.and_true, Bool.and_eq_true] at hall
    obtain ⟨hh1, hh2, hh3, hh4⟩ := hall
    simp only [List.mem_cons, not_or]
    exact ⟨by decide, by decide, hhex h1 hh1, hhex h2 hh2, hhex h3 hh3, hhex h4 hh4, ih⟩

theorem newline_notMem_quoteText (s : Bytes) : newline ∉ quoteText s := by
  have hbody := newline_notMem_body (body_escapeText s.length s)
  simp only [quoteText, List.mem_cons, List.mem_append, List.not_mem_nil, or_false, not_or]
  exact ⟨by decide, hbody, by decide⟩

private theorem newline_notMem_decimalInt (z : Int) : newline ∉ decimalInt z := by
  have hdecimal : ∀ n : Nat, newline ∉ decimal n := by
    intro n h
    exact absurd (isDigit_decimal n newline h) (by decide)
  cases z with
  | ofNat n => exact hdecimal n
  | negSucc n =>
    rw [decimalInt, List.mem_cons, not_or]
    exact ⟨by decide, hdecimal _⟩

theorem newline_notMem_member {key : Bytes} {d : Doc} (depth : Nat)
    (h : newline ∉ d.write compact depth) : newline ∉ writeMember compact depth (key, d) := by
  simp only [writeMember, compact, List.nil_append, List.mem_append, List.mem_cons, not_or]
  exact ⟨newline_notMem_quoteText key, by decide, h⟩

/-- `json.Marshal` writes no line break. -/
theorem newline_notMem_write (d : Doc) (depth : Nat) : newline ∉ d.write compact depth := by
  induction d using Doc.induction generalizing depth with
  | null =>
    rw [Doc.write]
    decide
  | text s =>
    rw [Doc.write]
    exact newline_notMem_quoteText s
  | number z =>
    rw [Doc.write]
    exact newline_notMem_decimalInt z
  | object ms ih =>
    cases ms with
    | nil =>
      rw [Doc.write]
      decide
    | cons m ms =>
      obtain ⟨hm, hms⟩ := List.forall_mem_cons.mp ih
      have hrest : newline ∉ writeMembers compact (depth + 1) ms := by
        clear ih
        induction ms with
        | nil =>
          rw [writeMembers]
          exact List.not_mem_nil
        | cons m' ms ih =>
          obtain ⟨hm', hms'⟩ := List.forall_mem_cons.mp hms
          rw [writeMembers, List.mem_cons, List.mem_append, not_or, not_or]
          exact ⟨by decide, newline_notMem_member _ (hm' (depth + 1)), ih hms'⟩
      rw [Doc.write]
      simp only [List.mem_cons, List.mem_append, List.not_mem_nil, or_false, not_or]
      exact ⟨by decide, newline_notMem_member _ (hm (depth + 1)), hrest, List.not_mem_nil,
        by decide⟩

/-! ## The message -/

/-- Every field under its tag. -/
def mediaFields (info : Media.MediaMessage) : List (Bytes × Doc) :=
  [(lit "message_id", .text info.messageID), (lit "timestamp", .number info.timestamp),
    (lit "media_type", .number (mediaTypeNumber info.mediaType)),
    (lit "file_name", .text info.fileName), (lit "mime_type", .text info.mimeType),
    (lit "file_size", .number info.fileSize.toInt), (lit "file_key_b64", .text info.fileKeyB64),
    (lit "checksum", .text info.checksum), (lit "file_id", .text info.fileID)]

def isEmptyDoc : Doc → Bool
  | .text s => s.isEmpty
  | .number z => z == 0
  | _ => false

def marshalledFields (info : Media.MediaMessage) : List (Bytes × Doc) :=
  (mediaFields info).filter (fun f => alwaysWritten f.1 || !isEmptyDoc f.2)

/-- `MediaMessage.Marshal`, which never fails. -/
def marshalMedia (info : Media.MediaMessage) : Bytes :=
  (Doc.object (marshalledFields info)).write compact 0

structure Utf8Message (info : Media.MediaMessage) : Prop where
  messageID : WellFormed info.messageID
  fileName : WellFormed info.fileName
  mimeType : WellFormed info.mimeType
  fileKeyB64 : WellFormed info.fileKeyB64
  checksum : WellFormed info.checksum
  fileID : WellFormed info.fileID

private theorem decimalInt_eq_zero_iff (z : Int) : decimalInt z = lit "0" ↔ z = 0 := by
  constructor
  · intro h
    cases z with
    | ofNat n =>
      have hvalue := digitsValue_decimal n
      rw [show decimal n = lit "0" from h] at hvalue
      have hzero : n = 0 := hvalue.symm
      rw [hzero]
      rfl
    | negSucc n => exact absurd (List.cons.inj h).1 (by decide)
  · rintro rfl
    decide

private theorem isEmptyValue_value {d : Doc} (h : ∀ s, d = .text s → WellFormed s) :
    isEmptyValue d.value = isEmptyDoc d := by
  cases d with
  | null => rw [Doc.value]; rfl
  | text s =>
    rw [Doc.value, (reread_eq_self_iff s).mpr (h s rfl)]
    rfl
  | number z =>
    rw [Doc.value, isEmptyValue, isEmptyDoc, Bool.eq_iff_iff, beq_iff_eq, beq_iff_eq]
    exact decimalInt_eq_zero_iff z
  | object ms => rw [Doc.value]; rfl

theorem reread_mediaKey {key : Bytes} (h : key ∈ mediaKeys) : reread key = key := by
  have hall : ∀ key ∈ mediaKeys, WellFormed key := by decide
  exact (reread_eq_self_iff key).mpr (hall key h)

private theorem mediaFields_value {info : Media.MediaMessage} (h : Utf8Message info) :
    (mediaFields info).map memberValue = taggedFields info := by
  have hself : ∀ {s : Bytes}, WellFormed s → reread s = s := (reread_eq_self_iff _).mpr
  have hnat : ∀ n : Nat, decimalInt n = decimal n := fun _ => rfl
  simp only [mediaFields, taggedFields, List.map_cons, List.map_nil, memberValue, Doc.value,
    hself h.messageID, hself h.fileName, hself h.mimeType, hself h.fileKeyB64, hself h.checksum,
    hself h.fileID, reread_mediaKey (show lit "message_id" ∈ mediaKeys by decide),
    reread_mediaKey (show lit "timestamp" ∈ mediaKeys by decide),
    reread_mediaKey (show lit "media_type" ∈ mediaKeys by decide),
    reread_mediaKey (show lit "file_name" ∈ mediaKeys by decide),
    reread_mediaKey (show lit "mime_type" ∈ mediaKeys by decide),
    reread_mediaKey (show lit "file_size" ∈ mediaKeys by decide),
    reread_mediaKey (show lit "file_key_b64" ∈ mediaKeys by decide),
    reread_mediaKey (show lit "checksum" ∈ mediaKeys by decide),
    reread_mediaKey (show lit "file_id" ∈ mediaKeys by decide), hnat]

private theorem mediaFields_height (info : Media.MediaMessage) :
    ∀ f ∈ mediaFields info, f.2.height ≤ 0 := by
  simp [mediaFields, Doc.height]

private theorem marshalledFields_value {info : Media.MediaMessage} (h : Utf8Message info) :
    memberValues (marshalledFields info) = mediaMembers info := by
  have hkept : ∀ f ∈ mediaFields info, (alwaysWritten f.1 || !isEmptyDoc f.2) =
      (alwaysWritten (memberValue f).1 || !isEmptyValue (memberValue f).2) := by
    intro f hf
    obtain ⟨key, d⟩ := f
    have hkey : reread key = key := by
      have hmem : key ∈ (mediaFields info).map Prod.fst := List.mem_map.mpr ⟨(key, d), hf, rfl⟩
      exact reread_mediaKey hmem
    have htext : ∀ s, d = .text s → WellFormed s := by
      rintro s rfl
      simp only [mediaFields, List.mem_cons, Prod.mk.injEq, Doc.text.injEq, reduceCtorEq, and_false,
        List.not_mem_nil, or_false, false_or] at hf
      rcases hf with ⟨-, rfl⟩ | ⟨-, rfl⟩ | ⟨-, rfl⟩ | ⟨-, rfl⟩ | ⟨-, rfl⟩ | ⟨-, rfl⟩
      · exact h.messageID
      · exact h.fileName
      · exact h.mimeType
      · exact h.fileKeyB64
      · exact h.checksum
      · exact h.fileID
    rw [memberValue, hkey, isEmptyValue_value htext]
  rw [memberValues_eq_map, marshalledFields, List.filter_congr hkept, mediaMembers,
    ← mediaFields_value h, List.filter_map]
  rfl

/-- What `Marshal` writes is what the receiver takes for media metadata. -/
theorem marshals_marshalMedia {info : Media.MediaMessage} (h : Utf8Message info) :
    Marshals info (marshalMedia info) := by
  have hfirst : ∃ rest, marshalledFields info = (lit "message_id", .text info.messageID) ::
      (lit "timestamp", .number info.timestamp) :: rest := ⟨_, rfl⟩
  obtain ⟨rest, hfields⟩ := hfirst
  have hheight : (Doc.object (marshalledFields info)).height ≤ maxNestingDepth := by
    have hle : membersHeight (marshalledFields info) ≤ 0 := membersHeight_le (fun f hf =>
      mediaFields_height info f (List.mem_filter.mp hf).1)
    rw [Doc.height, maxNestingDepth]
    omega
  refine ⟨?_, newline_notMem_write _ _, ?_, ?_⟩
  · rw [marshalMedia, hfields, Doc.write]
    rfl
  · have hid : (quoteText (lit "message_id")).length = 12 := by decide +kernel
    have htime : (quoteText (lit "timestamp")).length = 11 := by decide +kernel
    rw [marshalMedia, hfields]
    simp only [Doc.write, writeMember, writeMembers, List.length_cons, List.length_append, hid,
      htime]
    omega
  · rw [unmarshal, marshalMedia, parse_write compact _ hheight, Doc.value]
    dsimp only
    rw [marshalledFields_value h]

end VRGram.Client
