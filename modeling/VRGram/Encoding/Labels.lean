import VRGram.Encoding.Chunk
import VRGram.Lib.Base32Hex

/-!
# The DNS label form of a chunk

`Chunk.EncodeToLabels` and `DecodeChunkFromLabels`. An optional leading label of 52
digits carries the recipient hash; the decoder recognises it by its length alone.
The base32 and big-endian round trips come from the library, so nothing about the
encoding is assumed.
-/
namespace VRGram.Encoding

open VRGram.Lib.Strings
open VRGram.Lib (Base32Hex.encodeToString Base32Hex.decodeString)

set_option autoImplicit false

abbrev b32 (b : Bytes) : Bytes := Base32Hex.encodeToString b
abbrev unb32 (s : Bytes) : Option Bytes := Base32Hex.decodeString s

/-- `EncodePayload`: the base32 text in labels of at most 63 characters. -/
def encodePayload (payload : Bytes) : List Bytes :=
  (List.range (((b32 payload).length + 62) / 63)).map (piece 63 (b32 payload))

/-- `DecodePayload`. -/
def decodePayload (labels : List Bytes) : Option Bytes := unb32 labels.flatten

/-- `binary.BigEndian.AppendUint16(nil, v)`. -/
def be16 (v : UInt16) : Bytes := be 2 v.toNat

/-- `binary.BigEndian.Uint16`. -/
def uint16OfBE (b : Bytes) : UInt16 := UInt16.ofNat (ofBE b)

/-- The labels of a chunk before the zone. -/
def Chunk.bodyLabels (c : Chunk) : List Bytes :=
  (if c.recipientHash.length > 0 then [b32 c.recipientHash] else []) ++
    [b32 c.msgID.val, b32 (be16 c.chunkIdx), b32 (be16 c.totalChunks), b32 (be16 c.checksum)] ++
    encodePayload c.payload

def Chunk.encodeToLabels (c : Chunk) (zone : Bytes) : List Bytes := c.bodyLabels ++ [zone]

/-- The fields that the decoder checks, in the order in which it reads them. -/
inductive Field where
  | recipientHash | msgID | chunkIdx | totalChunks | checksum | payload
  deriving DecidableEq

/-- The errors of `DecodeChunkFromLabels`. -/
inductive DecodeError where
  | tooFewLabels
  | zoneMismatch (got want : Bytes)
  | tooFewAfterRecipientHash
  | invalidBase32 (field : Field)
  | wrongLength (field : Field) (got want : Nat)
  deriving DecidableEq

/-- One fixed-size label: base32 of exactly `want` bytes. -/
def decodeField (field : Field) (want : Nat) (label : Bytes) :
    Except DecodeError { b : Bytes // b.length = want } :=
  match unb32 label with
  | none => .error (.invalidBase32 field)
  | some b => if h : b.length = want then .ok ⟨b, h⟩ else .error (.wrongLength field b.length want)

/-- The part of the decoder after the optional recipient hash. -/
def decodeFields (recipientHash : Bytes) : List Bytes → Except DecodeError Chunk
  | idLabel :: idxLabel :: totalLabel :: sumLabel :: payloadLabels => do
    let msgID ← decodeField .msgID 8 idLabel
    let idx ← decodeField .chunkIdx 2 idxLabel
    let total ← decodeField .totalChunks 2 totalLabel
    let sum ← decodeField .checksum 2 sumLabel
    match decodePayload payloadLabels with
    | none => .error (.invalidBase32 .payload)
    | some payload =>
      return { msgID := msgID
               chunkIdx := uint16OfBE idx.val
               totalChunks := uint16OfBE total.val
               checksum := uint16OfBE sum.val
               payload := payload
               recipientHash := recipientHash }
  | _ => .error .tooFewAfterRecipientHash

/-- The labels without the zone: at least four, and a first label of 52 characters
is a recipient hash. -/
def decodeBody (body : List Bytes) : Except DecodeError Chunk :=
  match body with
  | first :: rest =>
    if body.length < 4 then .error .tooFewLabels
    else if first.length = 52 then
      match decodeField .recipientHash 32 first with
      | .error e => .error e
      | .ok hash => decodeFields hash.val rest
    else decodeFields [] body
  | [] => .error .tooFewLabels

def decodeChunkFromLabels (labels : List Bytes) (zone : Bytes) : Except DecodeError Chunk :=
  if labels.length < 2 then .error .tooFewLabels
  else if labels.getLast? ≠ some zone then .error (.zoneMismatch (labels.getLast?.getD []) zone)
  else decodeBody labels.dropLast

/-! ## Field round trips -/

theorem unb32_b32 (b : Bytes) : unb32 (b32 b) = some b := Lib.Base32Hex.decode_encode b

theorem be16_length (v : UInt16) : (be16 v).length = 2 := be_length 2 v.toNat

private theorem uint16OfBE_be16 (v : UInt16) : uint16OfBE (be16 v) = v := by
  have h : v.toNat < 256 ^ 2 := v.toNat_lt
  rw [uint16OfBE, be16, ofBE_be_of_lt h, UInt16.ofNat_toNat]

theorem decodeField_b32 (field : Field) {want : Nat} {b : Bytes} (h : b.length = want) :
    decodeField field want (b32 b) = .ok ⟨b, h⟩ := by
  simp [decodeField, unb32_b32, h]

private theorem decodePayload_encodePayload (payload : Bytes) :
    decodePayload (encodePayload payload) = some payload := by
  have hcover : (b32 payload).length ≤ ((b32 payload).length + 62) / 63 * 63 := by omega
  rw [decodePayload, encodePayload, flatten_pieces_all hcover, unb32_b32]

private theorem decodeFields_encode (c : Chunk) :
    decodeFields c.recipientHash ([b32 c.msgID.val, b32 (be16 c.chunkIdx), b32 (be16 c.totalChunks),
      b32 (be16 c.checksum)] ++ encodePayload c.payload) = .ok c := by
  have hid := decodeField_b32 .msgID c.msgID.property
  have hidx := decodeField_b32 .chunkIdx (be16_length c.chunkIdx)
  have htot := decodeField_b32 .totalChunks (be16_length c.totalChunks)
  have hsum := decodeField_b32 .checksum (be16_length c.checksum)
  simp only [List.cons_append, List.nil_append, decodeFields, hid, hidx, htot, hsum, bind,
    Except.bind, decodePayload_encodePayload, uint16OfBE_be16]
  rfl

/-- A recipient hash is absent or a whole digest. -/
def Chunk.HashOk (c : Chunk) : Prop := c.recipientHash = [] ∨ c.recipientHash.length = 32

theorem b32_length (b : Bytes) : (b32 b).length = (8 * b.length + 4) / 5 :=
  Lib.Base32Hex.encode_length b

/-- The label form loses nothing. -/
theorem decodeBody_bodyLabels {c : Chunk} (h : c.HashOk) : decodeBody c.bodyLabels = .ok c := by
  have hc := decodeFields_encode c
  rcases h with hnone | hfull
  · rw [hnone] at hc
    have hid : (b32 c.msgID.val).length = 13 := by rw [b32_length, c.msgID.property]
    rw [Chunk.bodyLabels, hnone]
    simp only [List.length_nil, gt_iff_lt, Nat.lt_irrefl, if_false, List.nil_append,
      List.cons_append, decodeBody, hid] at hc ⊢
    rw [if_neg (by simp), if_neg (by decide)]
    exact hc
  · have hlen : (b32 c.recipientHash).length = 52 := by rw [b32_length, hfull]
    rw [Chunk.bodyLabels, if_pos (by omega)]
    simp only [List.cons_append, List.nil_append, decodeBody, hlen] at hc ⊢
    rw [if_neg (by simp), if_pos trivial, decodeField_b32 .recipientHash hfull]
    exact hc

private theorem decodeChunkFromLabels_append {body : List Bytes} (hne : body ≠ []) (zone : Bytes) :
    decodeChunkFromLabels (body ++ [zone]) zone = decodeBody body := by
  have hpos : 0 < body.length := List.length_pos_iff.mpr hne
  rw [decodeChunkFromLabels, if_neg (by simp; omega), if_neg (by simp), List.dropLast_concat]

theorem bodyLabels_ne_nil (c : Chunk) : c.bodyLabels ≠ [] := by
  simp [Chunk.bodyLabels]

theorem decode_encodeToLabels {c : Chunk} (h : c.HashOk) (zone : Bytes) :
    decodeChunkFromLabels (c.encodeToLabels zone) zone = .ok c := by
  rw [Chunk.encodeToLabels, decodeChunkFromLabels_append (bodyLabels_ne_nil c),
    decodeBody_bodyLabels h]

/-! ## What an accepted list of labels decodes to -/

theorem decodeFields_hash {hash : Bytes} {labels : List Bytes} {c : Chunk}
    (h : decodeFields hash labels = .ok c) : c.recipientHash = hash := by
  unfold decodeFields at h
  split at h
  · rename_i idLabel idxLabel totalLabel sumLabel payloadLabels
    cases hid : decodeField .msgID 8 idLabel with
    | error e => simp [hid, bind, Except.bind] at h
    | ok id =>
    cases hidx : decodeField .chunkIdx 2 idxLabel with
    | error e => simp [hid, hidx, bind, Except.bind] at h
    | ok idx =>
    cases htot : decodeField .totalChunks 2 totalLabel with
    | error e => simp [hid, hidx, htot, bind, Except.bind] at h
    | ok total =>
    cases hsum : decodeField .checksum 2 sumLabel with
    | error e => simp [hid, hidx, htot, hsum, bind, Except.bind] at h
    | ok sum =>
    simp only [hid, hidx, htot, hsum, bind, Except.bind] at h
    split at h
    · cases h
    · cases h
      rfl
  · cases h

private theorem decodeBody_hashOk {body : List Bytes} {c : Chunk} (h : decodeBody body = .ok c) :
    c.HashOk := by
  unfold decodeBody at h
  split at h
  · split at h
    · cases h
    · split at h
      · split at h
        · cases h
        · rename_i hash _
          exact Or.inr (by rw [decodeFields_hash h]; exact hash.property)
      · exact Or.inl (decodeFields_hash h)
  · cases h

theorem decodeChunk_hashOk {labels : List Bytes} {zone : Bytes} {c : Chunk}
    (h : decodeChunkFromLabels labels zone = .ok c) : c.HashOk := by
  unfold decodeChunkFromLabels at h
  split at h
  · cases h
  · split at h
    · cases h
    · exact decodeBody_hashOk h

/-- Whatever list of labels was accepted, its chunk is written in a form that decodes to it. -/
theorem decode_reencode {labels : List Bytes} {zone : Bytes} {c : Chunk}
    (h : decodeChunkFromLabels labels zone = .ok c) :
    decodeChunkFromLabels (c.encodeToLabels zone) zone = .ok c :=
  decode_encodeToLabels (decodeChunk_hashOk h) zone

/-! ## Bytes that no label contains -/

theorem notMem_bodyLabels {x : UInt8} (hx : ¬ Lib.Base32Hex.Alphabet x) (c : Chunk) :
    ∀ l ∈ c.bodyLabels, x ∉ l := by
  have hb : ∀ b : Bytes, x ∉ b32 b := Lib.Base32Hex.notMem_encode hx
  intro l hl
  simp only [Chunk.bodyLabels, List.mem_append, List.mem_cons, List.not_mem_nil, or_false] at hl
  rcases hl with (h | h | h | h | h) | h
  · split at h
    · rw [List.mem_singleton.mp h]; exact hb _
    · cases h
  · rw [h]; exact hb _
  · rw [h]; exact hb _
  · rw [h]; exact hb _
  · rw [h]; exact hb _
  · obtain ⟨i, _, rfl⟩ := List.mem_map.mp h
    exact fun hm => hb _ (List.mem_of_mem_drop (List.mem_of_mem_take hm))

/-! ## No label is empty -/

theorem b32_ne_nil {b : Bytes} (h : b ≠ []) : b32 b ≠ [] := by
  have hpos : 0 < b.length := List.length_pos_iff.mpr h
  have hlen := b32_length b
  intro hn
  rw [hn, List.length_nil] at hlen
  omega

private theorem encodePayload_ne_nil (payload : Bytes) : ∀ l ∈ encodePayload payload, l ≠ [] := by
  intro l hl
  obtain ⟨i, hi, rfl⟩ := List.mem_map.mp hl
  have hi' := List.mem_range.mp hi
  intro hn
  have hlen := congrArg List.length hn
  rw [piece, List.length_take, List.length_drop, List.length_nil] at hlen
  omega

theorem bodyLabels_all_ne_nil (c : Chunk) : ∀ l ∈ c.bodyLabels, l ≠ [] := by
  have h16 : ∀ v, b32 (be16 v) ≠ [] := by
    intro v
    apply b32_ne_nil
    intro hn
    have hlen := be16_length v
    rw [hn] at hlen
    cases hlen
  intro l hl
  simp only [Chunk.bodyLabels, List.mem_append, List.mem_cons, List.not_mem_nil, or_false] at hl
  rcases hl with (h | h | h | h | h) | h
  · split at h
    · rename_i hpos
      rw [List.mem_singleton.mp h]
      exact b32_ne_nil (List.length_pos_iff.mp hpos)
    · cases h
  · rw [h]
    apply b32_ne_nil
    intro hn
    have hlen := c.msgID.property
    rw [hn] at hlen
    cases hlen
  · rw [h]; exact h16 _
  · rw [h]; exact h16 _
  · rw [h]; exact h16 _
  · exact encodePayload_ne_nil c.payload l h

/-! ## How long the labels are -/

private theorem encodePayload_length_le (payload : Bytes) :
    ∀ l ∈ encodePayload payload, l.length ≤ 63 := by
  intro l hl
  obtain ⟨i, -, rfl⟩ := List.mem_map.mp hl
  rw [piece, List.length_take]
  omega

private theorem encodePayload_count (payload : Bytes) :
    (encodePayload payload).length = ((b32 payload).length + 62) / 63 := by
  rw [encodePayload, List.length_map, List.length_range]

private theorem encodePayload_sum (payload : Bytes) :
    ((encodePayload payload).map List.length).sum = (b32 payload).length := by
  have hcover : (b32 payload).length ≤ ((b32 payload).length + 62) / 63 * 63 := by omega
  have hflat : (encodePayload payload).flatten = b32 payload := by
    rw [encodePayload, flatten_pieces_all hcover]
  rw [← List.length_flatten, hflat]

/-- No label of a chunk exceeds 63 characters. -/
theorem bodyLabels_length_le {c : Chunk} (h : c.HashOk) : ∀ l ∈ c.bodyLabels, l.length ≤ 63 := by
  have h16 : ∀ v, (b32 (be16 v)).length = 4 := fun v => by rw [b32_length, be16_length]
  have hid : (b32 c.msgID.val).length = 13 := by rw [b32_length, c.msgID.property]
  intro l hl
  simp only [Chunk.bodyLabels, List.mem_append, List.mem_cons, List.not_mem_nil, or_false] at hl
  rcases hl with (hl | rfl | rfl | rfl | rfl) | hl
  · split at hl
    · rename_i hpos
      rw [List.mem_singleton.mp hl, b32_length]
      rcases h with h | h
      · rw [h] at hpos
        cases hpos
      · rw [h]
        omega
    · cases hl
  · omega
  · rw [h16]; omega
  · rw [h16]; omega
  · rw [h16]; omega
  · exact encodePayload_length_le c.payload l hl

/-- The labels of a chunk for a recipient: their number and their total length. -/
theorem bodyLabels_extent {c : Chunk} (h : c.recipientHash.length = 32) :
    c.bodyLabels.length = 5 + ((b32 c.payload).length + 62) / 63 ∧
    (c.bodyLabels.map List.length).sum = 77 + (b32 c.payload).length := by
  have h16 : ∀ v, (b32 (be16 v)).length = 4 := fun v => by rw [b32_length, be16_length]
  have hid : (b32 c.msgID.val).length = 13 := by rw [b32_length, c.msgID.property]
  have hhash : (b32 c.recipientHash).length = 52 := by rw [b32_length, h]
  rw [Chunk.bodyLabels, if_pos (by omega)]
  constructor
  · simp only [List.length_append, List.length_cons, List.length_nil, encodePayload_count]
  · simp only [List.map_append, List.map_cons, List.map_nil, List.sum_append, List.sum_cons,
      List.sum_nil, hhash, hid, h16, encodePayload_sum]
    omega

/-- The first label has the length of a digest or of a message id. -/
theorem bodyLabels_head {c : Chunk} (h : c.HashOk) :
    ∃ first rest, c.bodyLabels = first :: rest ∧ (first.length = 52 ∨ first.length = 13) := by
  rcases h with hnone | hfull
  · refine ⟨b32 c.msgID.val, _, by rw [Chunk.bodyLabels, hnone]; rfl, Or.inr ?_⟩
    rw [b32_length, c.msgID.property]
  · refine ⟨b32 c.recipientHash, _, by rw [Chunk.bodyLabels, if_pos (by omega)]; rfl, Or.inl ?_⟩
    rw [b32_length, hfull]

end VRGram.Encoding
