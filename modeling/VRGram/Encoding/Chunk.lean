import VRGram.Lib.Strings

/-!
# Chunks: splitting a message and putting it back together

`encoding.ChunkMessage` and `encoding.ReassembleMessage` with the CRC that ties
them. Go's `int` is `Int64`, so the chunk count is computed in wrapping arithmetic
exactly as the source does it; `uint16` conversions truncate. SHA-256 is a
parameter with a 32-byte result.
-/
namespace VRGram.Encoding

open VRGram.Lib.Strings

set_option autoImplicit false

/-- `[8]byte`. -/
abbrev MsgID := { b : Bytes // b.length = 8 }

/-- `[32]byte`, the result of `sha256.Sum256`. -/
abbrev Digest := { b : Bytes // b.length = 32 }

structure Chunk where
  msgID : MsgID
  chunkIdx : UInt16
  totalChunks : UInt16
  checksum : UInt16
  payload : Bytes
  /-- SHA-256 of the recipient's key; empty when the chunk names no recipient. -/
  recipientHash : Bytes
  deriving DecidableEq

/-- One round of the inner loop of `crc16`. -/
def crcBit (crc : UInt16) : UInt16 :=
  if crc &&& 0x8000 ≠ 0 then (crc <<< 1) ^^^ 0x1021 else crc <<< 1

def crcByte (crc : UInt16) (b : UInt8) : UInt16 :=
  Nat.iterate crcBit 8 (crc ^^^ (b.toUInt16 <<< 8))

/-- CRC-16/CCITT with both the initial value and the result complemented. -/
def crc16 (data : Bytes) : UInt16 := data.foldl crcByte 0xFFFF ^^^ 0xFFFF

def newChunk (msgID : MsgID) (idx total : UInt16) (payload : Bytes) : Chunk where
  msgID := msgID
  chunkIdx := idx
  totalChunks := total
  checksum := crc16 payload
  payload := payload
  recipientHash := []

section ChunkMessage

variable (sha256 : Bytes → Digest)

/-- The hash put into every chunk: none for the empty recipient. -/
def recipientHashOf (recipientPubkey : Bytes) : Bytes :=
  if recipientPubkey = [] then [] else (sha256 recipientPubkey).val

def chunkSizeOf (maxChunkSize : Int64) : Int64 := if maxChunkSize ≤ 0 then 220 else maxChunkSize

/-- `total := (len(plaintext) + maxChunkSize - 1) / maxChunkSize`. -/
def chunkTotal (len maxChunkSize : Int64) : Int64 := (len + maxChunkSize - 1) / maxChunkSize

/-- `plaintext[start:end]`. -/
def slice (plaintext : Bytes) (start stop : Int64) : Bytes :=
  (plaintext.take stop.toNatClampNeg).drop start.toNatClampNeg

/-- The body of the loop of `ChunkMessage` at index `i`. -/
def chunkAt (msgID : MsgID) (plaintext : Bytes) (maxChunkSize total : Int64)
    (recipientHash : Bytes) (i : Nat) : Chunk :=
  let start := Int64.ofNat i * maxChunkSize
  let stop := start + maxChunkSize
  let stop := if stop > Int64.ofNat plaintext.length then Int64.ofNat plaintext.length else stop
  { newChunk msgID (UInt16.ofNat i) (UInt16.ofNat total.toNatClampNeg) (slice plaintext start stop)
    with recipientHash := recipientHash }

/-- `none` is the run-time panic of `make` with a negative capacity. -/
def chunkMessage (msgID : MsgID) (plaintext : Bytes) (maxChunkSize : Int64)
    (recipientPubkey : Bytes) : Option (List Chunk) :=
  let size := chunkSizeOf maxChunkSize
  let total := chunkTotal (Int64.ofNat plaintext.length) size
  if total < 0 then none
  else some ((List.range total.toNatClampNeg).map
    (chunkAt msgID plaintext size total (recipientHashOf sha256 recipientPubkey)))

end ChunkMessage

/-- The errors of `ReassembleMessage`, with the values their texts print. -/
inductive ReassembleError where
  | noChunks
  | countMismatch (expected got : Nat)
  | indexOutOfRange (idx : UInt16)
  | duplicateIndex (idx : UInt16)
  | missingIndex
  | checksumMismatch (idx got expected : UInt16)
  deriving DecidableEq

/-- The first loop: place every chunk at its index. -/
def placeChunks (total : Nat) :
    List (Option Chunk) → List Chunk → Except ReassembleError (List (Option Chunk))
  | sorted, [] => .ok sorted
  | sorted, c :: rest =>
    if total ≤ c.chunkIdx.toNat then .error (.indexOutOfRange c.chunkIdx)
    else match sorted[c.chunkIdx.toNat]? with
      | some (some _) => .error (.duplicateIndex c.chunkIdx)
      | _ => placeChunks total (sorted.set c.chunkIdx.toNat (some c)) rest

/-- The second loop: check every payload and append it. -/
def concatChunks : Bytes → List (Option Chunk) → Except ReassembleError Bytes
  | result, [] => .ok result
  | _, none :: _ => .error .missingIndex
  | result, some c :: rest =>
    if c.checksum ≠ crc16 c.payload then
      .error (.checksumMismatch c.chunkIdx c.checksum (crc16 c.payload))
    else concatChunks (result ++ c.payload) rest

def reassembleMessage (chunks : List Chunk) : Except ReassembleError Bytes :=
  match chunks with
  | [] => .error .noChunks
  | first :: _ =>
    let total := first.totalChunks.toNat
    if chunks.length ≠ total then .error (.countMismatch total chunks.length)
    else match placeChunks total (List.replicate total none) chunks with
      | .error e => .error e
      | .ok sorted => concatChunks [] sorted

/-! ## The chunks of a message -/

theorem chunkSizeOf_pos (maxChunkSize : Int64) : 0 < (chunkSizeOf maxChunkSize).toInt := by
  unfold chunkSizeOf
  split
  · decide
  · rename_i h
    rw [Int64.le_iff_toInt_le] at h
    simpa using h

/-- The size in use, as a natural number. -/
def sizeNat (maxChunkSize : Int64) : Nat := (chunkSizeOf maxChunkSize).toNatClampNeg

theorem sizeNat_toInt (maxChunkSize : Int64) :
    (chunkSizeOf maxChunkSize).toInt = (sizeNat maxChunkSize : Int) := by
  have h := chunkSizeOf_pos maxChunkSize
  rw [sizeNat, Int64.toNatClampNeg]
  omega

theorem sizeNat_pos (maxChunkSize : Int64) : 0 < sizeNat maxChunkSize := by
  have h := chunkSizeOf_pos maxChunkSize
  rw [sizeNat_toInt] at h
  omega

theorem sizeNat_lt (maxChunkSize : Int64) : sizeNat maxChunkSize < 2 ^ 63 := by
  have h := Int64.toInt_lt (chunkSizeOf maxChunkSize)
  rw [sizeNat_toInt] at h
  omega

/-- The numerator of the chunk count: it wraps exactly when the sum leaves `int`. -/
theorem numerator_toInt {len : Nat} (hlen : len < 2 ^ 63) (maxChunkSize : Int64) :
    (Int64.ofNat len + chunkSizeOf maxChunkSize - 1).toInt =
      if len + sizeNat maxChunkSize - 1 < 2 ^ 63 then ((len + sizeNat maxChunkSize - 1 : Nat) : Int)
      else ((len + sizeNat maxChunkSize - 1 : Nat) : Int) - 2 ^ 64 := by
  have hs := sizeNat_pos maxChunkSize
  have hlt := sizeNat_lt maxChunkSize
  have h1 : (1 : Int64).toInt = 1 := by decide
  rw [Int64.toInt_sub, Int64.toInt_add, Int64.toInt_ofNat_of_lt hlen, sizeNat_toInt, h1,
    Int.bmod_def, Int.bmod_def]
  split <;> split <;> split <;> omega

/-- Without overflow the chunk count is the rounded-up quotient. -/
theorem chunkTotal_fits {len : Nat} (hlen : len < 2 ^ 63) (maxChunkSize : Int64)
    (hfit : len + sizeNat maxChunkSize - 1 < 2 ^ 63) :
    (chunkTotal (Int64.ofNat len) (chunkSizeOf maxChunkSize)).toInt =
      (((len + sizeNat maxChunkSize - 1) / sizeNat maxChunkSize : Nat) : Int) := by
  have hnum := numerator_toInt hlen maxChunkSize
  have hle := Nat.div_le_self (len + sizeNat maxChunkSize - 1) (sizeNat maxChunkSize)
  rw [if_pos hfit] at hnum
  rw [chunkTotal, Int64.toInt_div, sizeNat_toInt, hnum, ← Int.ofNat_tdiv]
  generalize (len + sizeNat maxChunkSize - 1) / sizeNat maxChunkSize = q at hle ⊢
  exact Int.bmod_eq_of_le (by omega) (by omega)

/-- A positive chunk count means that nothing overflowed. -/
theorem chunkTotal_nat {len : Nat} (hlen : len < 2 ^ 63) (maxChunkSize : Int64)
    (hpos : 0 < (chunkTotal (Int64.ofNat len) (chunkSizeOf maxChunkSize)).toNatClampNeg) :
    len + sizeNat maxChunkSize - 1 < 2 ^ 63 ∧
    (chunkTotal (Int64.ofNat len) (chunkSizeOf maxChunkSize)).toNatClampNeg =
      (len + sizeNat maxChunkSize - 1) / sizeNat maxChunkSize := by
  have hs := sizeNat_pos maxChunkSize
  by_cases hfit : len + sizeNat maxChunkSize - 1 < 2 ^ 63
  · refine ⟨hfit, ?_⟩
    rw [Int64.toNatClampNeg, chunkTotal_fits hlen maxChunkSize hfit, Int.toNat_natCast]
  · -- a wrapped numerator is negative, so the quotient is not positive
    have hnum := numerator_toInt hlen maxChunkSize
    have hdiv := Int64.toInt_div (Int64.ofNat len + chunkSizeOf maxChunkSize - 1)
      (chunkSizeOf maxChunkSize)
    have hlt := sizeNat_lt maxChunkSize
    rw [if_neg hfit] at hnum
    rw [sizeNat_toInt] at hdiv
    rw [chunkTotal, Int64.toNatClampNeg] at hpos
    obtain ⟨m, hm⟩ : ∃ m : Nat, len + sizeNat maxChunkSize - 1 + m = 2 ^ 64 :=
      ⟨2 ^ 64 - (len + sizeNat maxChunkSize - 1), by omega⟩
    have hneg : (Int64.ofNat len + chunkSizeOf maxChunkSize - 1).toInt = -(m : Int) := by
      rw [hnum]; omega
    have hle := Nat.div_le_self m (sizeNat maxChunkSize)
    rw [hdiv, hneg, Int.neg_tdiv, ← Int.ofNat_tdiv] at hpos
    generalize m / sizeNat maxChunkSize = q at hle hpos
    rw [Int.bmod_eq_of_le (by omega) (by omega)] at hpos
    omega

/-- The number of chunks that the loop of `ChunkMessage` makes. -/
def chunkCount (len : Nat) (maxChunkSize : Int64) : Nat :=
  (chunkTotal (Int64.ofNat len) (chunkSizeOf maxChunkSize)).toNatClampNeg

theorem chunkMessage_count {sha256 : Bytes → Digest} {msgID : MsgID} {plaintext : Bytes}
    {maxChunkSize : Int64} {recipientPubkey : Bytes} {chunks : List Chunk}
    (h : chunkMessage sha256 msgID plaintext maxChunkSize recipientPubkey = some chunks) :
    chunks.length = chunkCount plaintext.length maxChunkSize := by
  unfold chunkMessage at h
  simp only at h
  split at h
  · cases h
  · obtain rfl := Option.some.inj h
    rw [List.length_map, List.length_range, chunkCount]

/-- Without overflow the chunks are made. -/
theorem chunkMessage_fits (sha256 : Bytes → Digest) (msgID : MsgID) {plaintext : Bytes}
    (maxChunkSize : Int64) (recipientPubkey : Bytes) (hlen : plaintext.length < 2 ^ 63)
    (hfit : plaintext.length + sizeNat maxChunkSize - 1 < 2 ^ 63) :
    ∃ chunks, chunkMessage sha256 msgID plaintext maxChunkSize recipientPubkey = some chunks ∧
      chunks.length = (plaintext.length + sizeNat maxChunkSize - 1) / sizeNat maxChunkSize := by
  have htotal := chunkTotal_fits hlen maxChunkSize hfit
  have h0 : (0 : Int64).toInt = 0 := by decide
  have hnonneg : ¬ chunkTotal (Int64.ofNat plaintext.length) (chunkSizeOf maxChunkSize) < 0 := by
    rw [Int64.lt_iff_toInt_lt, htotal, h0]
    exact Int.not_lt.mpr (Int.natCast_nonneg _)
  unfold chunkMessage
  simp only
  rw [if_neg hnonneg]
  refine ⟨_, rfl, ?_⟩
  rw [List.length_map, List.length_range, Int64.toNatClampNeg, htotal, Int.toNat_natCast]

/-- Chunk `i` of `n` in terms of natural numbers: piece `i` of the plaintext. -/
def wholeChunk (msgID : MsgID) (plaintext : Bytes) (size n : Nat) (recipientHash : Bytes)
    (i : Nat) : Chunk :=
  { newChunk msgID (UInt16.ofNat i) (UInt16.ofNat n) (piece size plaintext i)
    with recipientHash := recipientHash }

theorem wholeChunk_payload (msgID : MsgID) (plaintext : Bytes) (size n : Nat) (recipientHash : Bytes)
    (i : Nat) : (wholeChunk msgID plaintext size n recipientHash i).payload = piece size plaintext i :=
  rfl

private theorem slice_piece {plaintext : Bytes} (hlen : plaintext.length < 2 ^ 63)
    (maxChunkSize : Int64)
    (i : Nat) (hi : i * sizeNat maxChunkSize + sizeNat maxChunkSize < 2 ^ 63) :
    (let start := Int64.ofNat i * chunkSizeOf maxChunkSize
     let stop := start + chunkSizeOf maxChunkSize
     let stop := if stop > Int64.ofNat plaintext.length then Int64.ofNat plaintext.length else stop
     slice plaintext start stop) = piece (sizeNat maxChunkSize) plaintext i := by
  have hs := sizeNat_pos maxChunkSize
  have hile : i ≤ i * sizeNat maxChunkSize := Nat.le_mul_of_pos_right i hs
  have hcast : (i : Int) * (sizeNat maxChunkSize : Int) = ((i * sizeNat maxChunkSize : Nat) : Int) :=
    (Int.natCast_mul i _).symm
  have hstart : (Int64.ofNat i * chunkSizeOf maxChunkSize).toInt =
      ((i * sizeNat maxChunkSize : Nat) : Int) := by
    rw [Int64.toInt_mul, Int64.toInt_ofNat_of_lt (by omega), sizeNat_toInt, hcast,
      Int.bmod_eq_of_le (by omega) (by omega)]
  have hstop : (Int64.ofNat i * chunkSizeOf maxChunkSize + chunkSizeOf maxChunkSize).toInt =
      ((i * sizeNat maxChunkSize + sizeNat maxChunkSize : Nat) : Int) := by
    rw [Int64.toInt_add, hstart, sizeNat_toInt, Int.bmod_eq_of_le (by omega) (by omega)]
    omega
  have hl : (Int64.ofNat plaintext.length).toInt = plaintext.length := Int64.toInt_ofNat_of_lt hlen
  simp only [slice, piece, Int64.toNatClampNeg, hstart, Int.toNat_natCast]
  split
  · rename_i h
    rw [gt_iff_lt, Int64.lt_iff_toInt_lt, hl, hstop] at h
    rw [hl, Int.toNat_natCast, List.take_length, List.take_of_length_le]
    rw [List.length_drop]
    omega
  · rw [hstop, Int.toNat_natCast, List.drop_take]
    congr 1
    omega

/-- Whenever any chunk is made, the chunks are the consecutive pieces of the plaintext. -/
theorem chunkMessage_eq {sha256 : Bytes → Digest} {msgID : MsgID} {plaintext : Bytes}
    {maxChunkSize : Int64} {recipientPubkey : Bytes} {chunks : List Chunk}
    (hlen : plaintext.length < 2 ^ 63)
    (h : chunkMessage sha256 msgID plaintext maxChunkSize recipientPubkey = some chunks)
    (hne : chunks ≠ []) :
    plaintext.length ≤ chunks.length * sizeNat maxChunkSize ∧
    chunks.length * sizeNat maxChunkSize < plaintext.length + sizeNat maxChunkSize ∧
    chunks = (List.range chunks.length).map (wholeChunk msgID plaintext (sizeNat maxChunkSize)
      chunks.length (recipientHashOf sha256 recipientPubkey)) := by
  unfold chunkMessage at h
  simp only at h
  split at h
  · cases h
  obtain rfl := Option.some.inj h
  have hs := sizeNat_pos maxChunkSize
  have hpos : 0 < (chunkTotal (Int64.ofNat plaintext.length) (chunkSizeOf maxChunkSize)).toNatClampNeg := by
    rcases Nat.eq_zero_or_pos
      (chunkTotal (Int64.ofNat plaintext.length) (chunkSizeOf maxChunkSize)).toNatClampNeg with h0 | h0
    · exact absurd (by rw [h0]; rfl) hne
    · exact h0
  obtain ⟨hfit, htotal⟩ := chunkTotal_nat hlen maxChunkSize hpos
  simp only [List.length_map, List.length_range]
  generalize hn : (chunkTotal (Int64.ofNat plaintext.length) (chunkSizeOf maxChunkSize)).toNatClampNeg
    = n at htotal hpos ⊢
  have hmul : n * sizeNat maxChunkSize ≤ plaintext.length + sizeNat maxChunkSize - 1 := by
    rw [htotal]
    exact Nat.div_mul_le_self _ _
  have hcover : plaintext.length ≤ n * sizeNat maxChunkSize := by
    have h1 := Nat.lt_div_mul_add (a := plaintext.length + sizeNat maxChunkSize - 1) hs
    rw [← htotal] at h1
    omega
  refine ⟨hcover, by omega, ?_⟩
  apply List.map_congr_left
  intro i hi
  have hi' : (i + 1) * sizeNat maxChunkSize ≤ n * sizeNat maxChunkSize :=
    Nat.mul_le_mul_right _ (List.mem_range.mp hi)
  rw [Nat.succ_mul] at hi'
  have hslice := slice_piece hlen maxChunkSize i (by omega)
  simp only at hslice
  rw [chunkAt, wholeChunk, hn]
  simp only [hslice]

/-! ## Reassembly of chunks that arrive in order -/

/-- Filling the first empty place of a row that is filled from the left. -/
theorem set_nextSlot (done : List Chunk) (n : Nat) (c : Chunk) :
    (done.map some ++ List.replicate (n + 1) none).set done.length (some c) =
      (done ++ [c]).map some ++ List.replicate n none := by
  rw [List.set_append_right _ _ (by simp)]
  simp [List.replicate_succ]

private theorem placeChunks_inOrder (total : Nat) (done rest : List Chunk)
    (hidx : ∀ i (hi : i < rest.length), (rest[i]).chunkIdx.toNat = done.length + i)
    (hlen : done.length + rest.length = total) :
    placeChunks total (done.map some ++ List.replicate rest.length none) rest =
      .ok ((done ++ rest).map some) := by
  induction rest generalizing done with
  | nil => simp [placeChunks]
  | cons c rest ih =>
    have hc : c.chunkIdx.toNat = done.length := hidx 0 (by simp)
    have hlook : (done.map some ++ List.replicate (c :: rest).length none)[done.length]? =
        some (none : Option Chunk) := by
      rw [List.getElem?_append_right (by simp)]
      simp
    have hset : (done.map some ++ List.replicate (c :: rest).length none).set done.length (some c) =
        (done ++ [c]).map some ++ List.replicate rest.length none := set_nextSlot done rest.length c
    rw [placeChunks, if_neg (by rw [hc]; simp only [List.length_cons] at hlen; omega)]
    simp only [hc, hlook, hset]
    rw [ih (done ++ [c])]
    · simp
    · intro i hi
      have h := hidx (i + 1) (by simpa using hi)
      simp only [List.getElem_cons_succ] at h
      rw [h, List.length_append, List.length_singleton]
      omega
    · simp only [List.length_cons] at hlen
      rw [List.length_append, List.length_singleton]
      omega

theorem concatChunks_valid (result : Bytes) (chunks : List Chunk)
    (hsum : ∀ c ∈ chunks, c.checksum = crc16 c.payload) :
    concatChunks result (chunks.map some) = .ok (result ++ (chunks.map Chunk.payload).flatten) := by
  induction chunks generalizing result with
  | nil => simp [concatChunks]
  | cons c rest ih =>
    have hc : c.checksum = crc16 c.payload := hsum c (by simp)
    rw [List.map_cons, concatChunks, if_neg (by simp [hc]), ih _ (fun x hx => hsum x (by simp [hx]))]
    simp [List.append_assoc]

/-- Chunks `0, 1, …, n-1` of a message of `n` chunks reassemble to their payloads in order. -/
theorem reassembleMessage_inOrder {chunks : List Chunk} (hne : chunks ≠ [])
    (htotal : ∀ c ∈ chunks, c.totalChunks.toNat = chunks.length)
    (hidx : ∀ i (hi : i < chunks.length), (chunks[i]).chunkIdx.toNat = i)
    (hsum : ∀ c ∈ chunks, c.checksum = crc16 c.payload) :
    reassembleMessage chunks = .ok (chunks.map Chunk.payload).flatten := by
  cases chunks with
  | nil => exact absurd rfl hne
  | cons first rest =>
    have ht : first.totalChunks.toNat = (first :: rest).length := htotal first (by simp)
    have hplace := placeChunks_inOrder (first :: rest).length [] (first :: rest)
      (by simpa using hidx) (by simp)
    simp only [List.map_nil, List.nil_append] at hplace
    unfold reassembleMessage
    simp only [ht, ne_eq, not_true_eq_false, if_false, hplace]
    simpa using concatChunks_valid [] (first :: rest) hsum

end VRGram.Encoding
