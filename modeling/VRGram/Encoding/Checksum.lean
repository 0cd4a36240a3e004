import VRGram.Encoding.Placement
import VRGram.Lib.Crc

/-!
# What the checksum of a chunk detects

`crc16` is the register of width 16 with feedback `0x1021`, fed with bytes. The generator has a
constant term and four terms in all, so every change within 16 consecutive bits and every change
of an odd number of bits is detected, however long the payload is.
-/
namespace VRGram.Encoding

open VRGram.Lib VRGram.Lib.Strings

set_option autoImplicit false

/-! ## The register -/

def feedback : BitVec 16 := 0x1021

/-- The test of the loop is on the bit that leaves the register. -/
theorem topBit_iff (crc : UInt16) : crc &&& 0x8000 ≠ 0 ↔ crc.toBitVec.msb = true := by
  have hmask : (crc &&& 0x8000).toBitVec =
      if crc.toBitVec.getLsbD 15 then BitVec.twoPow 16 15 else 0#16 :=
    BitVec.and_twoPow crc.toBitVec 15
  have hzero : crc &&& 0x8000 = 0 ↔ (crc &&& 0x8000).toBitVec = 0#16 := UInt16.toBitVec_inj.symm
  rw [Ne, hzero, hmask, BitVec.msb_eq_getLsbD_last]
  cases crc.toBitVec.getLsbD 15 <;> decide

private theorem toBitVec_crcBit (crc : UInt16) :
    (crcBit crc).toBitVec = Crc.shift feedback crc.toBitVec := by
  have hmsb := topBit_iff crc
  unfold crcBit Crc.shift
  by_cases h : crc &&& 0x8000 ≠ 0
  · rw [if_pos h, if_pos (hmsb.mp h)]
    rfl
  · rw [if_neg h, if_neg (fun hm => h (hmsb.mpr hm))]
    rfl

private theorem toBitVec_crcByte (crc : UInt16) (b : UInt8) :
    (crcByte crc b).toBitVec = Crc.feed feedback crc.toBitVec b.toBitVec := by
  have hbits : ∀ (n : Nat) (r : UInt16),
      (crcBit^[n] r).toBitVec = (Crc.shift feedback)^[n] r.toBitVec := by
    intro n
    induction n with
    | zero => exact fun _ => rfl
    | succ n ih =>
      intro r
      rw [Function.iterate_succ_apply, ih, toBitVec_crcBit, Function.iterate_succ_apply]
  rw [crcByte, hbits]
  rfl

theorem toBitVec_crc (crc : UInt16) (data : Bytes) :
    (data.foldl crcByte crc).toBitVec =
      (data.map UInt8.toBitVec).foldl (Crc.feed feedback) crc.toBitVec := by
  induction data generalizing crc with
  | nil => rfl
  | cons b rest ih => rw [List.foldl_cons, ih, toBitVec_crcByte, List.map_cons, List.foldl_cons]

/-! ## Errors -/

/-- Bit `i` of a payload, most significant first through the bytes. -/
def bitAt (payload : Bytes) (i : Nat) : Bool :=
  match payload[i / 8]? with
  | some b => b.toNat.testBit (7 - i % 8)
  | none => false

/-- The positions of the bits that differ. -/
def flippedBits (payload altered : Bytes) : Finset Nat :=
  (Finset.range (8 * payload.length)).filter (fun i => bitAt payload i ≠ bitAt altered i)

private theorem bitAt_eq (payload : Bytes) (i : Nat) :
    bitAt payload i = Crc.bitAt (payload.map UInt8.toBitVec) i := by
  have hin : i % 8 < 8 := Nat.mod_lt i (by decide)
  rw [bitAt, Crc.bitAt, List.getElem?_map]
  cases payload[i / 8]? with
  | none => rfl
  | some b =>
    simp only [Option.map_some, BitVec.getMsbD_eq_getLsbD, decide_eq_true hin, Bool.true_and]
    rfl

private theorem flippedBits_eq (payload altered : Bytes) :
    flippedBits payload altered =
      Crc.flipped (payload.map UInt8.toBitVec) (altered.map UInt8.toBitVec) := by
  simp only [flippedBits, Crc.flipped, bitAt_eq, List.length_map]

/-- A change of some bits of a payload, within 16 consecutive ones or of an odd number, changes the
checksum. -/
theorem crc16_ne {payload altered : Bytes} (hlen : altered.length = payload.length)
    (hsome : (flippedBits payload altered).Nonempty)
    (hkind : (∃ first, ∀ i ∈ flippedBits payload altered, first ≤ i ∧ i < first + 16) ∨
      Odd (flippedBits payload altered).card) : crc16 altered ≠ crc16 payload := by
  rw [flippedBits_eq] at hsome hkind
  have hwords : (payload.map UInt8.toBitVec).length = (altered.map UInt8.toBitVec).length := by
    rw [List.length_map, List.length_map, hlen]
  have hregister : (payload.map UInt8.toBitVec).foldl (Crc.feed feedback) 0xFFFF#16 ≠
      (altered.map UInt8.toBitVec).foldl (Crc.feed feedback) 0xFFFF#16 := by
    rcases hkind with ⟨first, hburst⟩ | hodd
    · exact Crc.register_ne_of_burst hwords (by decide) _ (by decide) hsome hburst
    · exact Crc.register_ne_of_odd hwords (by decide) _ (by decide) hodd
  intro heq
  have hcancel : ∀ data, crc16 data ^^^ 0xFFFF = data.foldl crcByte 0xFFFF := by
    intro data
    rw [crc16, UInt16.xor_assoc, UInt16.xor_self, UInt16.xor_zero]
  have hsame : payload.foldl crcByte 0xFFFF = altered.foldl crcByte 0xFFFF := by
    rw [← hcancel, ← hcancel, heq]
  have hbits := congrArg UInt16.toBitVec hsame
  rw [toBitVec_crc, toBitVec_crc] at hbits
  exact hregister hbits

/-- The checksum that was made for a payload detects these changes, and chunks with an altered one
among them are not put together. -/
theorem checksum_detects (payload altered : Bytes) (hlen : altered.length = payload.length)
    (hsome : (flippedBits payload altered).Nonempty)
    (hkind : (∃ first, ∀ i ∈ flippedBits payload altered, first ≤ i ∧ i < first + 16) ∨
      Odd (flippedBits payload altered).card) :
    crc16 altered ≠ crc16 payload ∧
    ∀ (chunks : List Chunk) (c : Chunk), c ∈ chunks → c.checksum = crc16 payload →
      c.payload = altered → ∀ data, reassembleMessage chunks ≠ .ok data := by
  have hne := crc16_ne hlen hsome hkind
  refine ⟨hne, ?_⟩
  intro chunks c hc hsum hpayload data hok
  cases chunks with
  | nil => cases hc
  | cons first rest =>
    have hchecked := (reassembleMessage_ok_iff.mp hok).2.2.1 c hc
    rw [hsum, hpayload] at hchecked
    exact hne hchecked.symm

theorem checksum_detects_swapped :
    crc16 [0x41, 0x42] ≠ crc16 [0x42, 0x41] ∧
    ∀ data, reassembleMessage
      [{ newChunk ⟨List.replicate 8 3, rfl⟩ 0 1 [0x42, 0x41] with payload := [0x41, 0x42] }] ≠
        .ok data := by
  have hsome : (flippedBits [0x42, 0x41] [0x41, 0x42]).Nonempty := ⟨6, by decide⟩
  have hdetects := checksum_detects [0x42, 0x41] [0x41, 0x42] rfl hsome
    (Or.inl ⟨0, by decide⟩)
  exact ⟨hdetects.1, hdetects.2 _ _ (List.mem_singleton.mpr rfl) rfl rfl⟩

end VRGram.Encoding
