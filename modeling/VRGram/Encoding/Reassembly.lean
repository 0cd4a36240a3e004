import VRGram.Encoding.Chunk

/-!
# What a successful reassembly says

`ReassembleMessage` on arbitrary chunks: when it succeeds, the result is made of the
payloads that were given, one for each place. For chunks drawn from one message this is
the message itself, unless its chunk count left 16 bits.
-/
namespace VRGram.Encoding

open VRGram.Lib.Strings

set_option autoImplicit false

/-- A filled place was filled before or has a given chunk that claims this place. -/
theorem placeChunks_slots {total : Nat} {chunks : List Chunk} {sorted result : List (Option Chunk)}
    (h : placeChunks total sorted chunks = .ok result) :
    result.length = sorted.length ∧
    ∀ (i : Nat) (c : Chunk), result[i]? = some (some c) →
      sorted[i]? = some (some c) ∨ (c ∈ chunks ∧ c.chunkIdx.toNat = i) := by
  induction chunks generalizing sorted with
  | nil =>
    cases h
    exact ⟨rfl, fun i c hc => Or.inl hc⟩
  | cons d rest ih =>
    rw [placeChunks] at h
    split at h
    · cases h
    · split at h
      · cases h
      · obtain ⟨hlen, hslots⟩ := ih h
        refine ⟨by rw [hlen, List.length_set], ?_⟩
        intro i c hc
        rcases hslots i c hc with hs | ⟨hmem, hidx⟩
        · rw [List.getElem?_set] at hs
          split at hs
          · rename_i hi
            split at hs
            · obtain rfl := Option.some.inj (Option.some.inj hs)
              exact Or.inr ⟨List.mem_cons_self, hi⟩
            · cases hs
          · exact Or.inl hs
        · exact Or.inr ⟨List.mem_cons_of_mem d hmem, hidx⟩

/-- Appending succeeds only when every place is filled. -/
theorem concatChunks_ok {sorted : List (Option Chunk)} {acc data : Bytes}
    (h : concatChunks acc sorted = .ok data) :
    ∃ placed : List Chunk, sorted = placed.map some ∧ data = acc ++ (placed.map Chunk.payload).flatten := by
  induction sorted generalizing acc with
  | nil =>
    cases h
    exact ⟨[], rfl, by simp⟩
  | cons slot rest ih =>
    cases slot with
    | none => cases h
    | some c =>
      rw [concatChunks] at h
      split at h
      · cases h
      · obtain ⟨placed, hrest, hdata⟩ := ih h
        exact ⟨c :: placed, by rw [hrest, List.map_cons], by rw [hdata]; simp⟩

/-- A success puts a given chunk into each place, the one that claims it. -/
theorem reassembleMessage_ok {chunks : List Chunk} {data : Bytes}
    (h : reassembleMessage chunks = .ok data) :
    ∃ (first : Chunk) (rest placed : List Chunk), chunks = first :: rest ∧ chunks.length = first.totalChunks.toNat ∧
      placed.length = chunks.length ∧ data = (placed.map Chunk.payload).flatten ∧
      ∀ (i : Nat) (c : Chunk), placed[i]? = some c → c ∈ chunks ∧ c.chunkIdx.toNat = i := by
  cases chunks with
  | nil => cases h
  | cons first rest =>
    simp only [reassembleMessage] at h
    split at h
    · cases h
    · rename_i hcount
      split at h
      · cases h
      · rename_i sorted hplace
        obtain ⟨hlen, hslots⟩ := placeChunks_slots hplace
        obtain ⟨placed, rfl, hdata⟩ := concatChunks_ok h
        rw [not_not] at hcount
        rw [List.length_map, List.length_replicate] at hlen
        refine ⟨first, rest, placed, rfl, hcount, by rw [hlen, hcount], by simpa using hdata, ?_⟩
        intro i c hc
        rcases hslots i c (by rw [List.getElem?_map, hc]; rfl) with hnone | hgiven
        · rw [List.getElem?_replicate] at hnone
          split at hnone <;> cases hnone
        · exact hgiven

private theorem payloads_length_le {bound : Nat} {placed : List Chunk}
    (hb : ∀ c ∈ placed, c.payload.length ≤ bound) :
    (placed.map Chunk.payload).flatten.length ≤ placed.length * bound := by
  induction placed with
  | nil => simp
  | cons c rest ih =>
    have hc := hb c List.mem_cons_self
    have hrest := ih (fun d hd => hb d (List.mem_cons_of_mem c hd))
    rw [List.map_cons, List.flatten_cons, List.length_append, List.length_cons, Nat.succ_mul]
    omega

/-- The result is no longer than the given payloads together can be. -/
theorem reassembleMessage_length_le {bound : Nat} {chunks : List Chunk} {data : Bytes}
    (hb : ∀ c ∈ chunks, c.payload.length ≤ bound) (h : reassembleMessage chunks = .ok data) :
    data.length ≤ chunks.length * bound := by
  obtain ⟨-, -, placed, -, -, hlen, rfl, hplaced⟩ := reassembleMessage_ok h
  rw [← hlen]
  apply payloads_length_le
  intro c hc
  obtain ⟨i, hi⟩ := List.getElem?_of_mem hc
  exact hb c (hplaced i c hi).1

/-! ## Chunks drawn from one message -/

section Drawn

variable {sha256 : Bytes → Digest} {msgID : MsgID} {plaintext : Bytes} {maxChunkSize : Int64}
  {recipient : Bytes} {chunks : List Chunk} (hlen : plaintext.length < 2 ^ 63)
  (hchunks : chunkMessage sha256 msgID plaintext maxChunkSize recipient = some chunks)

include hlen hchunks

/-- A chunk of the message is a piece of the plaintext; index and count are kept to 16 bits. -/
theorem mem_chunkMessage {c : Chunk} (hc : c ∈ chunks) :
    ∃ i < chunks.length, c.payload = piece (sizeNat maxChunkSize) plaintext i ∧
      c.chunkIdx.toNat = i % 65536 ∧ c.totalChunks.toNat = chunks.length % 65536 ∧
      c.checksum = crc16 c.payload := by
  obtain ⟨-, -, heq⟩ := chunkMessage_eq hlen hchunks (List.ne_nil_of_mem hc)
  rw [heq] at hc
  obtain ⟨i, hi, rfl⟩ := List.mem_map.mp hc
  refine ⟨i, List.mem_range.mp hi, rfl, ?_, ?_, rfl⟩
  · show (UInt16.ofNat i).toNat = i % 65536
    exact UInt16.toNat_ofNat
  · show (UInt16.ofNat chunks.length).toNat = chunks.length % 65536
    exact UInt16.toNat_ofNat

/-- While the count fits 16 bits, every success is the message. -/
theorem drawn_exact (hsmall : chunks.length ≤ 65535) {drawn : List Chunk}
    (hdrawn : ∀ c ∈ drawn, c ∈ chunks) {data : Bytes} (h : reassembleMessage drawn = .ok data) :
    data = plaintext := by
  obtain ⟨first, rest, placed, rfl, hcount, hplen, rfl, hplaced⟩ := reassembleMessage_ok h
  obtain ⟨-, -, -, -, htotal, -⟩ := mem_chunkMessage hlen hchunks (hdrawn first List.mem_cons_self)
  have hn : placed.length = chunks.length := by
    rw [hplen, hcount, htotal]
    omega
  have hne : chunks ≠ [] := List.ne_nil_of_mem (hdrawn first List.mem_cons_self)
  obtain ⟨hcovers, -, -⟩ := chunkMessage_eq hlen hchunks hne
  have hpieces : placed.map Chunk.payload =
      (List.range chunks.length).map (piece (sizeNat maxChunkSize) plaintext) := by
    apply List.ext_getElem?
    intro i
    rw [List.getElem?_map, List.getElem?_map]
    by_cases hi : i < chunks.length
    · have hi' : i < placed.length := by omega
      have hget : placed[i]? = some placed[i] := List.getElem?_eq_getElem hi'
      obtain ⟨hmem, hidx⟩ := hplaced i _ hget
      obtain ⟨j, hj, hpay, hjdx, -, -⟩ := mem_chunkMessage hlen hchunks (hdrawn _ hmem)
      have hij : i = j := by omega
      rw [hget, List.getElem?_range hi, Option.map_some, Option.map_some, hpay, hij]
    · rw [List.getElem?_eq_none (by omega), List.getElem?_eq_none (by simp; omega)]
      rfl
  rw [hpieces, flatten_pieces_all hcovers]

/-- A count that wraps to zero lets no chunks through. -/
theorem drawn_wrapped (hwrap : chunks.length % 65536 = 0) {drawn : List Chunk}
    (hdrawn : ∀ c ∈ drawn, c ∈ chunks) {data : Bytes} : reassembleMessage drawn ≠ .ok data := by
  intro h
  obtain ⟨first, rest, -, rfl, hcount, -⟩ := reassembleMessage_ok h
  obtain ⟨-, -, -, -, htotal, -⟩ := mem_chunkMessage hlen hchunks (hdrawn first List.mem_cons_self)
  rw [htotal, hwrap] at hcount
  cases hcount

/-- A count that wraps to `t ≠ 0` makes the first `t` chunks pass for the whole message. -/
theorem drawn_truncated (hpos : chunks.length % 65536 ≠ 0) :
    reassembleMessage (chunks.take (chunks.length % 65536)) =
      .ok (plaintext.take (chunks.length % 65536 * sizeNat maxChunkSize)) := by
  have hne : chunks ≠ [] := by
    rintro rfl
    exact hpos rfl
  obtain ⟨-, -, heq⟩ := chunkMessage_eq hlen hchunks hne
  generalize ht : chunks.length % 65536 = t at hpos ⊢
  have htn : t ≤ chunks.length := by omega
  have htake : chunks.take t = (List.range t).map (wholeChunk msgID plaintext (sizeNat maxChunkSize)
      chunks.length (recipientHashOf sha256 recipient)) := by
    rw [heq, List.length_map, List.length_range, ← List.map_take, List.take_range,
      Nat.min_eq_left htn]
  have hcount : (chunks.take t).length = t := by rw [List.length_take, Nat.min_eq_left htn]
  rw [reassembleMessage_inOrder]
  · have hpay : (chunks.take t).map Chunk.payload =
        (List.range t).map (piece (sizeNat maxChunkSize) plaintext) := by
      rw [htake, List.map_map]
      rfl
    rw [hpay, flatten_pieces]
  · intro hnil
    rw [hnil, List.length_nil] at hcount
    exact hpos hcount.symm
  · intro c hc
    obtain ⟨-, -, -, -, htotal, -⟩ := mem_chunkMessage hlen hchunks (List.mem_of_mem_take hc)
    rw [htotal, hcount, ht]
  · intro i hi
    have hlt : i < t := by omega
    simp only [htake, List.getElem_map, List.getElem_range]
    show (UInt16.ofNat i).toNat = i
    exact UInt16.toNat_ofNat_of_lt' (show i < 65536 by omega)
  · intro c hc
    obtain ⟨-, -, -, -, -, hsum⟩ := mem_chunkMessage hlen hchunks (List.mem_of_mem_take hc)
    exact hsum

end Drawn

/-- Any list of chunks drawn from the chunks of a message reassembles to the message or to
an error exactly when the chunk count fits 16 bits or wraps to zero. -/
theorem reassembly_faithful_iff (sha256 : Bytes → Digest) (msgID : MsgID) (plaintext : Bytes)
    (hlen : plaintext.length < 2 ^ 63) (maxChunkSize : Int64) (recipient : Bytes) :
    (∀ chunks, chunkMessage sha256 msgID plaintext maxChunkSize recipient = some chunks →
      ∀ drawn : List Chunk, (∀ c ∈ drawn, c ∈ chunks) →
        (∃ e, reassembleMessage drawn = .error e) ∨ reassembleMessage drawn = .ok plaintext) ↔
    chunkCount plaintext.length maxChunkSize ≤ 65535 ∨
      chunkCount plaintext.length maxChunkSize % 65536 = 0 := by
  constructor
  · intro hall
    by_contra hcon
    push Not at hcon
    obtain ⟨hbig, hwrap⟩ := hcon
    have hcount : 0 < chunkCount plaintext.length maxChunkSize := by omega
    obtain ⟨hfit, -⟩ := chunkTotal_nat hlen maxChunkSize hcount
    obtain ⟨chunks, hchunks, -⟩ := chunkMessage_fits sha256 msgID maxChunkSize recipient hlen hfit
    rw [← chunkMessage_count hchunks] at hbig hwrap hcount
    obtain ⟨-, htight, -⟩ := chunkMessage_eq hlen hchunks (List.length_pos_iff.mp hcount)
    have htrunc := drawn_truncated hlen hchunks hwrap
    rcases hall chunks hchunks _ (fun c hc => List.mem_of_mem_take hc) with ⟨e, he⟩ | hok
    · rw [htrunc] at he
      cases he
    · -- the first `t` chunks end before the message does
      rw [htrunc] at hok
      have hwhole := congrArg List.length (Except.ok.inj hok)
      have hstep : (chunks.length % 65536 + 1) * sizeNat maxChunkSize ≤
          chunks.length * sizeNat maxChunkSize := Nat.mul_le_mul_right _ (by omega)
      rw [Nat.succ_mul] at hstep
      rw [List.length_take] at hwhole
      omega
  · intro hcond chunks hchunks drawn hdrawn
    rw [← chunkMessage_count hchunks] at hcond
    cases hr : reassembleMessage drawn with
    | error e => exact Or.inl ⟨e, rfl⟩
    | ok data =>
      right
      rcases hcond with hsmall | hwrap
      · rw [drawn_exact hlen hchunks hsmall hdrawn hr]
      · exact absurd hr (drawn_wrapped hlen hchunks hwrap hdrawn)

theorem reassembly_faithful_iff_threeChunks :
    let digest : Bytes → Digest := fun _ => ⟨List.replicate 32 7, rfl⟩
    ∀ chunks, chunkMessage digest ⟨List.replicate 8 1, rfl⟩ [1, 2, 3, 4, 5] 2 [] = some chunks →
      ∀ drawn : List Chunk, (∀ c ∈ drawn, c ∈ chunks) →
        (∃ e, reassembleMessage drawn = .error e) ∨ reassembleMessage drawn = .ok [1, 2, 3, 4, 5] := by
  intro digest
  exact (reassembly_faithful_iff digest ⟨List.replicate 8 1, rfl⟩ [1, 2, 3, 4, 5] (by decide) 2 []).mpr
    (by decide)

/-- At 65537 chunks of one octet the first chunk alone passes for the message. -/
theorem firstChunk_truncates :
    ∃ (plaintext : Bytes) (chunks : List Chunk) (first : Chunk), plaintext.length = 65537 ∧
      chunkMessage (fun _ => ⟨List.replicate 32 7, rfl⟩) ⟨List.replicate 8 1, rfl⟩ plaintext 1 [] =
        some chunks ∧
      first ∈ chunks ∧ reassembleMessage [first] = .ok [0] ∧ [0] ≠ plaintext := by
  have hsize : sizeNat 1 = 1 := by decide
  have hlen : (List.replicate 65537 (0 : UInt8)).length = 65537 := List.length_replicate
  obtain ⟨chunks, hchunks, hcount⟩ := chunkMessage_fits (fun _ => ⟨List.replicate 32 7, rfl⟩)
    ⟨List.replicate 8 1, rfl⟩ 1 [] (show (List.replicate 65537 (0 : UInt8)).length < 2 ^ 63 by omega)
    (by omega)
  rw [hlen, hsize] at hcount
  have hone : chunks.length % 65536 = 1 := by omega
  have htrunc := drawn_truncated (by omega) hchunks (by omega)
  rw [hone, hsize] at htrunc
  cases chunks with
  | nil => cases hcount
  | cons first rest =>
    refine ⟨_, first :: rest, first, hlen, hchunks, List.mem_cons_self, htrunc, ?_⟩
    intro heq
    have hlens := congrArg List.length heq
    rw [hlen] at hlens
    cases hlens

end VRGram.Encoding
