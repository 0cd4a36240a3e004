import Mathlib.Data.List.Perm.Subperm
import Mathlib.Data.List.Sort
import VRGram.Encoding.Reassembly

/-!
# When reassembly succeeds

`ReassembleMessage` first puts every chunk into the place that its index names and then
reads the places in order. As many chunks as places, each in a place of its own, leave no
place empty, so the second loop never finds one.
-/
namespace VRGram.Encoding

open VRGram.Lib.Strings

set_option autoImplicit false

/-- The place that a chunk claims. -/
def Chunk.index (c : Chunk) : Nat := c.chunkIdx.toNat

/-- The chunks by increasing index. -/
def inIndexOrder (chunks : List Chunk) : List Chunk :=
  chunks.insertionSort (fun a b => a.index ≤ b.index)

/-! ## The first loop -/

section Placing

variable {total : Nat} {chunks : List Chunk} {sorted result : List (Option Chunk)}

/-- The chunk's place exists and is free. -/
def Free (sorted : List (Option Chunk)) (c : Chunk) : Prop := sorted[c.index]? = some none

private theorem free_iff (hlen : sorted.length = total) (c : Chunk) :
    Free sorted c ↔ c.index < total ∧ ∀ d, sorted[c.index]? ≠ some (some d) := by
  unfold Free
  constructor
  · intro h
    obtain ⟨hlt, -⟩ := List.getElem?_eq_some_iff.mp h
    refine ⟨by omega, fun d hd => ?_⟩
    rw [h] at hd
    cases hd
  · intro h
    have hlt : c.index < sorted.length := by omega
    have hget := List.getElem?_eq_getElem hlt
    cases hslot : sorted[c.index] with
    | none => rw [hget, hslot]
    | some d => exact absurd (hget.trans (congrArg some hslot)) (h.2 d)

/-- One round of the loop. -/
theorem placeChunks_cons (hlen : sorted.length = total) (c : Chunk) (rest : List Chunk) :
    placeChunks total sorted (c :: rest) = .ok result ↔
      Free sorted c ∧ placeChunks total (sorted.set c.index (some c)) rest = .ok result := by
  rw [free_iff hlen, placeChunks]
  constructor
  · intro h
    split at h
    · cases h
    next hlt =>
      split at h
      next => cases h
      next hfree => exact ⟨⟨Nat.lt_of_not_le hlt, hfree⟩, h⟩
  · intro h
    obtain ⟨⟨hlt, hfree⟩, hrest⟩ := h
    rw [if_neg (show ¬ total ≤ c.chunkIdx.toNat from Nat.not_le.mpr hlt)]
    split
    next d hd => exact absurd hd (hfree d)
    next => exact hrest

theorem free_set {c d : Chunk} (hc : Free sorted c) :
    Free (sorted.set c.index (some c)) d ↔ d.index ≠ c.index ∧ Free sorted d := by
  obtain ⟨hlt, -⟩ := List.getElem?_eq_some_iff.mp hc
  unfold Free
  rw [List.getElem?_set]
  by_cases h : c.index = d.index
  · simp [h, h ▸ hlt]
  · simp [h, Ne.symm h]

/-- Placing succeeds for chunks that claim different places, all of them free. -/
theorem placeChunks_ok_iff (hlen : sorted.length = total) :
    (∃ result, placeChunks total sorted chunks = .ok result) ↔
      (chunks.map Chunk.index).Nodup ∧ ∀ c ∈ chunks, Free sorted c := by
  induction chunks generalizing sorted with
  | nil => simp [placeChunks]
  | cons c rest ih =>
    have hset : (sorted.set c.index (some c)).length = total := by rw [List.length_set, hlen]
    simp only [placeChunks_cons hlen, exists_and_left, ih hset, List.map_cons, List.nodup_cons,
      List.mem_map, List.forall_mem_cons]
    constructor
    · intro h
      obtain ⟨hc, hnodup, hrest⟩ := h
      refine ⟨⟨?_, hnodup⟩, hc, fun d hd => ((free_set hc).mp (hrest d hd)).2⟩
      intro hmem
      obtain ⟨d, hd, hidx⟩ := hmem
      exact ((free_set hc).mp (hrest d hd)).1 hidx
    · intro h
      obtain ⟨⟨hne, hnodup⟩, hc, hrest⟩ := h
      refine ⟨hc, hnodup, fun d hd => (free_set hc).mpr ⟨?_, hrest d hd⟩⟩
      exact fun hidx => hne ⟨d, hd, hidx⟩

/-- A filled place stays as it is, and every chunk ends up in its own. -/
theorem placeChunks_fills (hlen : sorted.length = total)
    (h : placeChunks total sorted chunks = .ok result) :
    (∀ (i : Nat) (d : Chunk), sorted[i]? = some (some d) → result[i]? = some (some d)) ∧
      ∀ c ∈ chunks, result[c.index]? = some (some c) := by
  induction chunks generalizing sorted with
  | nil =>
    obtain rfl := Except.ok.inj h
    exact ⟨fun _ _ hd => hd, fun c hc => by cases hc⟩
  | cons c rest ih =>
    obtain ⟨hc, hrest⟩ := (placeChunks_cons hlen c rest).mp h
    obtain ⟨hlt, -⟩ := List.getElem?_eq_some_iff.mp hc
    obtain ⟨hkept, hplaced⟩ := ih (by rw [List.length_set, hlen]) hrest
    constructor
    · intro i d hd
      refine hkept i d ?_
      have hne : c.index ≠ i := by
        rintro rfl
        rw [Free, hd] at hc
        cases hc
      rw [List.getElem?_set_ne hne, hd]
    · intro d hd
      rcases List.mem_cons.mp hd with rfl | hd
      · exact hkept _ _ (List.getElem?_set_self hlt)
      · exact hplaced d hd

end Placing

/-! ## No place stays empty -/

theorem perm_range_of_nodup {l : List Nat} {n : Nat} (hn : l.Nodup) (hlt : ∀ i ∈ l, i < n)
    (hlen : l.length = n) : l.Perm (List.range n) := by
  have hsub : l.Subperm (List.range n) :=
    List.Nodup.subperm hn (fun i hi => List.mem_range.mpr (hlt i hi))
  exact hsub.perm_of_length_le (by rw [List.length_range, hlen])

private theorem free_replicate (total : Nat) (c : Chunk) :
    Free (List.replicate total none) c ↔ c.index < total := by
  rw [Free, List.getElem?_replicate]
  simp

/-- As many chunks as places can be placed if their indices are those of the places. -/
theorem placeChunks_replicate_iff {total : Nat} {chunks : List Chunk}
    (hcount : chunks.length = total) :
    (∃ sorted, placeChunks total (List.replicate total none) chunks = .ok sorted) ↔
      (chunks.map Chunk.index).Perm (List.range total) := by
  simp only [placeChunks_ok_iff List.length_replicate, free_replicate]
  constructor
  · intro h
    refine perm_range_of_nodup h.1 ?_ (by rw [List.length_map, hcount])
    intro i hi
    obtain ⟨c, hc, rfl⟩ := List.mem_map.mp hi
    exact h.2 c hc
  · intro h
    refine ⟨h.nodup_iff.mpr List.nodup_range, fun c hc => ?_⟩
    exact List.mem_range.mp (h.subset (List.mem_map_of_mem hc))

theorem inIndexOrder_perm (chunks : List Chunk) : (inIndexOrder chunks).Perm chunks :=
  List.perm_insertionSort _ chunks

private theorem inIndexOrder_sorted (chunks : List Chunk) :
    (inIndexOrder chunks).Pairwise (fun a b => a.index ≤ b.index) := by
  have : Std.Total (fun a b : Chunk => a.index ≤ b.index) := ⟨fun a b => Nat.le_total _ _⟩
  have : IsTrans Chunk (fun a b => a.index ≤ b.index) := ⟨fun a b c => Nat.le_trans⟩
  exact List.pairwise_insertionSort _ chunks

private theorem inIndexOrder_index {chunks : List Chunk} {n : Nat}
    (h : (chunks.map Chunk.index).Perm (List.range n)) :
    (inIndexOrder chunks).map Chunk.index = List.range n := by
  have hperm := ((inIndexOrder_perm chunks).map Chunk.index).trans h
  have hsorted : ((inIndexOrder chunks).map Chunk.index).Pairwise (· ≤ ·) :=
    List.pairwise_map.mpr (inIndexOrder_sorted chunks)
  exact List.Perm.eq_of_pairwise' hsorted (List.pairwise_lt_range.imp Nat.le_of_lt) hperm

/-- The filled places hold the chunks by increasing index. -/
theorem placeChunks_full {total : Nat} {chunks : List Chunk} {sorted : List (Option Chunk)}
    (hcount : chunks.length = total)
    (h : placeChunks total (List.replicate total none) chunks = .ok sorted) :
    sorted = (inIndexOrder chunks).map some := by
  have hindex := inIndexOrder_index ((placeChunks_replicate_iff hcount).mp ⟨sorted, h⟩)
  obtain ⟨-, hplaced⟩ := placeChunks_fills List.length_replicate h
  have hlen : sorted.length = total := by rw [(placeChunks_slots h).1, List.length_replicate]
  have hordered : (inIndexOrder chunks).length = total := by
    rw [(inIndexOrder_perm chunks).length_eq, hcount]
  apply List.ext_getElem?
  intro i
  by_cases hi : i < total
  · have hlt : i < (inIndexOrder chunks).length := by omega
    -- the chunk at position `i` of the order claims place `i`
    have hclaim : ((inIndexOrder chunks)[i]).index = i := by
      have hget : ((inIndexOrder chunks).map Chunk.index)[i]? = some i := by
        rw [hindex, List.getElem?_range hi]
      rw [List.getElem?_map, List.getElem?_eq_getElem hlt] at hget
      exact Option.some.inj hget
    have hmem := (inIndexOrder_perm chunks).subset (List.getElem_mem hlt)
    have hslot := hplaced _ hmem
    rw [hclaim] at hslot
    rw [hslot, List.getElem?_map, List.getElem?_eq_getElem hlt]
    rfl
  · rw [List.getElem?_eq_none (by omega), List.getElem?_eq_none (by rw [List.length_map]; omega)]

/-! ## The second loop -/

private theorem concatChunks_map_ok_iff {result data : Bytes} {placed : List Chunk} :
    concatChunks result (placed.map some) = .ok data ↔
      (∀ c ∈ placed, c.checksum = crc16 c.payload) ∧
        data = result ++ (placed.map Chunk.payload).flatten := by
  constructor
  · intro h
    have hsums : ∀ c ∈ placed, c.checksum = crc16 c.payload := by
      induction placed generalizing result with
      | nil => exact fun c hc => by cases hc
      | cons c rest ih =>
        rw [List.map_cons, concatChunks] at h
        split at h
        · cases h
        next hsum => exact List.forall_mem_cons.mpr ⟨not_not.mp hsum, ih h⟩
    refine ⟨hsums, ?_⟩
    rw [concatChunks_valid result placed hsums] at h
    exact (Except.ok.inj h).symm
  · intro h
    rw [concatChunks_valid result placed h.1, h.2]

private theorem concatChunks_map_ne_missing (result : Bytes) (placed : List Chunk) :
    concatChunks result (placed.map some) ≠ .error .missingIndex := by
  induction placed generalizing result with
  | nil =>
    intro h
    cases h
  | cons c rest ih =>
    rw [List.map_cons, concatChunks]
    split
    · exact fun h => ReassembleError.noConfusion (Except.error.inj h)
    · exact ih _

/-! ## Reassembly -/

private theorem placeChunks_ne_missing (total : Nat) (sorted : List (Option Chunk))
    (chunks : List Chunk) :
    placeChunks total sorted chunks ≠ .error .missingIndex := by
  induction chunks generalizing sorted with
  | nil =>
    intro h
    cases h
  | cons c rest ih =>
    rw [placeChunks]
    split
    · exact fun h => ReassembleError.noConfusion (Except.error.inj h)
    · split
      · exact fun h => ReassembleError.noConfusion (Except.error.inj h)
      · exact ih _

theorem reassembleMessage_ok_iff {first : Chunk} {rest : List Chunk} {data : Bytes} :
    reassembleMessage (first :: rest) = .ok data ↔
      (first :: rest).length = first.totalChunks.toNat ∧
      ((first :: rest).map Chunk.index).Perm (List.range (first :: rest).length) ∧
      (∀ c ∈ first :: rest, c.checksum = crc16 c.payload) ∧
      data = ((inIndexOrder (first :: rest)).map Chunk.payload).flatten := by
  rw [reassembleMessage]
  by_cases hcount : (first :: rest).length = first.totalChunks.toNat
  · simp only [ne_eq, hcount, not_true_eq_false, if_false, true_and]
    rw [← placeChunks_replicate_iff hcount]
    cases hplace : placeChunks first.totalChunks.toNat
        (List.replicate first.totalChunks.toNat none) (first :: rest) with
    | error e => simp
    | ok sorted =>
      simp only [placeChunks_full hcount hplace, concatChunks_map_ok_iff, List.nil_append,
        (inIndexOrder_perm _).mem_iff, exists_eq', true_and, Except.ok.injEq]
  · simp only [ne_eq, hcount, not_false_eq_true, if_true, false_and, reduceCtorEq]

private theorem reassembleMessage_ne_missing (chunks : List Chunk) :
    reassembleMessage chunks ≠ .error .missingIndex := by
  unfold reassembleMessage
  split
  · exact fun h => ReassembleError.noConfusion (Except.error.inj h)
  · dsimp only
    split
    · exact fun h => ReassembleError.noConfusion (Except.error.inj h)
    next hcount =>
      split
      next e hplace =>
        intro h
        obtain rfl := Except.error.inj h
        exact placeChunks_ne_missing _ _ _ hplace
      next sorted hplace =>
        rw [placeChunks_full (not_not.mp hcount) hplace]
        exact concatChunks_map_ne_missing _ _

/-- Reassembly succeeds for as many chunks as the first one announces, whose indices are
those of the places and whose checksums are right, and for no others; it returns the
payloads by increasing index, and no place is ever found empty. -/
theorem reassembly_exact (first : Chunk) (rest : List Chunk) :
    let chunks := first :: rest
    (∀ data, reassembleMessage chunks = .ok data ↔
      chunks.length = first.totalChunks.toNat ∧
      (chunks.map Chunk.index).Perm (List.range chunks.length) ∧
      (∀ c ∈ chunks, c.checksum = crc16 c.payload) ∧
      data = ((inIndexOrder chunks).map Chunk.payload).flatten) ∧
    reassembleMessage chunks ≠ .error .missingIndex :=
  ⟨fun _ => reassembleMessage_ok_iff, reassembleMessage_ne_missing _⟩

end VRGram.Encoding
