import VRGram.Client.Engine

/-!
# Indexing while a message is fetched

`fetchAndReassemble` sizes a slice by what the first answer announces and fills it by index,
and `ReassembleMessage` sorts it by the indices in the chunks. Here every index expression and
every nil pointer is checked as the run-time system checks them, and a failed check is `none`.
The relay may answer anything.
-/
namespace VRGram.Client

open VRGram.Lib.Maps VRGram.Lib.Strings VRGram.Lib.Dns VRGram.Encoding VRGram.Store

set_option autoImplicit false

/-! ## `ReassembleMessage` -/

/-- `slots[i] = c`. -/
def setSlot (slots : List (Option Chunk)) (i : Nat) (c : Chunk) : Option (List (Option Chunk)) :=
  if i < slots.length then some (slots.set i (some c)) else none

/-- The first loop over a slice of pointers. -/
def placeChecked (total : Nat) : List (Option Chunk) → List (Option Chunk) →
    Option (Except ReassembleError (List (Option Chunk)))
  | sorted, [] => some (.ok sorted)
  | _, none :: _ => none
  | sorted, some c :: rest =>
    if total ≤ c.chunkIdx.toNat then some (.error (.indexOutOfRange c.chunkIdx))
    else
      match sorted[c.chunkIdx.toNat]? with
      | none => none
      | some (some _) => some (.error (.duplicateIndex c.chunkIdx))
      | some none =>
        (setSlot sorted c.chunkIdx.toNat c).bind (fun sorted => placeChecked total sorted rest)

def reassembleChecked (chunks : List (Option Chunk)) : Option (Except ReassembleError Bytes) :=
  if chunks.length = 0 then some (.error .noChunks)
  else
    match chunks[0]? with
    | some (some first) =>
      let total := first.totalChunks.toNat
      if chunks.length ≠ total then some (.error (.countMismatch total chunks.length))
      else
        (placeChecked total (List.replicate total none) chunks).map (fun placed =>
          match placed with
          | .error e => .error e
          | .ok sorted => concatChunks [] sorted)
    | _ => none

private theorem placeChecked_eq {total : Nat} {sorted : List (Option Chunk)}
    (hlen : sorted.length = total) (chunks : List Chunk) :
    placeChecked total sorted (chunks.map some) = some (placeChunks total sorted chunks) := by
  induction chunks generalizing sorted with
  | nil => rfl
  | cons c rest ih =>
    rw [List.map_cons, placeChecked, placeChunks]
    by_cases hidx : total ≤ c.chunkIdx.toNat
    · rw [if_pos hidx, if_pos hidx]
    · have hlt : c.chunkIdx.toNat < sorted.length := by omega
      rw [if_neg hidx, if_neg hidx, List.getElem?_eq_getElem hlt]
      cases sorted[c.chunkIdx.toNat] with
      | some d => rfl
      | none =>
        simp only [setSlot, if_pos hlt, Option.bind_some]
        exact ih (by rw [List.length_set, hlen])

/-- On a slice without nil pointers every index is in range. -/
theorem reassembleChecked_eq (chunks : List Chunk) :
    reassembleChecked (chunks.map some) = some (reassembleMessage chunks) := by
  cases chunks with
  | nil => rfl
  | cons first rest =>
    have hplace : placeChecked first.totalChunks.toNat
        (List.replicate first.totalChunks.toNat none) (some first :: rest.map some) = _ :=
      placeChecked_eq List.length_replicate (first :: rest)
    simp only [reassembleChecked, reassembleMessage, List.map_cons, List.length_cons,
      List.length_map, Nat.succ_ne_zero, if_false, List.getElem?_cons_zero, hplace, Option.map_some]
    split <;> rfl

/-! ## `fetchAndReassemble` -/

section

variable {σ : Type} (net : Network σ)

/-- The loop that fills `allChunks` from index `i` on. -/
def fetchSlots (addr zone : Bytes) (msgID : MsgID) (mode : TransportMode) :
    Nat → Nat → List (Option Chunk) → σ → Option (Except FetchError (List (Option Chunk))) × σ
  | 0, _, allChunks, w => (some (.ok allChunks), w)
  | count + 1, i, allChunks, w =>
    let got := queryChunk net.exchange addr zone msgID (UInt16.ofNat i) mode w
    match got.1 with
    | .error e => (some (.error (.chunk i e)), got.2)
    | .ok c =>
      match setSlot allChunks i c with
      | none => (none, got.2)
      | some allChunks => fetchSlots addr zone msgID mode count (i + 1) allChunks got.2

def fetchChecked (addr zone : Bytes) (msgID : MsgID) (mode : TransportMode) (w : σ) :
    Option (Except FetchError Bytes) × σ :=
  let head := queryChunk net.exchange addr zone msgID 0 mode w
  match head.1 with
  | .error e => (some (.error (.chunk 0 e)), head.2)
  | .ok firstChunk =>
    let total := firstChunk.totalChunks.toNat
    match setSlot (List.replicate total none) 0 firstChunk with
    | none => (none, head.2)
    | some allChunks =>
      let more := fetchSlots net addr zone msgID mode (total - 1) 1 allChunks head.2
      match more.1 with
      | none => (none, more.2)
      | some (.error e) => (some (.error e), more.2)
      | some (.ok allChunks) =>
        ((reassembleChecked allChunks).map (fun result =>
          match result with
          | .error e => .error (.reassemble e)
          | .ok data => .ok data), more.2)

theorem setSlot_next (done : List Chunk) (n : Nat) (c : Chunk) :
    setSlot (done.map some ++ List.replicate (n + 1) none) done.length c =
      some ((done ++ [c]).map some ++ List.replicate n none) := by
  rw [setSlot, if_pos (by simp), set_nextSlot]

/-- The loop fills a row from the left up to its end. -/
theorem fetchSlots_eq (addr zone : Bytes) (msgID : MsgID) (mode : TransportMode) (count : Nat)
    (done : List Chunk) (w : σ) :
    fetchSlots net addr zone msgID mode count done.length
        (done.map some ++ List.replicate count none) w =
      (some ((fetchChunks net addr zone msgID mode count done.length w).1.map
        (fun cs => (done ++ cs).map some)),
        (fetchChunks net addr zone msgID mode count done.length w).2) := by
  induction count generalizing done w with
  | zero => simp [fetchSlots, fetchChunks, Except.map]
  | succ count ih =>
    rw [fetchSlots, fetchChunks]
    cases hgot : (queryChunk net.exchange addr zone msgID (UInt16.ofNat done.length) mode w).1 with
    | error e => rfl
    | ok c =>
      have hnext := ih (done ++ [c])
        (queryChunk net.exchange addr zone msgID (UInt16.ofNat done.length) mode w).2
      rw [List.length_append, List.length_singleton] at hnext
      simp only [setSlot_next, hnext]
      cases (fetchChunks net addr zone msgID mode count (done.length + 1)
        (queryChunk net.exchange addr zone msgID (UInt16.ofNat done.length) mode w).2).1 with
      | error e => rfl
      | ok cs => simp [Except.map]

/-- The check fails for no answer but a first chunk that announces no chunks. -/
theorem fetchChecked_eq (addr zone : Bytes) (msgID : MsgID) (mode : TransportMode) (w : σ) :
    fetchChecked net addr zone msgID mode w = fetchAndReassemble net addr zone msgID mode w := by
  unfold fetchChecked fetchAndReassemble
  dsimp only
  cases (queryChunk net.exchange addr zone msgID 0 mode w).1 with
  | error e => rfl
  | ok first =>
    dsimp only
    cases htotal : first.totalChunks.toNat with
    | zero => rfl
    | succ n =>
      have hfirst := setSlot_next [] n first
      have hloop := fetchSlots_eq net addr zone msgID mode n [first]
        (queryChunk net.exchange addr zone msgID 0 mode w).2
      simp only [List.map_nil, List.nil_append, List.length_nil, List.length_singleton]
        at hfirst hloop
      simp only [hfirst, Nat.succ_ne_zero, if_false, Nat.add_sub_cancel, hloop]
      cases (fetchChunks net addr zone msgID mode n 1
        (queryChunk net.exchange addr zone msgID 0 mode w).2).1 with
      | error e => rfl
      | ok rest =>
        simp only [Except.map, reassembleChecked_eq, List.singleton_append, Option.map_some]
        cases reassembleMessage (first :: rest) <;> rfl

end

/-- Whatever a relay answers, fetching returns data or an error, with every index in range,
exactly if the chunk in the first answer announces at least one chunk. -/
theorem fetch_safe_iff {σ : Type} (net : Network σ) (addr zone : Bytes) (msgID : MsgID)
    (mode : TransportMode) (w : σ) :
    (∃ result, (fetchChecked net addr zone msgID mode w).1 = some result) ↔
      ∀ first, (queryChunk net.exchange addr zone msgID 0 mode w).1 = .ok first →
        first.totalChunks ≠ 0 := by
  rw [fetchChecked_eq]
  unfold fetchAndReassemble
  dsimp only
  cases (queryChunk net.exchange addr zone msgID 0 mode w).1 with
  | error e => simp
  | ok first =>
    have hzero : first.totalChunks.toNat = 0 ↔ first.totalChunks = 0 :=
      ⟨fun h => UInt16.toNat.inj h, fun h => h ▸ rfl⟩
    simp only [Except.ok.injEq, forall_eq']
    by_cases htotal : first.totalChunks.toNat = 0
    · rw [if_pos htotal]
      refine iff_of_false ?_ (fun h => h (hzero.mp htotal))
      intro h
      obtain ⟨result, h⟩ := h
      cases h
    · rw [if_neg htotal]
      refine iff_of_true ?_ (fun h => htotal (hzero.mpr h))
      split
      · exact ⟨_, rfl⟩
      · split <;> exact ⟨_, rfl⟩

/-- A relay that answers every query with a chunk that announces no chunks. -/
def emptyHanded (msgID : MsgID) : Network Unit where
  exchange := fun _ _ _ w => (some (.txt (newChunk msgID 0 0 []).bodyLabels), w)
  resolveAddr := fun addr w => (some addr, w)

/-- Its answer decodes, and assigning to element zero of the empty slice panics. -/
theorem emptyHanded_panics :
    let msgID : MsgID := ⟨List.replicate 8 1, rfl⟩
    (queryChunk (emptyHanded msgID).exchange (lit "A") (lit "z.org") msgID 0 .auto ()).1 =
        .ok (newChunk msgID 0 0 []) ∧
      (fetchChecked (emptyHanded msgID) (lit "A") (lit "z.org") msgID .auto ()).1 = none := by
  decide +kernel

end VRGram.Client
