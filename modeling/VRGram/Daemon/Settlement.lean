import VRGram.Daemon.Media

/-!
# What a returned upload leaves in the two records

`SendMediaStream` writes the transfer in memory and the entry of the transfer store by
hand at each of its exits. While the call runs, every transfer it registered is pending in
both, and only some of the exits settle both.
-/
namespace VRGram.Client

open VRGram.Lib VRGram.Lib.Maps VRGram.Lib.Machine VRGram.Lib.Strings VRGram.Crypto VRGram.Encoding

set_option autoImplicit false

/-- The call registers no transfer whose id the table has: the `INSERT` succeeds. -/
def InsertSucceeds (c : MediaState × StreamPc) : StreamEvent → Prop
  | .recv r => ∀ v, c.2 = .receiving v → v.transferID = [] → r.tempCreated = true →
      c.1.entry r.chunk.transferId = none
  | _ => True

/-! ## The records of one transfer -/

/-- Both records are complete and the call succeeded, or both failed and so did the call. -/
def MediaState.Settled (s : MediaState) (success : Bool) (id : Bytes) : Prop :=
  ∃ t entry, s.transfers.lookup id = some t ∧ s.entry id = some entry ∧
    ((t.status = .complete ∧ entry.status = .complete ∧ success = true) ∨
      (t.status = .failed ∧ entry.status = .failed ∧ success = false))

/-- Both records exist and neither is in a terminal state. -/
structure MediaState.Pending (s : MediaState) (id : Bytes) : Prop where
  inMemory : ∃ t, s.transfers.lookup id = some t ∧ (t.status = .queued ∨ t.status = .sending)
  persisted : ∃ entry, s.entry id = some entry ∧ entry.status.pending = true

/-- The transfer in memory alone decides that nothing is settled. -/
theorem not_settled {s : MediaState} {id : Bytes}
    (h : ∃ t, s.transfers.lookup id = some t ∧ (t.status = .queued ∨ t.status = .sending))
    (success : Bool) : ¬ s.Settled success id := by
  intro hs
  obtain ⟨t, ht, hstatus⟩ := h
  obtain ⟨t', entry, ht', -, hsettled⟩ := hs
  obtain rfl : t = t' := Option.some.inj (ht.symm.trans ht')
  rcases hsettled with ⟨hc, -, -⟩ | ⟨hf, -, -⟩ <;> simp_all

/-- Records that are equal are pending alike. -/
theorem MediaState.Pending.congr {s s' : MediaState} {id : Bytes} (h : s.Pending id)
    (ht : s'.transfers.lookup id = s.transfers.lookup id) (he : s'.entry id = s.entry id) :
    s'.Pending id where
  inMemory := by rw [ht]; exact h.inMemory
  persisted := by rw [he]; exact h.persisted

theorem entry_updateEntry (s : MediaState) (id j : Bytes) (status : Media.TransferStatus)
    (progress chunksSent : Int32) :
    (s.updateEntry id status progress chunksSent).entry j =
      if j = id then (s.entry id).map (fun e =>
        { e with status := status, progress := progress, chunksSent := chunksSent })
      else s.entry j := by
  cases h : s.transferStore with
  | none => simp [MediaState.entry, h]
  | some store => simp [MediaState.entry, h, Media.get_update]

theorem entry_modify (s : MediaState) (id j : Bytes) (f : MediaTransfer → MediaTransfer) :
    (s.modify id f).entry j = s.entry j := by
  rw [MediaState.entry, modify_transferStore, MediaState.entry]

/-- One write to each record of a transfer. -/
def MediaState.writeBoth (s : MediaState) (id : Bytes) (f : MediaTransfer → MediaTransfer)
    (status : Media.TransferStatus) (progress chunkCount : Int32) : MediaState :=
  (s.modify id f).updateEntry id status progress chunkCount

section WriteBoth

variable {s : MediaState} {id j : Bytes} (f : MediaTransfer → MediaTransfer)
  (status : Media.TransferStatus) (progress chunkCount : Int32)

theorem writeBoth_self (h : s.Pending id) :
    ∃ t entry, (s.writeBoth id f status progress chunkCount).transfers.lookup id = some (f t) ∧
      (s.writeBoth id f status progress chunkCount).entry id = some entry ∧
      entry.status = status := by
  obtain ⟨t, ht, -⟩ := h.inMemory
  obtain ⟨entry, hentry, -⟩ := h.persisted
  refine ⟨t, { entry with status := status, progress := progress, chunksSent := chunkCount },
    ?_, ?_, rfl⟩
  · rw [MediaState.writeBoth, MediaState.updateEntry_transfers, lookup_modify, if_pos rfl, ht]
    rfl
  · rw [MediaState.writeBoth, entry_updateEntry, if_pos rfl, entry_modify, hentry]
    rfl

private theorem writeBoth_other (h : s.Pending j) (hj : j ≠ id) :
    (s.writeBoth id f status progress chunkCount).Pending j := by
  refine h.congr ?_ ?_
  · rw [MediaState.writeBoth, MediaState.updateEntry_transfers, lookup_modify, if_neg hj]
  · rw [MediaState.writeBoth, entry_updateEntry, if_neg hj, entry_modify]

end WriteBoth

theorem failBoth_registered (s : MediaState) (id : Bytes) (e : MediaError) (chunkCount : Int32) :
    (s.failBoth id e chunkCount).registered = s.registered :=
  modify_registered s id (MediaTransfer.fail e)

private theorem failBoth_settled {s : MediaState} {id : Bytes} (h : s.Pending id) (e : MediaError)
    (chunkCount : Int32) : (s.failBoth id e chunkCount).Settled false id := by
  obtain ⟨t, entry, ht, hentry, hstatus⟩ :=
    writeBoth_self (MediaTransfer.fail e) .failed 0 chunkCount h
  exact ⟨_, entry, ht, hentry, Or.inr ⟨rfl, hstatus, rfl⟩⟩

private theorem settled_of_complete {s : MediaState} {id : Bytes} (h : s.Pending id)
    (chunkCount : Int32) (success : Bool) :
    (s.writeBoth id MediaTransfer.complete .complete 100 chunkCount).Settled success id ↔
      success = true := by
  obtain ⟨t, entry, ht, hentry, hstatus⟩ :=
    writeBoth_self MediaTransfer.complete .complete 100 chunkCount h
  constructor
  · intro hs
    obtain ⟨t', entry', ht', -, hsettled⟩ := hs
    obtain rfl : t.complete = t' := Option.some.inj (ht.symm.trans ht')
    rcases hsettled with ⟨-, -, hsuccess⟩ | ⟨hf, -, -⟩
    · exact hsuccess
    · cases hf
  · intro hsuccess
    exact ⟨_, entry, ht, hentry, Or.inl ⟨rfl, hstatus, hsuccess⟩⟩

/-! ## While the call runs -/

def StreamPc.transferID : StreamPc → Bytes
  | .receiving v | .assembled v _ | .uploaded v _ | .handed v => v.transferID
  | .returned _ => []

def StreamPc.Running : StreamPc → Prop
  | .returned _ => False
  | _ => True

structure Underway (s : MediaState) (pc : StreamPc) : Prop where
  storeOpen : s.transferStore.isSome = true
  pending : ∀ id ∈ s.registered, s.Pending id
  /-- The variable holds an id that was registered. -/
  named : s.registered ≠ [] → pc.transferID ∈ s.registered
  unopened : ∀ v, pc = .receiving v → v.tempFile = none → s.registered = []

theorem entry_createEntry {s : MediaState} {entry : Media.TransferEntry}
    (hopen : s.transferStore.isSome = true) (hfree : s.entry entry.id = none) (j : Bytes) :
    (s.createEntry entry).entry j = if j = entry.id then some entry else s.entry j := by
  obtain ⟨store, hstore⟩ := Option.isSome_iff_exists.mp hopen
  have hget : store.get entry.id = none := by simpa [MediaState.entry, hstore] using hfree
  have hnew : entry.id ∉ store.rows := by
    intro hmem
    obtain ⟨e, he⟩ := mem_iff_lookup.mp hmem
    rw [Media.TransferStore.get, he] at hget
    cases hget
  simp [MediaState.entry, hstore, Media.get_create hnew]

/-- A header starts both records of its transfer and leaves the others alone. -/
theorem track_pending {s : MediaState} (v : StreamVars) (r : Receipt)
    (hopen : s.transferStore.isSome = true) (hfree : s.entry r.chunk.transferId = none) {id : Bytes}
    (h : id = r.chunk.transferId ∨ s.Pending id) : (s.track v r).Pending id := by
  have hname := readHeader_transferID v r.chunk
  let reg := s.register (v.readHeader r.chunk).transferID r.created
  have hopen' : reg.transferStore.isSome = true := hopen
  have hfree' : reg.entry (v.readHeader r.chunk).transferID = none := by
    rw [hname]
    exact hfree
  by_cases hid : id = (v.readHeader r.chunk).transferID
  · constructor
    · refine ⟨⟨.queued, 0, 0, none, r.created⟩, ?_, Or.inl rfl⟩
      show (s.transfers.insert _ _).lookup id = _
      rw [lookup_insert_ite, if_pos hid]
    · rw [MediaState.track, entry_createEntry hopen' hfree', if_pos hid]
      exact ⟨_, rfl, rfl⟩
  · have hp : s.Pending id := h.resolve_left (fun heq => hid (heq.trans hname.symm))
    refine hp.congr ?_ ?_
    · show (s.transfers.insert _ _).lookup id = _
      rw [lookup_insert_ite, if_neg hid]
    · rw [MediaState.track, entry_createEntry hopen' hfree', if_neg hid]
      rfl

private theorem append_pending {s : MediaState} (v : StreamVars) {id : Bytes} (h : s.Pending id)
    (j : Bytes) : (s.modify j v.progress).Pending id := by
  by_cases hid : id = j
  · obtain ⟨t, ht, -⟩ := h.inMemory
    constructor
    · refine ⟨v.progress t, ?_, Or.inr rfl⟩
      rw [lookup_modify, if_pos hid, ← hid, ht]
      rfl
    · rw [entry_modify]
      exact h.persisted
  · refine h.congr ?_ (entry_modify s j id _)
    rw [lookup_modify, if_neg hid]

private theorem confirming_pending {s : MediaState} {id : Bytes} (h : s.Pending id) (j : Bytes)
    (progress chunkCount : Int32) :
    (s.updateEntry j .confirming progress chunkCount).Pending id := by
  refine ⟨h.inMemory, ?_⟩
  rw [entry_updateEntry]
  split_ifs with hid
  · obtain ⟨entry, hentry, -⟩ := h.persisted
    rw [← hid, hentry]
    exact ⟨_, rfl, rfl⟩
  · exact h.persisted

private theorem underway_step {ctx : MediaContext} {s s' : MediaState} {pc pc' : StreamPc}
    {e : StreamEvent} (h : Underway s pc) (hins : InsertSucceeds (s, pc) e)
    (hstep : StreamStep ctx s pc e s' pc') (hrun : pc'.Running) : Underway s' pc' := by
  cases hstep with
  | header v r hid htemp =>
    have hfree : s.entry r.chunk.transferId = none := hins v rfl hid htemp
    have hreg : (s.track v r).registered = s.registered ++ [r.chunk.transferId] := by
      simp [MediaState.track, readHeader_transferID]
    constructor
    · simpa [MediaState.track] using h.storeOpen
    · intro id hmem
      rw [hreg, List.mem_append, List.mem_singleton] at hmem
      exact track_pending v r h.storeOpen hfree (hmem.symm.imp (fun heq => heq) (h.pending id))
    · intro _
      rw [hreg]
      show (v.header r).transferID ∈ _
      rw [header_transferID]
      exact List.mem_append_right _ (List.mem_singleton_self _)
    · intro w hw hnone
      cases hw
      exact absurd hnone (header_tempFile v r)
  | append v r hid hsize =>
    constructor
    · rw [modify_transferStore]
      exact h.storeOpen
    · intro id hmem
      rw [modify_registered] at hmem
      exact append_pending _ (h.pending id hmem) _
    · rw [modify_registered]
      intro hne
      show (v.append r).transferID ∈ _
      rw [append_transferID]
      exact h.named hne
    · intro w hw hnone
      cases hw
      rw [append_tempFile, Option.map_eq_none_iff] at hnone
      rw [modify_registered]
      exact h.unopened v rfl hnone
  | assembled v file hfile =>
    exact ⟨h.storeOpen, h.pending, h.named, fun w hw => by cases hw⟩
  | uploaded v file relays x closes info hpeer hx =>
    refine ⟨?_, fun id hmem => ?_, h.named, fun w hw => by cases hw⟩
    · simpa using h.storeOpen
    · have hp : MediaState.Pending { s with uploads := s.uploads ++ [file] } id :=
        (h.pending id hmem).congr rfl rfl
      exact confirming_pending hp _ _ _
  | handed v info unixMilli nonce ciphertext dropped hseal =>
    exact ⟨h.storeOpen, fun id hmem => (h.pending id hmem).congr rfl rfl, h.named,
      fun w hw => by cases hw⟩
  | _ => exact hrun.elim

/-! ## What the exits settle -/

/-- The exits that write the outcome of the call to both records; a call also ends here if
the stream cannot be closed, but then with an error. -/
def Settles : StreamPc → StreamEvent → Prop
  | .receiving v, .recvError => v.transferID ≠ []
  | .assembled v _, .upload readable _ _ _ => readable = true ∧ v.peerPubkey ≠ []
  | .uploaded _ _, .confirm _ _ => True
  | .handed _, .close closes => closes = true
  | _, _ => False

private theorem sendAndClose_isOk (v : StreamVars) (closes : Bool) :
    (v.sendAndClose closes).isOk = closes := by
  cases closes <;> rfl

/-- Writing one transfer settles all that were registered only if it is the only one. -/
theorem writeBoth_all_iff {s : MediaState} {pc : StreamPc} (h : Underway s pc)
    (hne : s.registered ≠ []) (f : MediaTransfer → MediaTransfer) (status : Media.TransferStatus)
    (progress chunkCount : Int32) {success : Bool} {good : Prop}
    (hself : (s.writeBoth pc.transferID f status progress chunkCount).Settled success
      pc.transferID ↔ good) :
    (∀ id ∈ s.registered,
      (s.writeBoth pc.transferID f status progress chunkCount).Settled success id) ↔
      good ∧ ∀ id ∈ s.registered, id = pc.transferID := by
  constructor
  · intro hall
    refine ⟨hself.mp (hall _ (h.named hne)), fun id hmem => ?_⟩
    by_contra hid
    have hp := writeBoth_other f status progress chunkCount (h.pending id hmem) hid
    exact not_settled hp.inMemory success (hall id hmem)
  · intro hgood id hmem
    rw [hgood.2 id hmem]
    exact hself.mpr hgood.1

private theorem returned_settled_iff {ctx : MediaContext} {s t : MediaState} {pc : StreamPc}
    {e : StreamEvent} {result : Except MediaError SendMediaResponse} (h : Underway s pc)
    (hne : s.registered ≠ []) (hstep : StreamStep ctx s pc e t (.returned result)) :
    (∀ id ∈ t.registered, t.Settled result.isOk id) ↔
      Settles pc e ∧ ∀ id ∈ s.registered, id = pc.transferID := by
  have hmem := h.named hne
  have hpending := h.pending _ hmem
  -- An exit that does not write the transfer in memory settles nothing.
  have hnothing : ∀ success : Bool, ¬ ∀ id ∈ s.registered, s.Settled success id :=
    fun success hall => not_settled hpending.inMemory success (hall _ hmem)
  have hfail : ∀ (err : MediaError) (chunkCount : Int32),
      (∀ id ∈ s.registered, (s.failBoth pc.transferID err chunkCount).Settled false id) ↔
        True ∧ ∀ id ∈ s.registered, id = pc.transferID := fun err chunkCount =>
    writeBoth_all_iff h hne (MediaTransfer.fail err) .failed 0 chunkCount
      (iff_true_intro (failBoth_settled hpending err chunkCount))
  cases hstep with
  | noTempFile v r hid htemp => exact iff_of_false (hnothing _) (fun hs => hs.1)
  | tooLarge v r hid hsize => exact iff_of_false (hnothing _) (fun hs => hs.1)
  | noData v hfile => exact absurd (h.unopened v rfl hfile) hne
  | lostUnnamed v hid => exact iff_of_false (hnothing _) (fun hs => hs.1 hid)
  | lost v hid =>
    rw [failBoth_registered]
    exact (hfail _ _).trans (and_congr_left' (iff_of_true trivial hid))
  | unreadable v file relays x closes =>
    exact iff_of_false (hnothing _) (fun hs => Bool.false_ne_true hs.1.1)
  | noPeer v file relays x closes hpeer =>
    refine iff_of_false (fun hall => ?_) (fun hs => hs.1.2 hpeer)
    refine not_settled ?_ _ (hall _ hmem)
    exact hpending.inMemory
  | notUploaded v file relays x closes err hpeer =>
    rw [failBoth_registered]
    exact (hfail _ _).trans (and_congr_left' (iff_of_true trivial ⟨rfl, hpeer⟩))
  | unsealed v info unixMilli nonce err hseal =>
    rw [failBoth_registered]
    exact hfail _ _
  | closed v closes =>
    rw [sendAndClose_isOk, MediaState.updateEntry_registered, modify_registered]
    exact writeBoth_all_iff h hne MediaTransfer.complete .complete 100 v.chunkCount
      (settled_of_complete hpending v.chunkCount closes)

private theorem returned_registered {ctx : MediaContext} {s t : MediaState} {pc : StreamPc}
    {e : StreamEvent} {result : Except MediaError SendMediaResponse}
    (hstep : StreamStep ctx s pc e t (.returned result)) : t.registered = s.registered := by
  cases hstep <;> simp [failBoth_registered]

private theorem underway_machine {ctx : MediaContext} {c c' : MediaState × StreamPc}
    {e : StreamEvent} (h : c.2.Running → Underway c.1 c.2) (hins : InsertSucceeds c e)
    (hstep : streamMachine ctx c e = some c') : c'.2.Running → Underway c'.1 c'.2 := by
  obtain ⟨s, pc⟩ := c
  obtain ⟨s', pc'⟩ := c'
  have hcases := streamStep_cases hstep
  have hrunning : pc.Running := by
    cases hcases <;> trivial
  exact underway_step (h hrunning) hins hcases

/-- A call that registered a transfer returns with all its transfers settled, exactly when
it registered one id only and leaves through one of the exits that write both records. -/
theorem upload_settled_iff (ctx : MediaContext) (s₀ : MediaState) (events : List StreamEvent)
    (s : MediaState) (pc : StreamPc) (e : StreamEvent) (t : MediaState)
    (result : Except MediaError SendMediaResponse) (hopen : s₀.transferStore.isSome = true)
    (hnew : s₀.registered = [])
    (hins : Meets (streamMachine ctx) InsertSucceeds (s₀, .receiving .initial) events)
    (hrun : run (streamMachine ctx) (s₀, .receiving .initial) events = some (s, pc))
    (hret : streamStep ctx s pc e = some (t, .returned result)) (hreg : t.registered ≠ []) :
    (∀ id ∈ t.registered, t.Settled result.isOk id) ↔
      Settles pc e ∧ ∀ id ∈ s.registered, id = pc.transferID := by
  have hstart : Underway s₀ (.receiving .initial) := by
    refine ⟨hopen, fun id hmem => ?_, fun hne => absurd hnew hne, fun v _ _ => hnew⟩
    rw [hnew] at hmem
    cases hmem
  let Inv : MediaState × StreamPc → Prop := fun c => c.2.Running → Underway c.1 c.2
  have hstep : ∀ c a c', Inv c → InsertSucceeds c a → streamMachine ctx c a = some c' → Inv c' :=
    fun c a c' hi hok hs => underway_machine hi hok hs
  have hi : Inv (s₀, .receiving .initial) := fun _ => hstart
  have hinv : Inv (s, pc) := run_guarded hstep hi hins hrun
  have hcases := streamStep_cases hret
  have hrunning : pc.Running := by
    cases hcases <;> trivial
  rw [returned_registered hcases] at hreg
  exact returned_settled_iff (hinv hrunning) hreg hcases

/-- An upload of one byte up to the hand-over of its metadata. -/
def oneByteUpload : List StreamEvent :=
  [.recv (received (lit "t") headerData), .recv (received (lit "t") [7]), .recvEOF,
    .upload true [lit "relay"] answered true, .confirm 0 someNonce]

theorem upload_settled_iff_oneByte : ∃ s pc t result,
    run (streamMachine plainContext) (idleMedia, .receiving .initial) oneByteUpload =
      some (s, pc) ∧
    streamStep plainContext s pc (.close true) = some (t, .returned result) ∧
    result.isOk = true ∧ t.registered = [lit "t"] ∧
    ∀ id ∈ t.registered, t.Settled result.isOk id := by
  have hins : Meets (streamMachine plainContext) InsertSucceeds (idleMedia, .receiving .initial)
      oneByteUpload := by
    refine ⟨fun _ _ _ _ => rfl, fun c hc => ?_⟩
    obtain rfl := Option.some.inj hc
    refine ⟨fun v hv hid => ?_, fun c hc => ?_⟩
    · cases hv
      exact absurd hid (by decide)
    · exact ⟨trivial, fun _ _ => ⟨trivial, fun _ _ => ⟨trivial, fun _ _ => trivial⟩⟩⟩
  refine ⟨_, _, _, _, rfl, rfl, rfl, rfl, ?_⟩
  refine (upload_settled_iff plainContext idleMedia oneByteUpload _ _ (.close true) _ _ rfl rfl hins
    rfl rfl ?_).mpr ⟨rfl, ?_⟩
  · show [lit "t"] ≠ []
    decide
  · intro id hmem
    exact List.mem_singleton.mp hmem

/-- Without a peer the call succeeds and the persisted entry is complete, while the
transfer in memory is queued for ever. -/
theorem peerless_unsettled : ∃ t response,
    run (streamMachine plainContext) (idleMedia, .receiving .initial)
      [.recv (received (lit "t") (lit "hi")), .recvEOF, .upload true [] unanswered true] =
      some (t, .returned (.ok response)) ∧
    t.registered = [lit "t"] ∧
    (t.transfers.lookup (lit "t")).map MediaTransfer.status = some .queued ∧
    (t.entry (lit "t")).map Media.TransferEntry.status = some .complete := by
  exact ⟨_, _, rfl, rfl, rfl, rfl⟩

end VRGram.Client
