import VRGram.Daemon.Media

/-!
# Cancelling a transfer

One sender interleaved with `CancelSend`, `GetMediaStatus` and `cleanupTransfers`. The
sender never looks at the status before it writes it, so a cancellation stays in force
exactly when the sender has no write to the transfer left.
-/
namespace VRGram.Client

open VRGram.Lib VRGram.Lib.Maps VRGram.Lib.Machine VRGram.Lib.Strings VRGram.Crypto VRGram.Encoding

set_option autoImplicit false

/-! ## The interleaving -/

inductive Sender where
  | media (req : SendMediaRequest) (pc : SendMediaPc)
  | stream (pc : StreamPc)

inductive SenderEvent where
  | media (e : SendMediaEvent)
  | stream (e : StreamEvent)

def Sender.step (ctx : MediaContext) (s : MediaState) :
    Sender → SenderEvent → Option (MediaState × Sender)
  | .media req pc, .media e => (sendMediaStep ctx req s pc e).map (fun r => (r.1, .media req r.2))
  | .stream pc, .stream e => (streamStep ctx s pc e).map (fun r => (r.1, .stream r.2))
  | _, _ => none

/-- A sender takes its own events only. -/
theorem Sender.step_cases {ctx : MediaContext} {s s' : MediaState} {sender sender' : Sender}
    {e : SenderEvent} (h : sender.step ctx s e = some (s', sender')) :
    (∃ req pc pc' ev, sender = .media req pc ∧ e = .media ev ∧ sender' = .media req pc' ∧
        sendMediaStep ctx req s pc ev = some (s', pc')) ∨
      ∃ pc pc' ev, sender = .stream pc ∧ e = .stream ev ∧ sender' = .stream pc' ∧
        streamStep ctx s pc ev = some (s', pc') := by
  cases sender with
  | media req pc =>
    cases e with
    | media ev =>
      obtain ⟨⟨s'', pc'⟩, hstep, heq⟩ := Option.map_eq_some_iff.mp h
      cases heq
      exact Or.inl ⟨req, pc, pc', ev, rfl, rfl, rfl, hstep⟩
    | stream ev => cases h
  | stream pc =>
    cases e with
    | media ev => cases h
    | stream ev =>
      obtain ⟨⟨s'', pc'⟩, hstep, heq⟩ := Option.map_eq_some_iff.mp h
      cases heq
      exact Or.inr ⟨pc, pc', ev, rfl, rfl, rfl, hstep⟩

structure MediaSystem where
  state : MediaState
  sender : Sender

inductive MediaAction where
  | send (e : SenderEvent)
  | cancelSend (messageId : Bytes)
  | getMediaStatus (messageId : Bytes)
  | cleanupTransfers (now : Int) (hint : List Bytes)

def MediaSystem.step (ctx : MediaContext) (sys : MediaSystem) : MediaAction → Option MediaSystem
  | .send e => (sys.sender.step ctx sys.state e).map (fun r => ⟨r.1, r.2⟩)
  | .cancelSend messageId =>
    match sys.state.cancelSend messageId with
    | .ok state => some { sys with state := state }
    | .error _ => some sys
  | .getMediaStatus _ => some sys
  | .cleanupTransfers now hint => some { sys with state := sys.state.cleanupTransfers now hint }

/-! ## Which transfer a sender may still write -/

/-- A call that has not started draws its message id from the clock. -/
def SendMediaPc.mayTouch (id : Bytes) : SendMediaPc → Prop
  | .start => ∃ unixNano, hexInt unixNano = id
  | .registered msgID | .uploading msgID | .confirming msgID _ | .handed msgID => msgID = id
  | .returned _ => False

/-- While the stream has no transfer id, the next chunk can name any. -/
def StreamPc.mayTouch (id : Bytes) : StreamPc → Prop
  | .receiving v => v.transferID = [] ∨ v.transferID = id
  | .assembled v _ => v.peerPubkey ≠ [] ∧ v.transferID = id
  | .uploaded v _ | .handed v => v.transferID = id
  | .returned _ => False

def Sender.mayTouch (id : Bytes) : Sender → Prop
  | .media _ pc => pc.mayTouch id
  | .stream pc => pc.mayTouch id

/-- Nothing changed for one transfer: neither its entry nor the messages handed over. -/
structure Untouched (id : Bytes) (s s' : MediaState) : Prop where
  entry : s'.transfers.lookup id = s.transfers.lookup id
  handed : s'.handedFor id = s.handedFor id

theorem Untouched.refl (id : Bytes) (s : MediaState) : Untouched id s s := ⟨rfl, rfl⟩

section Untouched

variable {id j : Bytes} (s : MediaState)

theorem modify_untouched (hj : j ≠ id) (f : MediaTransfer → MediaTransfer) :
    Untouched id s (s.modify j f) where
  entry := by rw [lookup_modify, if_neg (Ne.symm hj)]
  handed := by rw [MediaState.handedFor, modify_handed, MediaState.handedFor]

private theorem register_untouched (hj : j ≠ id) (created : Int) :
    Untouched id s (s.register j created) where
  entry := by rw [MediaState.register_transfers, lookup_insert_ite, if_neg (Ne.symm hj)]
  handed := rfl

theorem handOver_untouched (hj : j ≠ id) (out : Outgoing) :
    Untouched id s (s.handOver j out) where
  entry := rfl
  handed := by simp [MediaState.handedFor, hj]

end Untouched

/-- The persisted record and the uploads are not part of what is compared. -/
theorem Untouched.of_eq {id : Bytes} {s s' s'' : MediaState} (h : Untouched id s s')
    (htransfers : s''.transfers = s'.transfers) (hhanded : s''.handed = s'.handed) :
    Untouched id s s'' where
  entry := by rw [htransfers, h.entry]
  handed := by rw [← h.handed, MediaState.handedFor, hhanded, MediaState.handedFor]

theorem failBoth_untouched {id j : Bytes} (s : MediaState) (hj : j ≠ id) (e : MediaError)
    (chunkCount : Int32) : Untouched id s (s.failBoth j e chunkCount) :=
  (modify_untouched s hj _).of_eq rfl rfl

/-! ## A sender that may not write the transfer -/

private theorem sendMediaStep_untouched {ctx : MediaContext} {req : SendMediaRequest}
    {s s' : MediaState}
    {pc pc' : SendMediaPc} {e : SendMediaEvent} {id : Bytes} (hpc : ¬ pc.mayTouch id)
    (h : sendMediaStep ctx req s pc e = some (s', pc')) :
    Untouched id s s' ∧ ¬ pc'.mayTouch id := by
  cases sendMediaStep_cases h with
  | register unixNano created =>
    have hid : hexInt unixNano ≠ id := fun heq => hpc ⟨unixNano, heq⟩
    exact ⟨register_untouched s hid created, hid⟩
  | noRelays msgID => exact ⟨modify_untouched s hpc _, fun hn => hn⟩
  | relays msgID relay relays => exact ⟨modify_untouched s hpc _, hpc⟩
  | notUploaded msgID x => exact ⟨modify_untouched s hpc _, fun hn => hn⟩
  | uploaded msgID x info hx =>
    have hm := modify_untouched { s with uploads := s.uploads ++ [req.mediaData] } hpc
      (fun t => { t with progress := 50 })
    exact ⟨⟨hm.entry, hm.handed⟩, hpc⟩
  | unsealed msgID info unixMilli nonce e => exact ⟨modify_untouched s hpc _, fun hn => hn⟩
  | handed msgID info unixMilli nonce out => exact ⟨handOver_untouched s hpc _, hpc⟩
  | accepted msgID => exact ⟨(modify_untouched s hpc _).of_eq rfl rfl, fun hn => hn⟩
  | refused msgID => exact ⟨modify_untouched s hpc _, fun hn => hn⟩

private theorem streamStep_untouched {ctx : MediaContext} {s s' : MediaState} {pc pc' : StreamPc}
    {e : StreamEvent} {id : Bytes} (hpc : ¬ pc.mayTouch id)
    (h : streamStep ctx s pc e = some (s', pc')) : Untouched id s s' ∧ ¬ pc'.mayTouch id := by
  cases streamStep_cases h with
  | noTempFile v r hid htemp => exact absurd (Or.inl hid) hpc
  | header v r hid htemp => exact absurd (Or.inl hid) hpc
  | tooLarge v r hid hsize => exact ⟨Untouched.refl id s, fun hn => hn⟩
  | append v r hid hsize =>
    refine ⟨modify_untouched s (fun heq => hpc (Or.inr heq)) _, ?_⟩
    show ¬ ((v.append r).transferID = [] ∨ (v.append r).transferID = id)
    rw [append_transferID]
    exact hpc
  | noData v hfile => exact ⟨Untouched.refl id s, fun hn => hn⟩
  | assembled v file hfile => exact ⟨Untouched.refl id s, fun hn => hpc (Or.inr hn.2)⟩
  | lostUnnamed v hid => exact absurd (Or.inl hid) hpc
  | lost v hid =>
    exact ⟨failBoth_untouched s (fun heq => hpc (Or.inr heq)) _ _, fun hn => hn⟩
  | unreadable v file relays x closes => exact ⟨Untouched.refl id s, fun hn => hn⟩
  | noPeer v file relays x closes hpeer =>
    exact ⟨(Untouched.refl id s).of_eq rfl rfl, fun hn => hn⟩
  | notUploaded v file relays x closes e hpeer =>
    exact ⟨failBoth_untouched s (fun heq => hpc ⟨hpeer, heq⟩) _ _, fun hn => hn⟩
  | uploaded v file relays x closes info hpeer hx =>
    exact ⟨(Untouched.refl id s).of_eq rfl rfl, fun heq => hpc ⟨hpeer, heq⟩⟩
  | unsealed v info unixMilli nonce e hseal =>
    exact ⟨failBoth_untouched s hpc _ _, fun hn => hn⟩
  | handed v info unixMilli nonce ciphertext dropped hseal =>
    exact ⟨handOver_untouched s hpc _, hpc⟩
  | closed v closes => exact ⟨(modify_untouched s hpc _).of_eq rfl rfl, fun hn => hn⟩

theorem Sender.step_untouched {ctx : MediaContext} {s s' : MediaState} {sender sender' : Sender}
    {e : SenderEvent} {id : Bytes} (hpc : ¬ sender.mayTouch id)
    (h : sender.step ctx s e = some (s', sender')) :
    Untouched id s s' ∧ ¬ sender'.mayTouch id := by
  rcases Sender.step_cases h with
    ⟨req, pc, pc', ev, rfl, rfl, rfl, hstep⟩ | ⟨pc, pc', ev, rfl, rfl, rfl, hstep⟩
  · exact sendMediaStep_untouched hpc hstep
  · exact streamStep_untouched hpc hstep

/-- The cancellation is in force and no message has been handed over since. -/
structure CancelKept (id : Bytes) (handed : List Outgoing) (s : MediaState) : Prop where
  cancelled : ∀ t, s.transfers.lookup id = some t → t.status = .cancelled
  handed_eq : s.handedFor id = handed

theorem CancelKept.of_untouched {id : Bytes} {handed : List Outgoing} {s s' : MediaState}
    (h : CancelKept id handed s) (hu : Untouched id s s') : CancelKept id handed s' where
  cancelled t ht := h.cancelled t (hu.entry ▸ ht)
  handed_eq := hu.handed.trans h.handed_eq

theorem cancelSend_ok {s s' : MediaState} {id : Bytes} (h : s.cancelSend id = .ok s') :
    ∃ t : MediaTransfer, s'.transfers = s.transfers.insert id { t with status := .cancelled } ∧
      s'.handed = s.handed := by
  unfold MediaState.cancelSend at h
  split at h
  · cases h
  · split_ifs at h
    cases h
    exact ⟨_, rfl, rfl⟩

theorem CancelKept.cancelSend {id j : Bytes} {handed : List Outgoing} {s s' : MediaState}
    (hk : CancelKept id handed s) (h : s.cancelSend j = .ok s') : CancelKept id handed s' := by
  obtain ⟨t, htransfers, hhanded⟩ := cancelSend_ok h
  constructor
  · intro t' ht'
    rw [htransfers, lookup_insert_ite] at ht'
    split_ifs at ht' with hj
    · obtain rfl := Option.some.inj ht'
      rfl
    · exact hk.cancelled t' ht'
  · rw [← hk.handed_eq, MediaState.handedFor, hhanded, MediaState.handedFor]

theorem MediaSystem.step_kept {ctx : MediaContext} {id : Bytes} {handed : List Outgoing}
    {sys sys' : MediaSystem} {a : MediaAction}
    (h : CancelKept id handed sys.state ∧ ¬ sys.sender.mayTouch id)
    (hstep : sys.step ctx a = some sys') :
    CancelKept id handed sys'.state ∧ ¬ sys'.sender.mayTouch id := by
  obtain ⟨hk, hpc⟩ := h
  cases a with
  | send e =>
    obtain ⟨⟨s', sender'⟩, hs, heq⟩ := Option.map_eq_some_iff.mp hstep
    cases heq
    obtain ⟨hu, hpc'⟩ := Sender.step_untouched hpc hs
    exact ⟨hk.of_untouched hu, hpc'⟩
  | cancelSend messageId =>
    simp only [MediaSystem.step] at hstep
    split at hstep <;> cases hstep
    · exact ⟨hk.cancelSend ‹_›, hpc⟩
    · exact ⟨hk, hpc⟩
  | getMediaStatus messageId =>
    cases hstep
    exact ⟨hk, hpc⟩
  | cleanupTransfers now hint =>
    cases hstep
    exact ⟨⟨fun t ht => hk.cancelled t (cleanupTransfers_sub _ _ _ ht), hk.handed_eq⟩, hpc⟩

/-! ## A sender that may write the transfer -/

theorem not_kept_of_status {id : Bytes} {handed : List Outgoing} {s : MediaState}
    {t : MediaTransfer} (ht : s.transfers.lookup id = some t) (hstatus : t.status ≠ .cancelled) :
    ¬ CancelKept id handed s :=
  fun hk => hstatus (hk.cancelled t ht)

theorem modify_breaks {id : Bytes} {handed : List Outgoing} {s s' : MediaState} {t : MediaTransfer}
    {f : MediaTransfer → MediaTransfer} (ht : s.transfers.lookup id = some t)
    (hs' : s'.transfers = (s.modify id f).transfers) (hf : (f t).status ≠ .cancelled) :
    ¬ CancelKept id handed s' := by
  refine not_kept_of_status (t := f t) ?_ hf
  rw [hs', lookup_modify, if_pos rfl, ht]
  rfl

theorem handOver_breaks {id : Bytes} (s : MediaState) (out : Outgoing) :
    ¬ CancelKept id (s.handedFor id) (s.handOver id out) := by
  intro hk
  have h := hk.handed_eq
  simp [MediaState.handedFor] at h

theorem register_breaks {id : Bytes} {handed : List Outgoing} {s s' : MediaState} {created : Int}
    (hs' : s'.transfers = (s.register id created).transfers) : ¬ CancelKept id handed s' := by
  refine not_kept_of_status (t := ⟨.queued, 0, 0, none, created⟩) ?_ (by simp)
  rw [hs', MediaState.register_transfers, lookup_insert_ite, if_pos rfl]

private theorem sendMediaStep_breaks (ctx : MediaContext) (req : SendMediaRequest) {s : MediaState}
    {pc : SendMediaPc} {id : Bytes} {t : MediaTransfer} (hpc : pc.mayTouch id)
    (ht : s.transfers.lookup id = some t) :
    ∃ e s' pc', sendMediaStep ctx req s pc e = some (s', pc') ∧
      ¬ CancelKept id (s.handedFor id) s' := by
  cases pc with
  | start =>
    obtain ⟨unixNano, rfl⟩ := hpc
    exact ⟨.register unixNano 0, _, _, rfl, register_breaks rfl⟩
  | registered msgID =>
    obtain rfl : msgID = id := hpc
    exact ⟨.getRelays [], _, _, rfl, modify_breaks ht rfl (by simp [MediaTransfer.fail])⟩
  | uploading msgID =>
    obtain rfl : msgID = id := hpc
    refine ⟨.sendChunks unanswered, s.modify msgID (MediaTransfer.fail .upload),
      .returned (.error .upload), ?_, modify_breaks ht rfl (by simp [MediaTransfer.fail])⟩
    simp only [sendMediaStep, sendChunks_unanswered]
  | confirming msgID info =>
    obtain rfl : msgID = id := hpc
    cases hseal : ctx.sealMeta { info with timestamp := 0, messageID := msgID } req.peerPubkey
      someNonce with
    | error e =>
      refine ⟨.confirm 0 someNonce, s.modify msgID (MediaTransfer.fail e), .returned (.error e),
        ?_, modify_breaks ht rfl (by simp [MediaTransfer.fail])⟩
      simp only [sendMediaStep, hseal]
    | ok sealed =>
      refine ⟨.confirm 0 someNonce, s.handOver msgID ⟨sealed.2 ++ sealed.1, req.peerPubkey⟩,
        .handed msgID, ?_, handOver_breaks s _⟩
      simp only [sendMediaStep, hseal]
  | handed msgID =>
    obtain rfl : msgID = id := hpc
    exact ⟨.engine false, _, _, rfl, modify_breaks ht rfl (by simp [MediaTransfer.fail])⟩
  | returned result => exact hpc.elim

private theorem streamStep_breaks (ctx : MediaContext) {s : MediaState} {pc : StreamPc} {id : Bytes}
    {t : MediaTransfer} (hpc : pc.mayTouch id) (ht : s.transfers.lookup id = some t) :
    ∃ e s' pc', streamStep ctx s pc e = some (s', pc') ∧
      ¬ CancelKept id (s.handedFor id) s' := by
  cases pc with
  | receiving v =>
    by_cases hid : v.transferID = []
    · -- Without an id yet, a chunk that names the transfer registers it anew.
      let r : Receipt := ⟨⟨id, []⟩, 0, 0, true, 0⟩
      have htrack : (s.track v r).transfers = (s.register id 0).transfers := by
        simp [MediaState.track, readHeader_transferID, r]
      refine ⟨.recv r, s.track v r, .receiving (v.header r), ?_, register_breaks htrack⟩
      simp [streamStep, hid, r]
    · obtain rfl : v.transferID = id := hpc.resolve_left hid
      refine ⟨.recvError, s.failBoth v.transferID .recv v.chunkCount, .returned (.error .recv), ?_,
        modify_breaks ht rfl (by simp [MediaTransfer.fail])⟩
      simp only [streamStep, if_neg hid]
  | assembled v file =>
    obtain ⟨hpeer, rfl⟩ := hpc
    refine ⟨.upload true [] unanswered true,
      s.failBoth v.transferID .noRelaysForUpload v.chunkCount,
      .returned (.error .noRelaysForUpload), ?_,
      modify_breaks ht rfl (by simp [MediaTransfer.fail])⟩
    simp [streamStep, hpeer]
  | uploaded v info =>
    obtain rfl : v.transferID = id := hpc
    cases hseal : ctx.sealMeta { info with timestamp := 0, messageID := v.transferID } v.peerPubkey
      someNonce with
    | error e =>
      refine ⟨.confirm 0 someNonce, s.failBoth v.transferID e v.chunkCount,
        .returned (.error e.ofStream), ?_, modify_breaks ht rfl (by simp [MediaTransfer.fail])⟩
      simp only [streamStep, hseal]
    | ok sealed =>
      refine ⟨.confirm 0 someNonce, s.handOver v.transferID ⟨sealed.1, v.peerPubkey⟩, .handed v,
        ?_, handOver_breaks s _⟩
      simp only [streamStep, hseal]
  | handed v =>
    obtain rfl : v.transferID = id := hpc
    exact ⟨.close true, _, _, rfl, modify_breaks ht rfl (by simp [MediaTransfer.complete])⟩
  | returned result => exact hpc.elim

theorem MediaSystem.step_breaks (ctx : MediaContext) {sys : MediaSystem} {id : Bytes}
    {t : MediaTransfer} (hpc : sys.sender.mayTouch id)
    (ht : sys.state.transfers.lookup id = some t) :
    ∃ a sys', sys.step ctx a = some sys' ∧ ¬ CancelKept id (sys.state.handedFor id) sys'.state := by
  obtain ⟨s, sender⟩ := sys
  cases sender with
  | media req pc =>
    obtain ⟨e, s', pc', hstep, hbroken⟩ := sendMediaStep_breaks ctx req hpc ht
    refine ⟨.send (.media e), ⟨s', .media req pc'⟩, ?_, hbroken⟩
    simp only [MediaSystem.step, Sender.step, hstep, Option.map_some]
  | stream pc =>
    obtain ⟨e, s', pc', hstep, hbroken⟩ := streamStep_breaks ctx hpc ht
    refine ⟨.send (.stream e), ⟨s', .stream pc'⟩, ?_, hbroken⟩
    simp only [MediaSystem.step, Sender.step, hstep, Option.map_some]

/-! ## When a cancellation is final -/

/-- After a successful `CancelSend` every interleaving keeps the transfer cancelled and
hands over no metadata for it, exactly when the sender has no write to it left: it has
returned, works on another transfer, or has assembled a file that goes to nobody. -/
theorem cancellation_final_iff (ctx : MediaContext) (sys : MediaSystem) (id : Bytes)
    (cancelled : MediaState) (h : sys.state.cancelSend id = .ok cancelled) :
    (∀ actions t, run (MediaSystem.step ctx) ⟨cancelled, sys.sender⟩ actions = some t →
      (∀ transfer, t.state.transfers.lookup id = some transfer →
        transfer.status = .cancelled) ∧
      t.state.handedFor id = cancelled.handedFor id) ↔
    ¬ sys.sender.mayTouch id := by
  obtain ⟨t₀, htransfers, hhanded⟩ := cancelSend_ok h
  have hentry : cancelled.transfers.lookup id = some { t₀ with status := .cancelled } := by
    rw [htransfers, lookup_insert_ite, if_pos rfl]
  constructor
  · intro hall hpc
    let start : MediaSystem := ⟨cancelled, sys.sender⟩
    obtain ⟨a, sys', hstep, hbroken⟩ : ∃ a sys', start.step ctx a = some sys' ∧ _ :=
      MediaSystem.step_breaks ctx hpc hentry
    obtain ⟨hc, hh⟩ := hall [a] sys' (run_cons.mpr ⟨sys', hstep, run_nil sys'⟩)
    exact hbroken ⟨hc, hh⟩
  · intro hpc actions t hrun
    have hstart : CancelKept id (cancelled.handedFor id) cancelled := by
      refine ⟨fun t ht => ?_, rfl⟩
      rw [hentry] at ht
      obtain rfl := Option.some.inj ht
      rfl
    let Kept : MediaSystem → Prop := fun u =>
      CancelKept id (cancelled.handedFor id) u.state ∧ ¬ u.sender.mayTouch id
    have hstep : ∀ u a u', Kept u → MediaSystem.step ctx u a = some u' → Kept u' :=
      fun u a u' hk hs => MediaSystem.step_kept hk hs
    have hi : Kept ⟨cancelled, sys.sender⟩ := ⟨hstart, hpc⟩
    have hkept : Kept t := run_invariant hstep hi hrun
    exact ⟨hkept.1.cancelled, hkept.1.handed_eq⟩

/-- A file of one byte for the peer of key `2`. -/
def oneByte : SendMediaRequest := ⟨(identityOf 2).pubkeyB64, [7], lit "f", lit "text/plain"⟩

/-- A stream that returned because its file could not be read leaves its transfer queued. -/
def leftQueued : MediaSystem :=
  ⟨idleMedia.register (lit "t") 0, .stream (.returned (.error .readTemp))⟩

def leftCancelled : MediaState :=
  { leftQueued.state with
    transfers := (∅ : GoMap Bytes MediaTransfer).insert (lit "t") ⟨.cancelled, 0, 0, none, 0⟩ }

/-- Cancelling what a returned call left behind is final. -/
theorem cancellation_final_iff_returned :
    leftQueued.state.cancelSend (lit "t") = .ok leftCancelled ∧
    ∀ actions t, run (MediaSystem.step plainContext) ⟨leftCancelled, leftQueued.sender⟩ actions =
        some t →
      (∀ transfer, t.state.transfers.lookup (lit "t") = some transfer →
        transfer.status = .cancelled) ∧
      t.state.handedFor (lit "t") = [] := by
  have hcancel : leftQueued.state.cancelSend (lit "t") = .ok leftCancelled := rfl
  exact ⟨hcancel, (cancellation_final_iff plainContext leftQueued (lit "t") leftCancelled
    hcancel).mpr (fun h => h)⟩

/-- `SendMedia` of one byte is cancelled while it uploads. The cancellation succeeds, and
then the metadata is handed over and the transfer is complete. -/
theorem cancelled_completes : ∃ before after : MediaSystem,
    run (MediaSystem.step plainContext) ⟨idleMedia, .media oneByte .start⟩
      [.send (.media (.register 16 0)), .send (.media (.getRelays [lit "relay"]))] = some before ∧
    (before.state.cancelSend (lit "10")).toOption.isSome = true ∧
    run (MediaSystem.step plainContext) before
      [.cancelSend (lit "10"), .send (.media (.sendChunks answered)),
        .send (.media (.confirm 0 someNonce)), .send (.media (.engine true))] = some after ∧
    before.state.handedFor (lit "10") = [] ∧
    (after.state.transfers.lookup (lit "10")).map MediaTransfer.status = some .complete ∧
    (after.state.handedFor (lit "10")).length = 1 := by
  refine ⟨_, _, rfl, ?_, rfl, ?_, ?_, ?_⟩
  · decide +kernel
  · decide +kernel
  · decide +kernel
  · decide +kernel

end VRGram.Client
