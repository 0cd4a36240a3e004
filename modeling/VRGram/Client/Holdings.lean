import VRGram.Client.Polling
import VRGram.Client.SendParallel

/-!
# What the relays hold during a parallel send

Every run of `sendParallel` only adds to what the relays hold of the message, and a chunk
that is marked as delivered is held by some relay of the call.
-/
namespace VRGram.Client

open VRGram.Lib.Maps VRGram.Lib.Strings VRGram.Lib.Dns VRGram.Lib.Machine
open VRGram.Encoding VRGram.Store VRGram.Relay

set_option autoImplicit false

/-! ## Deliveries of a parcel's chunks -/

/-- What the relays hold of a parcel, host by host. -/
def Holdings (p : Parcel) (w : Relays) (got : Bytes → List Nat) : Prop :=
  ∀ site, Carries p (w site) (got site)

/-- More has been accepted everywhere. -/
def Grows (got got' : Bytes → List Nat) : Prop := ∀ site, ∀ i ∈ got site, i ∈ got' site

theorem grows_refl (got : Bytes → List Nat) : Grows got got := fun _ _ hi => hi

theorem Grows.trans {a b c : Bytes → List Nat} (hab : Grows a b) (hbc : Grows b c) : Grows a c :=
  fun site i hi => hbc site i (hab site i hi)

theorem holdings_accept {p : Parcel} (hsmall : p.n ≤ 65535) {w : Relays} {got : Bytes → List Nat}
    (h : Holdings p w got) {i : Nat} (hi : i < p.n) (site : Bytes) (ctx : Context) :
    Holdings p (Function.update w site (acceptChunk ctx (p.chunk i) (w site)))
      (Function.update got site (i :: got site)) := by
  intro other
  by_cases hs : other = site
  · subst hs
    rw [Function.update_self, Function.update_self]
    exact carries_accept hsmall (h _) hi ctx
  · rw [Function.update_of_ne hs, Function.update_of_ne hs]
    exact h other

/-- A relay accepts the query of a chunk that announces at least one chunk. -/
theorem handleRequest_accepts {chunk : Chunk} (hash : chunk.HashOk) (htotal : chunk.totalChunks ≠ 0)
    {zone : Bytes} (hz : ZoneOk zone) {ctx : Context} (hadm : ctx.admitted = true) (s : ChunkStore) :
    handleRequest zone ctx [questionName chunk.bodyLabels zone] s =
      (acknowledge chunk, acceptChunk ctx chunk s) := by
  rw [handleRequest_chunk hash hz hadm, chunkQuery, if_neg htotal, serve]

section Parcels

variable {call : Call} (hz : ZoneOk call.zone) {p : Parcel} (hsmall : p.n ≤ 65535)

include hz hsmall

/-- One handled query of chunk `i`: a successful answer means that it was accepted. -/
theorem holdings_deliver {w : Relays} {got : Bytes → List Nat} (h : Holdings p w got) {i : Nat}
    (hi : i < p.n) (relay : Bytes) (ctx : Context) :
    ∃ got', Holdings p (call.deliver relay (p.chunk i) ctx w) got' ∧ Grows got got' ∧
      ((handleRequest call.zone ctx [questionName (p.chunk i).bodyLabels call.zone]
        (w (call.host relay))).1.rcode = .success → i ∈ got' (call.host relay)) := by
  cases hadm : ctx.admitted with
  | false =>
    have hreq : handleRequest call.zone ctx [questionName (p.chunk i).bodyLabels call.zone]
        (w (call.host relay)) = (.failure .refused, w (call.host relay)) := by
      rw [handleRequest, if_pos hadm]
    refine ⟨got, ?_, grows_refl got, ?_⟩
    · rw [Call.deliver, hreq, Function.update_eq_self]
      exact h
    · intro hs
      rw [hreq] at hs
      cases hs
  | true =>
    have hreq := handleRequest_accepts (p.chunk_hashOk i) (Parcel.chunk_total_ne hsmall i) hz hadm
      (w (call.host relay))
    refine ⟨Function.update got (call.host relay) (i :: got (call.host relay)), ?_, ?_, ?_⟩
    · rw [Call.deliver, hreq]
      exact holdings_accept hsmall h hi (call.host relay) ctx
    · intro site j hj
      by_cases hs : site = call.host relay
      · subst hs
        rw [Function.update_self]
        exact List.mem_cons_of_mem i hj
      · rw [Function.update_of_ne hs]
        exact hj
    · intro _
      rw [Function.update_self]
      exact List.mem_cons_self

omit hz hsmall in
/-- An exchange either leaves the relays alone or has a relay handle the query. -/
theorem fatedExchange_cases (call : Call) (proto : Net) (relay : Bytes) (chunk : Chunk)
    (v : Relays × List Fate) :
    let r := fatedExchange call.zone call.host proto relay (questionName chunk.bodyLabels call.zone) v
    (r.1 = none ∧ r.2.1 = v.1) ∨
    ∃ ctx, r.2.1 = call.deliver relay chunk ctx v.1 ∧
      (r.1 = none ∨ r.1 = some (handleRequest call.zone ctx
        [questionName chunk.bodyLabels call.zone] (v.1 (call.host relay))).1) := by
  obtain ⟨w, fates⟩ := v
  cases fates with
  | nil => exact Or.inl ⟨rfl, rfl⟩
  | cons fate fates =>
    cases fate with
    | lost => exact Or.inl ⟨rfl, rfl⟩
    | unanswered ctx => exact Or.inr ⟨ctx, rfl, Or.inl rfl⟩
    | answered ctx => exact Or.inr ⟨ctx, rfl, Or.inr rfl⟩

theorem holdings_exchange {v : Relays × List Fate} {got : Bytes → List Nat}
    (h : Holdings p v.1 got) {i : Nat} (hi : i < p.n) (proto : Net) (relay : Bytes) :
    let r := fatedExchange call.zone call.host proto relay
      (questionName (p.chunk i).bodyLabels call.zone) v
    ∃ got', Holdings p r.2.1 got' ∧ Grows got got' ∧
      ∀ m, r.1 = some m → m.rcode = .success → i ∈ got' (call.host relay) := by
  intro r
  rcases fatedExchange_cases call proto relay (p.chunk i) v with ⟨hnone, hw⟩ | ⟨ctx, hw, hr⟩
  · refine ⟨got, by rw [hw]; exact h, grows_refl got, ?_⟩
    intro m hm
    rw [hnone] at hm
    cases hm
  · obtain ⟨got', hhold, hgrow, hsucc⟩ := holdings_deliver hz hsmall h hi relay ctx
    refine ⟨got', by rw [hw]; exact hhold, hgrow, ?_⟩
    intro m hm hs
    rcases hr with hnone | hsome
    · rw [hnone] at hm
      cases hm
    · rw [hsome] at hm
      obtain rfl := Option.some.inj hm
      exact hsucc hs

/-- A send of chunk `i` only adds holdings, and its success adds that chunk. -/
theorem holdings_send {w : Relays} {got : Bytes → List Nat} (h : Holdings p w got) {i : Nat}
    (hi : i < p.n) (relay : Bytes) (mode : TransportMode) (fates : List Fate) :
    ∃ got', Holdings p (call.sendResult relay (p.chunk i) mode fates w).2 got' ∧ Grows got got' ∧
      ((call.sendResult relay (p.chunk i) mode fates w).1 = .ok () →
        i ∈ got' (call.host relay)) := by
  have hkeep : ∀ (proto : Net) (v : Relays × List Fate),
      (∃ got', Holdings p v.1 got' ∧ Grows got got') →
      ∃ got', Holdings p (fatedExchange call.zone call.host proto relay
        (questionName (p.chunk i).bodyLabels call.zone) v).2.1 got' ∧ Grows got got' := by
    intro proto v hv
    obtain ⟨mid, hmid, hgrow⟩ := hv
    obtain ⟨got', hhold, hgrow', _⟩ := holdings_exchange hz hsmall hmid hi proto relay
    exact ⟨got', hhold, hgrow.trans hgrow'⟩
  obtain ⟨⟨final, hfinal, hgrow⟩, hok⟩ :=
    sendChunk_spec (fatedExchange call.zone call.host) relay call.zone (p.chunk i) mode (w, fates)
      (fun v => ∃ got', Holdings p v.1 got' ∧ Grows got got') hkeep ⟨got, h, grows_refl got⟩
  by_cases hres : (call.sendResult relay (p.chunk i) mode fates w).1 = .ok ()
  · obtain ⟨proto, v, m, ⟨mid, hmid, hgrow'⟩, hm, hex⟩ := hok hres
    obtain ⟨got', hhold, hgrow'', hsucc⟩ := holdings_exchange hz hsmall hmid hi proto relay
    rw [hex] at hhold hsucc
    exact ⟨got', hhold, hgrow'.trans hgrow'', fun _ => hsucc m rfl hm⟩
  · exact ⟨final, hfinal, hgrow, fun hc => absurd hc hres⟩

end Parcels

/-! ## What a run delivers -/

theorem parcel_nth {call : Call} {p : Parcel} (hchunks : call.chunks = p.chunks) {i : Nat} {c : Chunk}
    (h : call.chunks[i]? = some c) : i < p.n ∧ c = p.chunk i := by
  rw [hchunks, Parcel.chunks, List.getElem?_map] at h
  obtain ⟨j, hj, rfl⟩ := Option.map_eq_some_iff.mp h
  obtain ⟨hlt, rfl⟩ := List.getElem?_eq_some_iff.mp hj
  rw [List.length_range] at hlt
  simp [hlt]

/-- The relays hold what `got` says, and accepted or marked chunks are among it. -/
structure Tracked (call : Call) (p : Parcel) (s : Sending) (got : Bytes → List Nat) : Prop where
  holdings : Holdings p s.world got
  landed : ∀ wk ∈ s.workers, wk.phase = .accepted → wk.index ∈ got (call.host wk.relay)
  marked : ∀ i : Nat, s.chunkDelivered[i]? = some true →
    ∃ relay ∈ call.relays, i ∈ got (call.host relay)

theorem Tracked.grow {call : Call} {p : Parcel} {s : Sending} {got got' : Bytes → List Nat}
    (h : Tracked call p s got) {w : Relays} (hw : Holdings p w got') (hg : Grows got got') :
    Tracked call p { s with world := w } got' where
  holdings := hw
  landed wk hwk hp := hg _ _ (h.landed wk hwk hp)
  marked i hi := by
    obtain ⟨relay, hr, hm⟩ := h.marked i hi
    exact ⟨relay, hr, hg _ _ hm⟩

theorem Tracked.setPhase {call : Call} {p : Parcel} {s : Sending} {got : Bytes → List Nat}
    (h : Tracked call p s got) (k : Nat) (wk : Worker) (phase : Phase)
    (hp : phase = .accepted → wk.index ∈ got (call.host wk.relay)) :
    Tracked call p (s.setPhase k wk phase) got where
  holdings := h.holdings
  landed v hv ha := by
    rcases List.mem_or_eq_of_mem_set hv with hold | rfl
    · exact h.landed v hold ha
    · exact hp ha
  marked := h.marked

/-- The workers are those of the call, and the relays hold what they have delivered. -/
structure Followed (call : Call) (p : Parcel) (s : Sending) : Prop where
  staffed : Staffed call s
  tracked : ∃ got, Tracked call p s got

theorem followed_step {call : Call} (hz : ZoneOk call.zone) {p : Parcel} (hsmall : p.n ≤ 65535)
    (hchunks : call.chunks = p.chunks) {s t : Sending} {a : Act} (hf : Followed call p s)
    (hs : call.step s a = some t) : Followed call p t := by
  refine ⟨staffed_step hf.staffed hs, ?_⟩
  obtain ⟨got, h⟩ := hf.tracked
  cases call_step_cases hs with
  | move a k wk phase hk hold hp => exact ⟨got, h.setPhase k wk phase (fun ha => absurd ha hp)⟩
  | send k wk chunk mode fates hk hold hc =>
    obtain ⟨hi, rfl⟩ := parcel_nth hchunks hc
    obtain ⟨got', hhold, hgrow, hok⟩ := holdings_send hz hsmall h.holdings hi wk.relay mode fates
    refine ⟨got', (h.grow hhold hgrow).setPhase k wk _ ?_⟩
    intro ha
    split at ha
    next hres => exact hok hres
    next => cases ha
  | mark k wk hk hold =>
    have hland := h.landed wk (List.mem_of_getElem? hk) hold
    have hrelay := (hf.staffed.2 wk (List.mem_of_getElem? hk)).2
    have hset := h.setPhase k wk .finished Phase.noConfusion
    refine ⟨got, hset.holdings, hset.landed, ?_⟩
    intro i hi
    rw [List.getElem?_set] at hi
    split at hi
    next hwi =>
      subst hwi
      exact ⟨wk.relay, hrelay, hland⟩
    next => exact h.marked i hi
  | duplicate k wk chunk ctx hk hc =>
    obtain ⟨hi, rfl⟩ := parcel_nth hchunks hc
    obtain ⟨got', hhold, hgrow, _⟩ := holdings_deliver hz hsmall h.holdings hi wk.relay ctx
    exact ⟨got', h.grow hhold hgrow⟩
  | control a cancelled main hmain => exact ⟨got, h.holdings, h.landed, h.marked⟩

theorem followed_start {call : Call} {p : Parcel} {w : Relays}
    (hfresh : Holdings p w (fun _ => [])) : Followed call p (call.start w) := by
  refine ⟨staffed_start call w, fun _ => [], hfresh, ?_, ?_⟩
  · intro wk hwk ha
    rw [(mem_call_workers.mp hwk).2.2] at ha
    cases ha
  · intro i hi
    rw [Call.start, List.getElem?_replicate] at hi
    split at hi <;> cases hi

/-! ## Every relay stays well stored -/

theorem wellStored_deliver {call : Call} {w : Relays} (h : ∀ site, WellStored (w site)) (relay : Bytes)
    (chunk : Chunk) (ctx : Context) : ∀ site, WellStored (call.deliver relay chunk ctx w site) := by
  intro site
  unfold Call.deliver
  by_cases hs : site = call.host relay
  · subst hs
    rw [Function.update_self]
    exact wellStored_request (h _) _ _ _
  · rw [Function.update_of_ne hs]
    exact h site

/-- A send keeps what every handled query keeps. -/
theorem sendResult_keeps {call : Call} {w : Relays} {relay : Bytes} {chunk : Chunk}
    {mode : TransportMode} {fates : List Fate} (Inv : Relays → Prop)
    (hinv : ∀ v ctx, Inv v → Inv (call.deliver relay chunk ctx v)) (h : Inv w) :
    Inv (call.sendResult relay chunk mode fates w).2 := by
  refine (sendChunk_spec (fatedExchange call.zone call.host) relay call.zone chunk mode (w, fates)
    (fun v => Inv v.1) ?_ h).1
  intro proto v hv
  rcases fatedExchange_cases call proto relay chunk v with ⟨_, hw⟩ | ⟨ctx, hw, _⟩
  · rw [hw]; exact hv
  · rw [hw]; exact hinv v.1 ctx hv

theorem wellStored_call_step {call : Call} {s t : Sending} {a : Act}
    (h : ∀ site, WellStored (s.world site)) (hs : call.step s a = some t) :
    ∀ site, WellStored (t.world site) := by
  cases call_step_cases hs with
  | move a k wk phase hk hold hp => exact h
  | send k wk chunk mode fates hk hold hc =>
    exact sendResult_keeps (fun v => ∀ site, WellStored (v site))
      (fun v ctx hv => wellStored_deliver hv wk.relay chunk ctx) h
  | mark k wk hk hold => exact h
  | duplicate k wk chunk ctx hk hc => exact wellStored_deliver h wk.relay chunk ctx
  | control a cancelled main hmain => exact h

end VRGram.Client
