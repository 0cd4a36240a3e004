import VRGram.Client.Offers
import VRGram.Encoding.Reassembly

/-!
# Is a successful send retrievable?

`sendParallel` succeeds once every chunk has been accepted by some relay, while a
reader takes all chunks of a message from one relay. The two agree for every schedule
exactly when all addresses lead to one relay or the message is a single chunk.
-/
namespace VRGram.Client

open VRGram.Lib.Maps VRGram.Lib.Strings VRGram.Lib.Dns VRGram.Lib.Machine
open VRGram.Encoding VRGram.Store VRGram.Relay

set_option autoImplicit false

/-- Whoever polls the same relays for the recipient, with any engine that has not fetched
the message yet, gets the whole payload. -/
def Retrievable (call : Call) (sha256 : Bytes → Digest) (recipient : Bytes) (msgID : MsgID)
    (payload : Bytes) (w : Relays) : Prop :=
  ∀ (net : Network Relays) (e : DNSClientEngine), Reachable call.zone call.host net →
    e.zone = call.zone → e.discoverActiveRelays = call.relays →
    (e.fetched.lookup msgID).getD false = false →
    ∃ msgs e', (e.pollMessages net sha256 recipient w).1 = some (.ok msgs, e') ∧
      ∃ m ∈ msgs, m.msgID = msgID ∧ m.data = payload

/-! ## Runs in which success is enough -/

private theorem retrievable_of_complete {call : Call} (hz : ZoneOk call.zone) {p : Parcel}
    (hsmall : p.n ≤ 65535) {sha256 : Bytes → Digest} {recipient : Bytes} (hrec : recipient ≠ [])
    (hhash : p.hash = (sha256 recipient).val) {w : Relays} (hw : ∀ site, WellStored (w site))
    {got : Bytes → List Nat} (h : Holdings p w got)
    (hcomplete : ∃ relay ∈ call.relays, ∀ i < p.n, i ∈ got (call.host relay)) :
    Retrievable call sha256 recipient p.msgID p.payload w := by
  intro net e hreach hez hrelays hnew
  obtain ⟨msgs, fetched', hpoll, -, hmem, -⟩ := pollMessages_offers hreach hz hez hw sha256 recipient
  obtain ⟨relay, hrelay, hfull⟩ := hcomplete
  obtain ⟨m, ho⟩ := offered_complete (e := e) hsmall h hz hw hrec hhash (hrelays ▸ hrelay) hfull
  obtain ⟨hid, hdata⟩ := offered_carries hsmall h ho
  have hlisted : m ∈ msgs := (hmem m).mpr ⟨by rw [hid]; exact hnew, by rw [hid]; exact ho⟩
  exact ⟨msgs, _, hpoll, m, hlisted, hid, hdata⟩

/-! ## Messages whose chunk count wraps to zero -/

/-- No relay knows the message and no chunk has been accepted. -/
structure Unheard (id : MsgID) (s : Sending) : Prop where
  absent : ∀ site i, (s.world site).getChunk id i = none
  landed : ∀ wk ∈ s.workers, wk.phase ≠ .accepted
  marked : ∀ b ∈ s.chunkDelivered, b = false

section Wrapped

variable {call : Call} (hz : ZoneOk call.zone) {chunk : Chunk} (hash : chunk.HashOk)
  (htotal : chunk.totalChunks = 0)

include hz hash htotal

/-- The relay takes such a chunk for a query of a message it does not have. -/
theorem deliver_wrapped {w : Relays} (habsent : ∀ site i, (w site).getChunk chunk.msgID i = none)
    (relay : Bytes) (ctx : Context) :
    call.deliver relay chunk ctx w = w ∧
    (handleRequest call.zone ctx [questionName chunk.bodyLabels call.zone]
      (w (call.host relay))).1.rcode ≠ .success := by
  have hreq : ∃ code, code ≠ .success ∧
      handleRequest call.zone ctx [questionName chunk.bodyLabels call.zone] (w (call.host relay)) =
        (.failure code, w (call.host relay)) := by
    cases hadm : ctx.admitted with
    | false => exact ⟨.refused, by decide, by rw [handleRequest, if_pos hadm]⟩
    | true =>
      refine ⟨.nameError, by decide, ?_⟩
      rw [handleRequest_chunk hash hz hadm, chunkQuery, if_pos htotal, serve, answerQuery, habsent]
  obtain ⟨code, hcode, hreq⟩ := hreq
  rw [Call.deliver, hreq, Function.update_eq_self]
  exact ⟨rfl, hcode⟩

private theorem sendResult_wrapped {w : Relays}
    (habsent : ∀ site i, (w site).getChunk chunk.msgID i = none)
    (relay : Bytes) (mode : TransportMode) (fates : List Fate) :
    (call.sendResult relay chunk mode fates w).2 = w ∧
    (call.sendResult relay chunk mode fates w).1 ≠ .ok () := by
  have hkeep : ∀ (proto : Net) (v : Relays × List Fate), v.1 = w →
      (fatedExchange call.zone call.host proto relay (questionName chunk.bodyLabels call.zone) v).2.1
        = w := by
    intro proto v hv
    rcases fatedExchange_cases call proto relay chunk v with ⟨_, hw⟩ | ⟨ctx, hw, _⟩
    · rw [hw, hv]
    · rw [hw, hv, (deliver_wrapped hz hash htotal habsent relay ctx).1]
  obtain ⟨hsame, hok⟩ := sendChunk_spec (fatedExchange call.zone call.host) relay call.zone chunk mode
    (w, fates) (fun v => v.1 = w) hkeep rfl
  refine ⟨hsame, ?_⟩
  intro hres
  obtain ⟨proto, v, m, hv, hm, hex⟩ := hok hres
  rcases fatedExchange_cases call proto relay chunk v with ⟨hnone, _⟩ | ⟨ctx, _, hr⟩
  · rw [hex] at hnone
    cases hnone
  · rw [hex] at hr
    rcases hr with hnone | hsome
    · cases hnone
    · obtain rfl := Option.some.inj hsome
      rw [hv] at hm
      exact (deliver_wrapped hz hash htotal habsent relay ctx).2 hm

end Wrapped

private theorem unheard_step {call : Call} (hz : ZoneOk call.zone) {id : MsgID}
    (hchunks : ∀ c ∈ call.chunks, c.msgID = id ∧ c.HashOk ∧ c.totalChunks = 0) {s t : Sending}
    {a : Act} (h : Unheard id s) (hs : call.step s a = some t) : Unheard id t := by
  have hset : ∀ (k : Nat) (wk : Worker) (phase : Phase), phase ≠ .accepted →
      ∀ v ∈ (s.setPhase k wk phase).workers, v.phase ≠ .accepted := by
    intro k wk phase hp v hv
    rcases List.mem_or_eq_of_mem_set hv with hold | rfl
    · exact h.landed v hold
    · exact hp
  cases call_step_cases hs with
  | move a k wk phase hk hold hp => exact ⟨h.absent, hset k wk phase hp, h.marked⟩
  | send k wk chunk mode fates hk hold hc =>
    obtain ⟨hid, hash, htotal⟩ := hchunks chunk (List.mem_of_getElem? hc)
    subst hid
    obtain ⟨hsame, hfail⟩ := sendResult_wrapped hz hash htotal h.absent wk.relay mode fates
    rw [hsame, if_neg hfail]
    exact ⟨h.absent, hset k wk .finished (by decide), h.marked⟩
  | mark k wk hk hold => exact absurd hold (h.landed wk (List.mem_of_getElem? hk))
  | duplicate k wk chunk ctx hk hc =>
    obtain ⟨hid, hash, htotal⟩ := hchunks chunk (List.mem_of_getElem? hc)
    subst hid
    rw [(deliver_wrapped hz hash htotal h.absent wk.relay ctx).1]
    exact ⟨h.absent, h.landed, h.marked⟩
  | control a cancelled main hmain => exact ⟨h.absent, h.landed, h.marked⟩

/-! ## A schedule for every pattern of acceptance -/

section Schedule

variable (call : Call) (plan : Nat → Bytes → Bool) (ctx : Context)

/-- The workers run one after the other; those in the plan get through. -/
def Call.schedule : Nat → List Worker → List Act
  | _, [] => []
  | k, wk :: rest =>
    (if plan wk.index wk.relay then
      [.acquire k, .proceed k, .send k .tcp [.answered ctx], .mark k]
     else [.acquire k, .proceed k, .send k .tcp [.lost]]) ++
    Call.schedule (k + 1) rest

def Call.planWorld (w : Relays) (wk : Worker) : Relays :=
  match call.chunks[wk.index]? with
  | some chunk => if plan wk.index wk.relay then call.deliver wk.relay chunk ctx w else w
  | none => w

def planMark (delivered : List Bool) (wk : Worker) : List Bool :=
  if plan wk.index wk.relay then delivered.set wk.index true else delivered

def Worker.finish (wk : Worker) : Worker := { wk with phase := .finished }

/-- The relays after all workers of the plan. -/
def Call.planned (w : Relays) : Relays := call.workers.foldl (call.planWorld plan ctx) w

/-- All workers are through. -/
def Call.settled (w : Relays) : Sending where
  workers := call.workers.map Worker.finish
  chunkDelivered :=
    call.workers.foldl (planMark plan) (List.replicate call.chunks.length false)
  cancelled := false
  main := .selecting
  world := call.planned plan ctx w

end Schedule

section

variable {call : Call} (plan : Nat → Bytes → Bool) {ctx : Context}

theorem getElem_middle {α : Type} (l r : List α) (x : α) : (l ++ x :: r)[l.length]? = some x := by
  simp

theorem set_middle {α : Type} (l r : List α) (x y : α) : (l ++ x :: r).set l.length y = l ++ y :: r := by
  simp

/-- One worker from start to end, with the slots free. -/
theorem schedule_worker {prior later : List Worker} {wk : Worker} {chunk : Chunk}
    (hprior : ∀ v ∈ prior, v.phase = .finished) (hlater : ∀ v ∈ later, v.phase = .waiting)
    (hwk : wk.phase = .waiting) (hc : call.chunks[wk.index]? = some chunk)
    (hsucc : ∀ w : Relays, (handleRequest call.zone ctx [questionName chunk.bodyLabels call.zone]
      (w (call.host wk.relay))).1.rcode = .success) (delivered : List Bool) (w : Relays) :
    run call.step ⟨prior ++ wk :: later, delivered, false, .selecting, w⟩
      (if plan wk.index wk.relay then
        [.acquire prior.length, .proceed prior.length, .send prior.length .tcp [.answered ctx],
          .mark prior.length]
       else [.acquire prior.length, .proceed prior.length, .send prior.length .tcp [.lost]]) =
      some ⟨prior ++ wk.finish :: later, planMark plan delivered wk, false, .selecting,
        call.planWorld plan ctx w wk⟩ := by
  have hheld : (Sending.mk (prior ++ wk :: later) delivered false .selecting w).held = 0 := by
    rw [Sending.held, List.countP_eq_zero]
    intro v hv
    rcases List.mem_append.mp hv with hp | hl
    · simp [hprior v hp]
    · rcases List.mem_cons.mp hl with rfl | ht
      · simp [hwk]
      · simp [hlater v ht]
  have hacquire : call.step ⟨prior ++ wk :: later, delivered, false, .selecting, w⟩
      (.acquire prior.length) =
      some ⟨prior ++ { wk with phase := .holding } :: later, delivered, false, .selecting, w⟩ := by
    simp only [Call.step, Sending.withWorker, getElem_middle, if_pos hwk, hheld, parallelism,
      Sending.setPhase, set_middle]
    rfl
  have hproceed : call.step ⟨prior ++ { wk with phase := .holding } :: later, delivered, false,
      .selecting, w⟩ (.proceed prior.length) =
      some ⟨prior ++ { wk with phase := .sending } :: later, delivered, false, .selecting, w⟩ := by
    simp only [Call.step, Sending.withWorker, getElem_middle, Sending.setPhase, set_middle]
    rfl
  by_cases hplan : plan wk.index wk.relay = true
  · have hresult : call.sendResult wk.relay chunk .tcp [.answered ctx] w =
        (.ok (), call.deliver wk.relay chunk ctx w) := by
      simp only [Call.sendResult, sendChunk, fatedExchange, sendResult, hsucc w]
      rfl
    have hsend : call.step ⟨prior ++ { wk with phase := .sending } :: later, delivered, false,
        .selecting, w⟩ (.send prior.length .tcp [.answered ctx]) =
        some ⟨prior ++ { wk with phase := .accepted } :: later, delivered, false, .selecting,
          call.deliver wk.relay chunk ctx w⟩ := by
      simp only [Call.step, Sending.withWorker, getElem_middle, Sending.setPhase, set_middle, hc,
        hresult, Option.map_some]
      rfl
    have hmark : call.step ⟨prior ++ { wk with phase := .accepted } :: later, delivered, false,
        .selecting, call.deliver wk.relay chunk ctx w⟩ (.mark prior.length) =
        some ⟨prior ++ wk.finish :: later, delivered.set wk.index true, false, .selecting,
          call.deliver wk.relay chunk ctx w⟩ := by
      simp only [Call.step, Sending.withWorker, getElem_middle, Sending.setPhase, set_middle]
      rfl
    rw [if_pos hplan, run_cons]
    refine ⟨_, hacquire, run_cons.mpr ⟨_, hproceed, run_cons.mpr ⟨_, hsend, run_cons.mpr ⟨_, hmark, ?_⟩⟩⟩⟩
    rw [run_nil, planMark, if_pos hplan, Call.planWorld, hc]
    simp only [if_pos hplan]
  · have hresult : call.sendResult wk.relay chunk .tcp [.lost] w = (.error .exchange, w) := rfl
    have hsend : call.step ⟨prior ++ { wk with phase := .sending } :: later, delivered, false,
        .selecting, w⟩ (.send prior.length .tcp [.lost]) =
        some ⟨prior ++ wk.finish :: later, delivered, false, .selecting, w⟩ := by
      simp only [Call.step, Sending.withWorker, getElem_middle, Sending.setPhase, set_middle, hc,
        hresult, Option.map_some]
      rfl
    rw [if_neg hplan, run_cons]
    refine ⟨_, hacquire, run_cons.mpr ⟨_, hproceed, run_cons.mpr ⟨_, hsend, ?_⟩⟩⟩
    rw [run_nil, planMark, if_neg hplan, Call.planWorld, hc]
    simp only [if_neg hplan]

/-- All workers one after the other. -/
theorem schedule_run (hsucc : ∀ chunk ∈ call.chunks, ∀ relay, ∀ w : Relays,
      (handleRequest call.zone ctx [questionName chunk.bodyLabels call.zone]
        (w (call.host relay))).1.rcode = .success)
    {prior rest : List Worker} (hprior : ∀ v ∈ prior, v.phase = .finished)
    (hrest : ∀ v ∈ rest, v.phase = .waiting ∧ v.index < call.chunks.length)
    (delivered : List Bool) (w : Relays) :
    run call.step ⟨prior ++ rest, delivered, false, .selecting, w⟩
      (Call.schedule plan ctx prior.length rest) =
      some ⟨prior ++ rest.map Worker.finish, rest.foldl (planMark plan) delivered, false, .selecting,
        rest.foldl (call.planWorld plan ctx) w⟩ := by
  induction rest generalizing prior delivered w with
  | nil => rfl
  | cons wk rest ih =>
    obtain ⟨hphase, hidx⟩ := hrest wk List.mem_cons_self
    have hc : call.chunks[wk.index]? = some call.chunks[wk.index] := List.getElem?_eq_getElem hidx
    have hone := schedule_worker plan hprior
      (fun v hv => (hrest v (List.mem_cons_of_mem wk hv)).1) hphase hc
      (hsucc _ (List.getElem_mem hidx) wk.relay) delivered w
    have hprior' : ∀ v ∈ prior ++ [wk.finish], v.phase = .finished := by
      intro v hv
      rcases List.mem_append.mp hv with hp | hl
      · exact hprior v hp
      · rw [List.mem_singleton.mp hl]
        rfl
    have hnext := ih hprior' (fun v hv => hrest v (List.mem_cons_of_mem wk hv))
      (planMark plan delivered wk) (call.planWorld plan ctx w wk)
    rw [Call.schedule, run_append]
    refine ⟨_, hone, ?_⟩
    simp only [List.append_assoc, List.singleton_append, List.length_append, List.length_singleton]
      at hnext
    rw [hnext, List.map_cons, List.foldl_cons, List.foldl_cons]

/-- A chunk is marked when it was before or when some worker of the plan carries it. -/
theorem foldl_planMark (rest : List Worker) (delivered : List Bool) :
    (rest.foldl (planMark plan) delivered).length = delivered.length ∧
    ∀ i, (rest.foldl (planMark plan) delivered)[i]? = some false →
      delivered[i]? = some false ∧ ∀ wk ∈ rest, wk.index = i → plan wk.index wk.relay = false := by
  induction rest generalizing delivered with
  | nil => exact ⟨rfl, fun i hi => ⟨hi, fun wk hwk => by cases hwk⟩⟩
  | cons wk rest ih =>
    obtain ⟨hlen, hfalse⟩ := ih (planMark plan delivered wk)
    rw [List.foldl_cons]
    by_cases hplan : plan wk.index wk.relay = true
    · have hmark : planMark plan delivered wk = delivered.set wk.index true := by
        rw [planMark, if_pos hplan]
      rw [hmark] at hlen hfalse ⊢
      refine ⟨by rw [hlen, List.length_set], ?_⟩
      intro i hi
      obtain ⟨hset, hrest⟩ := hfalse i hi
      rw [List.getElem?_set] at hset
      split at hset
      · split at hset
        · cases hset
        · cases hset
      · rename_i hne
        refine ⟨hset, ?_⟩
        intro v hv hvi
        rcases List.mem_cons.mp hv with rfl | htail
        · exact absurd hvi hne
        · exact hrest v htail hvi
    · have hmark : planMark plan delivered wk = delivered := by rw [planMark, if_neg hplan]
      rw [hmark] at hlen hfalse ⊢
      refine ⟨hlen, ?_⟩
      intro i hi
      obtain ⟨hd, hrest⟩ := hfalse i hi
      refine ⟨hd, ?_⟩
      intro v hv hvi
      rcases List.mem_cons.mp hv with rfl | htail
      · exact Bool.eq_false_iff.mpr hplan
      · exact hrest v htail hvi

private theorem settled_verdict
    (hplan : ∀ i < call.chunks.length, ∃ relay ∈ call.relays, plan i relay = true) (w : Relays) :
    (call.settled plan ctx w).verdict = .ok () := by
  obtain ⟨hlen, hfalse⟩ := foldl_planMark plan call.workers (List.replicate call.chunks.length false)
  rw [List.length_replicate] at hlen
  have hnone : (call.settled plan ctx w).undelivered = [] := by
    rw [Sending.undelivered, List.filter_eq_nil_iff]
    intro i hi hc
    rw [List.mem_range, Call.settled, hlen] at hi
    obtain ⟨_, hall⟩ := hfalse i (of_decide_eq_true hc)
    obtain ⟨relay, hrelay, hyes⟩ := hplan i hi
    have hno := hall ⟨i, relay, .waiting⟩ (mem_call_workers.mpr ⟨hi, hrelay, rfl⟩) rfl
    rw [hyes] at hno
    cases hno
  rw [Sending.verdict, if_pos hnone]

/-- A plan that accepts every chunk somewhere is the outcome of a successful run. -/
theorem plan_succeeds (hchunks : call.chunks ≠ []) (hrelays : call.relays ≠ [])
    (hsucc : ∀ chunk ∈ call.chunks, ∀ relay, ∀ w : Relays,
      (handleRequest call.zone ctx [questionName chunk.bodyLabels call.zone]
        (w (call.host relay))).1.rcode = .success)
    (hplan : ∀ i < call.chunks.length, ∃ relay ∈ call.relays, plan i relay = true) (w : Relays) :
    ∃ actions t, run call.step (call.start w) actions = some t ∧ t.main = .returned (.ok ()) ∧
      t.world = call.planned plan ctx w := by
  have hwait : ∀ v ∈ call.workers, v.phase = .waiting ∧ v.index < call.chunks.length := by
    intro v hv
    obtain ⟨hi, _, hp⟩ := mem_call_workers.mp hv
    exact ⟨hp, hi⟩
  have hnobody : ∀ v ∈ ([] : List Worker), v.phase = .finished := fun v hv => by cases hv
  have hstart : call.start w =
      ⟨call.workers, List.replicate call.chunks.length false, false, .selecting, w⟩ := by
    simp [Call.start, hchunks, hrelays]
  have hrun : run call.step (call.start w) (Call.schedule plan ctx 0 call.workers) =
      some (call.settled plan ctx w) := by
    rw [hstart]
    exact schedule_run plan hsucc hnobody hwait (List.replicate call.chunks.length false) w
  have hdone : (call.settled plan ctx w).Done := by
    intro v hv
    obtain ⟨u, _, rfl⟩ := List.mem_map.mp hv
    rfl
  have hfinish : call.step (call.settled plan ctx w) .finish =
      some { call.settled plan ctx w with main := .returned (.ok ()) } := by
    have hmain : (call.settled plan ctx w).main = .selecting := rfl
    simp only [Call.step, hmain, if_pos hdone, settled_verdict plan hplan]
  exact ⟨Call.schedule plan ctx 0 call.workers ++ [.finish], _,
    run_append.mpr ⟨_, hrun, run_cons.mpr ⟨_, hfinish, run_nil _⟩⟩, rfl, rfl⟩

/-- What each handled query of the plan keeps holds of the planned relays. -/
theorem planned_keeps (Inv : Relays → Prop) {w : Relays} (h : Inv w)
    (hinv : ∀ relay i chunk, call.chunks[i]? = some chunk → plan i relay = true →
      ∀ v, Inv v → Inv (call.deliver relay chunk ctx v)) : Inv (call.planned plan ctx w) := by
  unfold Call.planned
  induction call.workers generalizing w with
  | nil => exact h
  | cons wk rest ih =>
    refine ih ?_
    unfold Call.planWorld
    split
    · rename_i chunk hc
      split
      · rename_i hp
        exact hinv wk.relay wk.index chunk hc hp w h
      · exact h
    · exact h

theorem planned_wellStored {w : Relays} (h : ∀ site, WellStored (w site)) :
    ∀ site, WellStored (call.planned plan ctx w site) :=
  planned_keeps plan (fun v => ∀ site, WellStored (v site)) h
    (fun relay _ chunk _ _ _ hv => wellStored_deliver hv relay chunk ctx)

end

/-! ## Outcomes that cannot be retrieved -/

/-- It is enough to look at fetches: an engine started with the relays of the call polls them. -/
theorem not_retrievable {call : Call} (hz : ZoneOk call.zone) {sha256 : Bytes → Digest}
    {recipient : Bytes} {msgID : MsgID} {payload : Bytes} {w : Relays}
    (hw : ∀ site, WellStored (w site))
    (h : ∀ (net : Network Relays) (mode : TransportMode) (relay : Bytes),
      Reachable call.zone call.host net → recipient ≠ [] → relay ∈ call.relays →
      (fetchAndReassemble net relay call.zone msgID mode w).1 ≠ some (.ok payload)) :
    ¬ Retrievable call sha256 recipient msgID payload w := by
  intro hret
  have hreach := directNetwork_reachable call.zone call.host ⟨true, 0, true, []⟩
  have hrelays : (newDNSClientEngine call.relays call.zone).discoverActiveRelays = call.relays := by
    rw [DNSClientEngine.discoverActiveRelays]
    exact ite_self call.relays
  obtain ⟨msgs, e', hpoll, m, hm, hid, hdata⟩ :=
    hret _ (newDNSClientEngine call.relays call.zone) hreach rfl hrelays rfl
  obtain ⟨msgs', fetched', hpoll', -, hmem, -⟩ := pollMessages_offers hreach hz
    (e := newDNSClientEngine call.relays call.zone) rfl hw sha256 recipient
  rw [hpoll] at hpoll'
  cases hpoll'
  obtain ⟨-, hrec, relay, hrelay, hgather⟩ := offered_source ((hmem m).mp hm).2
  rw [hid, hdata] at hgather
  rw [hrelays] at hrelay
  refine h _ .auto relay hreach hrec hrelay ?_
  rw [fetchAndReassemble_gather hreach hz hw, hgather]

section Plans

variable {call : Call} (hz : ZoneOk call.zone) {p : Parcel} (hchunks : call.chunks = p.chunks)
  (htotal : ∀ i, (p.chunk i).totalChunks ≠ 0)

/-- The context of a request that the rate limiter admits. -/
def admitting : Context := ⟨true, 0, true, []⟩

include hz hchunks htotal

private theorem parcel_accepted : ∀ chunk ∈ call.chunks, ∀ (relay : Bytes) (w : Relays),
    (handleRequest call.zone admitting [questionName chunk.bodyLabels call.zone]
      (w (call.host relay))).1.rcode = .success := by
  intro chunk hc relay w
  rw [hchunks] at hc
  obtain ⟨i, _, rfl⟩ := Parcel.mem_chunks.mp hc
  rw [handleRequest_accepts (p.chunk_hashOk i) (htotal i) hz rfl]
  rfl

omit hchunks in
theorem deliver_accepted (i : Nat) (relay : Bytes) (w : Relays) :
    call.deliver relay (p.chunk i) admitting w = Function.update w (call.host relay)
      (acceptChunk admitting (p.chunk i) (w (call.host relay))) := by
  rw [Call.deliver, handleRequest_accepts (p.chunk_hashOk i) (htotal i) hz rfl]

/-- No relay stores a longer payload than the cut allows. -/
theorem planned_bounded (plan : Nat → Bytes → Bool) {w : Relays}
    (hfresh : ∀ site i, (w site).getChunk p.msgID i = none) :
    ∀ site i c, (call.planned plan admitting w site).getChunk p.msgID i = some c →
      c.payload.length ≤ p.size := by
  refine planned_keeps plan
    (fun v => ∀ site i c, (v site).getChunk p.msgID i = some c → c.payload.length ≤ p.size) ?_ ?_
  · intro site i c hc
    rw [hfresh] at hc
    cases hc
  · intro relay j chunk hc _ v hv site i c hget
    obtain ⟨_, rfl⟩ := parcel_nth hchunks hc
    rw [deliver_accepted hz htotal] at hget
    by_cases hs : site = call.host relay
    · subst hs
      rw [Function.update_self, acceptChunk_getChunk] at hget
      split at hget
      · obtain rfl := Option.some.inj hget
        exact List.length_take_le _ _
      · exact hv _ i c hget
    · rw [Function.update_of_ne hs] at hget
      exact hv site i c hget

/-- With more chunks than `TotalChunks` can say, a relay that holds them all still serves too
few bytes. -/
theorem planned_short (plan : Nat → Bytes → Bool) (hbig : 65536 ≤ p.n) {w : Relays}
    (hw : ∀ site, WellStored (w site)) (hfresh : ∀ site i, (w site).getChunk p.msgID i = none)
    {net : Network Relays} (hreach : Reachable call.zone call.host net) (mode : TransportMode)
    (relay : Bytes) :
    (fetchAndReassemble net relay call.zone p.msgID mode (call.planned plan admitting w)).1 ≠
      some (.ok p.payload) := by
  intro hfetch
  have hwell : ∀ site, WellStored (call.planned plan admitting w site) := planned_wellStored plan hw
  rw [fetchAndReassemble_gather hreach hz hwell] at hfetch
  obtain ⟨first, rest, _, hre, hlen, hstored⟩ :=
    gather_ok (hwell (call.host relay)) (Option.some.inj hfetch)
  have hsize : ∀ c ∈ first :: rest, c.payload.length ≤ p.size := by
    intro c hc
    obtain ⟨j, hj⟩ := hstored c hc
    exact planned_bounded hz hchunks htotal plan hfresh _ j c hj
  have hle := reassembleMessage_length_le hsize hre
  have hcount : first.totalChunks.toNat < 65536 := first.totalChunks.toNat_lt
  have htight := p.tight
  have hmul : (first :: rest).length * p.size ≤ 65535 * p.size := by
    apply Nat.mul_le_mul_right
    rw [List.length_cons]
    omega
  have hmul' : 65536 * p.size ≤ p.n * p.size := Nat.mul_le_mul_right _ hbig
  omega

omit htotal in
/-- Chunk 0 goes to one host and all others to another. -/
theorem planned_sites (hsmall : p.n ≤ 65535) (siteA siteB : Bytes) {w : Relays}
    (hfresh : Holdings p w (fun _ => [])) :
    ∃ got, Holdings p (call.planned (fun i r => call.host r = if i = 0 then siteA else siteB)
        admitting w) got ∧
      ∀ site, ∀ i ∈ got site, site = if i = 0 then siteA else siteB := by
  refine planned_keeps _ (fun v => ∃ got, Holdings p v got ∧
    ∀ site, ∀ i ∈ got site, site = if i = 0 then siteA else siteB) ?_ ?_
  · refine ⟨_, hfresh, ?_⟩
    intro site i hi
    cases hi
  · intro relay i chunk hc hplan v hv
    obtain ⟨hi, rfl⟩ := parcel_nth hchunks hc
    obtain ⟨got, hgot, hsite⟩ := hv
    rw [deliver_accepted hz (fun i => Parcel.chunk_total_ne hsmall i)]
    refine ⟨_, holdings_accept hsmall hgot hi (call.host relay) admitting, ?_⟩
    intro site j hmem
    by_cases hs : site = call.host relay
    · subst hs
      rw [Function.update_self] at hmem
      rcases List.mem_cons.mp hmem with rfl | hold
      · exact of_decide_eq_true hplan
      · exact hsite _ j hold
    · rw [Function.update_of_ne hs] at hmem
      exact hsite site j hmem

omit htotal in
/-- After such a split no relay can serve the message. -/
theorem planned_split (hsmall : p.n ≤ 65535) (hmany : 2 ≤ p.n) {siteA siteB : Bytes}
    (hne : siteA ≠ siteB) {w : Relays} (hfresh : Holdings p w (fun _ => []))
    {net : Network Relays} (hreach : Reachable call.zone call.host net) (mode : TransportMode)
    (relay : Bytes) :
    (fetchAndReassemble net relay call.zone p.msgID mode (call.planned
      (fun i r => call.host r = if i = 0 then siteA else siteB) admitting w)).1 ≠
        some (.ok p.payload) := by
  obtain ⟨got, hgot, hsite⟩ := planned_sites hz hchunks hsmall siteA siteB hfresh
  by_cases hzero : 0 ∈ got (call.host relay)
  · have hA := hsite _ 0 hzero
    have hone : 1 ∉ got (call.host relay) := by
      intro hin
      have hB := hsite _ 1 hin
      rw [if_pos rfl] at hA
      rw [if_neg (by decide), hA] at hB
      exact hne hB
    have hget0 := (hgot (call.host relay)).slots 0
    have hget1 := (hgot (call.host relay)).slots 1
    rw [UInt16.toNat_zero, if_pos hzero] at hget0
    rw [UInt16.toNat_one, if_neg hone] at hget1
    rw [fetchAndReassemble_gap hreach hz (p.chunk_hashOk 0) hget0
      (by rw [Parcel.chunk_total hsmall]; exact hmany) hget1]
    intro hc
    cases hc
  · have hget0 := (hgot (call.host relay)).slots 0
    rw [UInt16.toNat_zero, if_neg hzero] at hget0
    rw [fetchAndReassemble_absent hreach hz hget0]
    intro hc
    cases hc

end Plans

/-! ## The condition -/

/-- All addresses of the call lead to one relay. -/
def Call.OneHost (call : Call) : Prop :=
  ∀ r ∈ call.relays, ∀ r' ∈ call.relays, call.host r = call.host r'

theorem chunks_of_parcel {call : Call} {p : Parcel} (h : call.chunks = p.chunks) :
    call.chunks.length = p.n ∧ call.chunks ≠ [] := by
  have hlen : call.chunks.length = p.n := by rw [h]; simp [Parcel.chunks]
  have hpos := p.pos
  refine ⟨hlen, ?_⟩
  intro hnil
  rw [hnil, List.length_nil] at hlen
  omega

/-- When every chunk is marked, and there is one host or one chunk, some relay holds them all. -/
theorem complete_of_success {call : Call} {p : Parcel} (hchunks : call.chunks = p.chunks)
    {s : Sending} (hstaff : Staffed call s) {got : Bytes → List Nat} (h : Tracked call p s got)
    (hall : s.AllDelivered) (hcond : call.OneHost ∨ p.n = 1) :
    ∃ relay ∈ call.relays, ∀ i < p.n, i ∈ got (call.host relay) := by
  have hmarked : ∀ i < p.n, ∃ relay ∈ call.relays, i ∈ got (call.host relay) := by
    intro i hi
    have hi' : i < s.chunkDelivered.length := by
      rw [hstaff.1, (chunks_of_parcel hchunks).1]
      exact hi
    refine h.marked i ?_
    rw [List.getElem?_eq_getElem hi', hall _ (List.getElem_mem hi')]
  obtain ⟨relay, hrelay, hzero⟩ := hmarked 0 p.pos
  refine ⟨relay, hrelay, ?_⟩
  intro i hi
  rcases hcond with hone | hsingle
  · obtain ⟨relay', hrelay', hgot⟩ := hmarked i hi
    rw [hone relay hrelay relay' hrelay']
    exact hgot
  · obtain rfl : i = 0 := by omega
    exact hzero

/-- A send with one host, or of one chunk, that succeeds is retrievable. -/
theorem retrievable_of_success {call : Call} (hz : ZoneOk call.zone) {p : Parcel}
    (hchunks : call.chunks = p.chunks) (hsmall : p.n ≤ 65535) {sha256 : Bytes → Digest}
    {recipient : Bytes} (hrec : recipient ≠ []) (hhash : p.hash = (sha256 recipient).val)
    (hcond : call.OneHost ∨ p.n = 1) {w : Relays} (hw : ∀ site, WellStored (w site))
    (hfresh : Holdings p w (fun _ => [])) (hrelays : call.relays ≠ []) {actions : List Act}
    {t : Sending} (hr : run call.step (call.start w) actions = some t)
    (hmain : t.main = .returned (.ok ())) :
    Retrievable call sha256 recipient p.msgID p.payload t.world := by
  have hne := (chunks_of_parcel hchunks).2
  have hrep : Reported t :=
    run_invariant (fun s a s' hi hs => reported_step hi hs) (reported_start hne hrelays w) hr
  have hwell : ∀ site, WellStored (t.world site) := by
    refine run_invariant (fun s a s' hi hs => wellStored_call_step hi hs) ?_ hr
    exact hw
  have hfollow : Followed call p t :=
    run_invariant (fun s a s' hi hs => followed_step hz hsmall hchunks hi hs) (followed_start hfresh) hr
  obtain ⟨got, htracked⟩ := hfollow.tracked
  exact retrievable_of_complete hz hsmall hrec hhash hwell htracked.holdings
    (complete_of_success hchunks hfollow.staffed htracked (hrep.success hmain) hcond)

/-- A message whose chunk count wraps to zero is never reported as sent. -/
theorem wrapped_never_succeeds {call : Call} (hz : ZoneOk call.zone) {p : Parcel}
    (hchunks : call.chunks = p.chunks) (hwrap : p.n % 65536 = 0) (hrelays : call.relays ≠ [])
    {w : Relays} (hfresh : ∀ site i, (w site).getChunk p.msgID i = none) {actions : List Act}
    {t : Sending} (hr : run call.step (call.start w) actions = some t) :
    t.main ≠ .returned (.ok ()) := by
  obtain ⟨hlen, hne⟩ := chunks_of_parcel hchunks
  have hkind : ∀ c ∈ call.chunks, c.msgID = p.msgID ∧ c.HashOk ∧ c.totalChunks = 0 := by
    intro c hc
    rw [hchunks] at hc
    obtain ⟨i, _, rfl⟩ := Parcel.mem_chunks.mp hc
    refine ⟨rfl, p.chunk_hashOk i, ?_⟩
    apply UInt16.toNat.inj
    show (UInt16.ofNat p.n).toNat = 0
    rw [UInt16.toNat_ofNat']
    exact hwrap
  have hunheard : Unheard p.msgID (call.start w) := by
    refine ⟨hfresh, ?_, ?_⟩
    · intro wk hwk ha
      rw [(mem_call_workers.mp hwk).2.2] at ha
      cases ha
    · intro b hb
      exact (List.mem_replicate.mp hb).2
  have hstaff : Staffed call t :=
    run_invariant (fun s a s' hi hs => staffed_step hi hs) (staffed_start call w) hr
  have hrep : Reported t :=
    run_invariant (fun s a s' hi hs => reported_step hi hs) (reported_start hne hrelays w) hr
  have hun : Unheard p.msgID t :=
    run_invariant (fun s a s' hi hs => unheard_step hz hkind hi hs) hunheard hr
  intro hmain
  have hall := hrep.success hmain
  have h0 : 0 < t.chunkDelivered.length := by rw [hstaff.1, hlen]; exact p.pos
  have htrue := hall _ (List.getElem_mem h0)
  have hfalse := hun.marked _ (List.getElem_mem h0)
  rw [htrue] at hfalse
  cases hfalse

/-- If every plan that covers all chunks is retrievable, the relays lead to one host: the
plan that puts the first chunk on one host and the others on another is not. -/
theorem oneHost_of_plans {call : Call} (hz : ZoneOk call.zone) {p : Parcel}
    (hchunks : call.chunks = p.chunks) (hsmall : p.n ≤ 65535) (hmany : 2 ≤ p.n)
    {sha256 : Bytes → Digest} {recipient : Bytes} {w : Relays} (hw : ∀ site, WellStored (w site))
    (hfresh : Holdings p w (fun _ => []))
    (hplans : ∀ plan : Nat → Bytes → Bool,
      (∀ i < call.chunks.length, ∃ relay ∈ call.relays, plan i relay = true) →
      Retrievable call sha256 recipient p.msgID p.payload (call.planned plan admitting w)) :
    call.OneHost := by
  intro r hr r' hr'
  by_contra hdiff
  refine not_retrievable hz (planned_wellStored _ hw) ?_
    (hplans (fun i s => call.host s = if i = 0 then call.host r else call.host r') ?_)
  · intro net mode relay hreach _ _
    exact planned_split hz hchunks hsmall hmany hdiff hfresh hreach mode relay
  · intro i _
    by_cases hi : i = 0
    · exact ⟨r, hr, by simp [hi]⟩
    · exact ⟨r', hr', by simp [hi]⟩

/-- When is every successful send of a message retrievable, whatever the schedule? Exactly
when there is a relay and a chunk, and either the chunk count wraps to zero (then no send
succeeds), or the message names a recipient, has at most 65535 chunks, and goes to one
host or has one chunk only. -/
theorem send_retrievable_iff (sha256 : Bytes → Digest) (call : Call) (hz : ZoneOk call.zone)
    (msgID : MsgID) (payload : Bytes) (hlen : payload.length < 2 ^ 63) (maxChunkSize : Int64)
    (recipient : Bytes)
    (hcut : chunkMessage sha256 msgID payload maxChunkSize recipient = some call.chunks)
    (w : Relays) (hfresh : ∀ site, msgID ∉ (w site).messages ∧ msgID ∉ (w site).messageOwner)
    (hreached : ∀ site, Reached call.zone (w site)) :
    (∀ actions t, run call.step (call.start w) actions = some t → t.main = .returned (.ok ()) →
      Retrievable call sha256 recipient msgID payload t.world) ↔
    call.relays ≠ [] ∧ call.chunks ≠ [] ∧
      (call.chunks.length % 65536 = 0 ∨
        recipient ≠ [] ∧ call.chunks.length ≤ 65535 ∧ (call.OneHost ∨ call.chunks.length = 1)) := by
  have hw : ∀ site, WellStored (w site) := fun site => (hreached site).wellStored
  have habsent : ∀ site i, (w site).getChunk msgID i = none := by
    intro site i
    rw [ChunkStore.getChunk, AList.lookup_eq_none.mpr (hfresh site).1]
    rfl
  constructor
  · intro h
    have hrelays : call.relays ≠ [] := by
      intro hnil
      refine not_retrievable hz hw ?_ (h [] (call.start w) rfl (by simp [Call.start, hnil]))
      intro net mode relay _ _ hrelay
      rw [hnil] at hrelay
      cases hrelay
    have hne : call.chunks ≠ [] := by
      intro hnil
      refine not_retrievable hz hw ?_ (h [] (call.start w) rfl (by simp [Call.start, hnil]))
      intro net mode relay hreach _ _ hfetch
      have hgone := fetchAndReassemble_absent hreach hz (habsent (call.host relay) 0) mode
      rw [hgone] at hfetch
      cases hfetch
    refine ⟨hrelays, hne, ?_⟩
    obtain ⟨p, hchunks, hn, rfl, rfl, hhash⟩ := parcel_of_chunkMessage hlen hcut hne
    by_cases hwrap : call.chunks.length % 65536 = 0
    · exact Or.inl hwrap
    right
    have htotal : ∀ i, (p.chunk i).totalChunks ≠ 0 := by
      intro i h0
      have hmod : (UInt16.ofNat p.n).toNat = 0 := congrArg UInt16.toNat h0
      rw [UInt16.toNat_ofNat', hn] at hmod
      exact hwrap hmod
    have hsucc := parcel_accepted hz hchunks.symm htotal
    -- Every plan that covers all chunks must be retrievable.
    have hplans : ∀ plan : Nat → Bytes → Bool,
        (∀ i < call.chunks.length, ∃ relay ∈ call.relays, plan i relay = true) →
        Retrievable call sha256 recipient p.msgID p.payload (call.planned plan admitting w) := by
      intro plan hplan
      obtain ⟨actions, t, hr, hmain, hworld⟩ := plan_succeeds plan hne hrelays hsucc hplan w
      rw [← hworld]
      exact h actions t hr hmain
    obtain ⟨r0, hr0⟩ := List.exists_mem_of_ne_nil _ hrelays
    have hevery := hplans (fun _ _ => true) (fun i _ => ⟨r0, hr0, rfl⟩)
    have hrec : recipient ≠ [] := by
      intro hnil
      exact not_retrievable hz (planned_wellStored _ hw)
        (fun net mode relay _ hne _ => absurd hnil hne) hevery
    have hsmall : call.chunks.length ≤ 65535 := by
      by_contra hbig
      refine not_retrievable hz (planned_wellStored _ hw) ?_ hevery
      intro net mode relay hreach _ _
      exact planned_short hz hchunks.symm htotal _ (by omega) hw habsent hreach mode relay
    refine ⟨hrec, hsmall, ?_⟩
    by_cases hsingle : call.chunks.length = 1
    · exact Or.inr hsingle
    have hpos := p.pos
    exact Or.inl (oneHost_of_plans hz hchunks.symm (by omega) (by omega) hw
      (fun site => carries_fresh (hfresh site).1 (hfresh site).2) hplans)
  · intro h actions t hr hmain
    obtain ⟨hrelays, hne, hcases⟩ := h
    obtain ⟨p, hchunks, hn, rfl, rfl, hhash⟩ := parcel_of_chunkMessage hlen hcut hne
    rcases hcases with hwrap | ⟨hrec, hsmall, hcond⟩
    · exact absurd hmain
        (wrapped_never_succeeds hz hchunks.symm (by rw [hn]; exact hwrap) hrelays habsent hr)
    · rw [← hn] at hsmall hcond
      rw [recipientHashOf, if_neg hrec] at hhash
      exact retrievable_of_success hz hchunks.symm hsmall hrec hhash hcond hw
        (fun site => carries_fresh (hfresh site).1 (hfresh site).2) hrelays hr hmain

/-- A message of two bytes in two chunks for two relays. -/
def splitCall : Call where
  zone := lit "z.org"
  host := fun addr => addr
  chunks := (chunkMessage (fun _ => ⟨List.replicate 32 7, rfl⟩) ⟨List.replicate 8 1, rfl⟩ [1, 2] 1
    (lit "R")).getD []
  relays := [lit "A", lit "B"]

theorem send_retrievable_iff_splitCall :
    ¬ ∀ actions t,
      run splitCall.step (splitCall.start (fun _ => newChunkStore 5)) actions = some t →
      t.main = .returned (.ok ()) →
      Retrievable splitCall (fun _ => ⟨List.replicate 32 7, rfl⟩) (lit "R") ⟨List.replicate 8 1, rfl⟩
        [1, 2] t.world := by
  rw [send_retrievable_iff (fun _ => ⟨List.replicate 32 7, rfl⟩) splitCall (by decide)
    ⟨List.replicate 8 1, rfl⟩ [1, 2] (by decide) 1 (lit "R") rfl (fun _ => newChunkStore 5)
    (fun _ => ⟨AList.notMem_empty _, AList.notMem_empty _⟩) (fun _ => ⟨5, 100, none, [], rfl⟩)]
  intro h
  rcases h.2.2 with hwrap | ⟨_, _, hone | hsingle⟩
  · exact absurd hwrap (by decide)
  · exact absurd (hone (lit "A") (by decide) (lit "B") (by decide)) (by decide)
  · exact absurd hsingle (by decide)

/-- Chunk 0 reaches relay A only and chunk 1 relay B only: the call returns success and the
recipient's poll of both relays returns no message. -/
theorem splitCall_lost :
    ∃ t, run splitCall.step (splitCall.start (fun _ => newChunkStore 5))
        (Call.schedule (fun i r => r = if i = 0 then lit "A" else lit "B") admitting 0
          splitCall.workers ++ [.finish]) = some t ∧
      t.main = .returned (.ok ()) ∧
      ((newDNSClientEngine splitCall.relays splitCall.zone).pollMessages
        (directNetwork splitCall.zone splitCall.host admitting) (fun _ => ⟨List.replicate 32 7, rfl⟩)
        (lit "R") t.world).1.map Prod.fst = some (.ok []) := by
  refine ⟨_, rfl, by decide +kernel, by decide +kernel⟩

end VRGram.Client
