import VRGram.Client.Transport

/-!
# Sending all chunks to all relays at once

`sendParallel` as a machine: one worker for each chunk and relay, fifteen slots, a
shared array of delivered chunks, a cancellable context and the main loop with its
ticker. The network decides the fate of every exchange; it may also hand a relay
another copy of a query at any time. Each relay is the handler on its own store.
-/
namespace VRGram.Client

open VRGram.Lib.Maps VRGram.Lib.Strings VRGram.Lib.Dns VRGram.Lib.Machine
open VRGram.Encoding VRGram.Store VRGram.Relay

set_option autoImplicit false

def parallelism : Nat := 15

/-- Waiting for a slot; holding one; inside `SendChunk`; back with success; returned. -/
inductive Phase where
  | waiting | holding | sending | accepted | finished
  deriving DecidableEq

structure Worker where
  index : Nat
  relay : Bytes
  phase : Phase
  deriving DecidableEq

inductive ParallelError where
  | undelivered (indices : List Nat)
  | timeout (delivered total : Nat)
  deriving DecidableEq

/-- The main loop: in its `select`, waiting for the workers after all chunks were found
delivered, waiting after the context ended, or back. -/
inductive Main where
  | selecting
  | early
  | timedOut
  | returned (result : Except ParallelError Unit)
  deriving DecidableEq

structure Sending where
  workers : List Worker
  chunkDelivered : List Bool
  cancelled : Bool
  main : Main
  world : Relays

/-- What a call works on. -/
structure Call where
  zone : Bytes
  host : Bytes → Bytes
  chunks : List Chunk
  relays : List Bytes

/-- The fate of one exchange: it never arrives, its answer never arrives, or all goes well. -/
inductive Fate where
  | lost
  | unanswered (ctx : Context)
  | answered (ctx : Context)

/-- Exchanges whose fates are drawn from a list; an exchange past its end is lost. -/
def fatedExchange (zone : Bytes) (host : Bytes → Bytes) : Exchange (Relays × List Fate) :=
  fun _ addr qname v =>
    match v.2 with
    | [] => (none, v.1, [])
    | .lost :: fates => (none, v.1, fates)
    | .unanswered ctx :: fates =>
      let result := handleRequest zone ctx [qname] (v.1 (host addr))
      (none, Function.update v.1 (host addr) result.2, fates)
    | .answered ctx :: fates =>
      let result := handleRequest zone ctx [qname] (v.1 (host addr))
      (some result.1, Function.update v.1 (host addr) result.2, fates)

/-- A relay handles the query of a chunk. -/
def Call.deliver (call : Call) (relay : Bytes) (chunk : Chunk) (ctx : Context) (w : Relays) : Relays :=
  Function.update w (call.host relay)
    (handleRequest call.zone ctx [questionName chunk.bodyLabels call.zone] (w (call.host relay))).2

/-- `SendChunk` of one worker, with the fates of its exchanges. -/
def Call.sendResult (call : Call) (relay : Bytes) (chunk : Chunk) (mode : TransportMode)
    (fates : List Fate) (w : Relays) : Except SendError Unit × Relays :=
  let result := sendChunk (fatedExchange call.zone call.host) relay call.zone chunk mode (w, fates)
  (result.1, result.2.1)

inductive Act where
  | acquire (k : Nat)
  | abandon (k : Nat)
  | proceed (k : Nat)
  | send (k : Nat) (mode : TransportMode) (fates : List Fate)
  | mark (k : Nat)
  | duplicate (k : Nat) (ctx : Context)
  | cancelParent
  | tick
  | notice
  | finish
  | drained

def Call.workers (call : Call) : List Worker :=
  (List.range call.chunks.length).flatMap (fun i => call.relays.map (fun r => ⟨i, r, .waiting⟩))

/-- The state after the workers have been launched; with nothing to send or nowhere to
send to the call has already returned. -/
def Call.start (call : Call) (w : Relays) : Sending where
  workers := call.workers
  chunkDelivered := List.replicate call.chunks.length false
  cancelled := false
  main := if call.chunks = [] ∨ call.relays = [] then .returned (.ok ()) else .selecting
  world := w

def Sending.setPhase (s : Sending) (k : Nat) (wk : Worker) (phase : Phase) : Sending :=
  { s with workers := s.workers.set k { wk with phase := phase } }

/-- The slots in use. -/
def Sending.held (s : Sending) : Nat :=
  s.workers.countP (fun wk => wk.phase = .holding ∨ wk.phase = .sending ∨ wk.phase = .accepted)

/-- `wg.Wait()` is over. -/
def Sending.Done (s : Sending) : Prop := ∀ wk ∈ s.workers, wk.phase = .finished

instance (s : Sending) : Decidable s.Done := inferInstanceAs (Decidable (∀ wk ∈ _, _))

def Sending.AllDelivered (s : Sending) : Prop := ∀ b ∈ s.chunkDelivered, b = true

instance (s : Sending) : Decidable s.AllDelivered := inferInstanceAs (Decidable (∀ b ∈ _, _))

def Sending.undelivered (s : Sending) : List Nat :=
  (List.range s.chunkDelivered.length).filter (fun i => s.chunkDelivered[i]? = some false)

/-- The verdict of the `done` branch. -/
def Sending.verdict (s : Sending) : Except ParallelError Unit :=
  if s.undelivered = [] then .ok () else .error (.undelivered s.undelivered)

/-- A worker in the given phase takes a step. -/
def Sending.withWorker (s : Sending) (k : Nat) (phase : Phase) (f : Worker → Option Sending) :
    Option Sending :=
  match s.workers[k]? with
  | some wk => if wk.phase = phase then f wk else none
  | none => none

def Call.step (call : Call) (s : Sending) : Act → Option Sending
  | .acquire k => s.withWorker k .waiting (fun wk =>
      if s.held < parallelism then some (s.setPhase k wk .holding) else none)
  | .abandon k => s.withWorker k .waiting (fun wk =>
      if s.cancelled then some (s.setPhase k wk .finished) else none)
  | .proceed k => s.withWorker k .holding (fun wk =>
      some (s.setPhase k wk (if s.cancelled then .finished else .sending)))
  | .send k mode fates => s.withWorker k .sending (fun wk =>
      call.chunks[wk.index]?.map (fun chunk =>
        let result := call.sendResult wk.relay chunk mode fates s.world
        { s.setPhase k wk (if result.1 = .ok () then .accepted else .finished) with
          world := result.2 }))
  | .mark k => s.withWorker k .accepted (fun wk =>
      some { s.setPhase k wk .finished with
        chunkDelivered := s.chunkDelivered.set wk.index true })
  | .duplicate k ctx =>
      s.workers[k]?.bind (fun wk => call.chunks[wk.index]?.map (fun chunk =>
        { s with world := call.deliver wk.relay chunk ctx s.world }))
  | .cancelParent => some { s with cancelled := true }
  | .tick =>
    match s.main with
    | .selecting =>
      if s.AllDelivered then some { s with cancelled := true, main := .early } else some s
    | _ => none
  | .notice =>
    match s.main with
    | .selecting => if s.cancelled then some { s with main := .timedOut } else none
    | _ => none
  | .finish =>
    match s.main with
    | .selecting => if s.Done then some { s with main := .returned s.verdict } else none
    | _ => none
  | .drained =>
    match s.main with
    | .early => if s.Done then some { s with main := .returned (.ok ()) } else none
    | .timedOut =>
      if s.Done then
        some { s with main := .returned (.error (.timeout
          (s.chunkDelivered.length - s.undelivered.length) s.chunkDelivered.length)) }
      else none
    | _ => none

/-! ## What a step can do -/

theorem withWorker_some {s t : Sending} {k : Nat} {phase : Phase} {f : Worker → Option Sending}
    (h : s.withWorker k phase f = some t) :
    ∃ wk, s.workers[k]? = some wk ∧ wk.phase = phase ∧ f wk = some t := by
  unfold Sending.withWorker at h
  split at h
  · rename_i wk hk
    split at h
    · exact ⟨wk, hk, by assumption, h⟩
    · cases h
  · cases h

/-- How the main loop can go on. -/
inductive MainStep (s : Sending) : Act → Main → Prop
  | stay (a : Act) : MainStep s a s.main
  | early (a : Act) (hm : s.main = .selecting) (hall : s.AllDelivered) : MainStep s a .early
  | timedOut (hm : s.main = .selecting) : MainStep s .notice .timedOut
  | judge (a : Act) (hm : s.main = .selecting) (hdone : s.Done) :
      MainStep s a (.returned s.verdict)
  | success (a : Act) (hm : s.main = .early) (hdone : s.Done) : MainStep s a (.returned (.ok ()))
  | timeout (a : Act) (delivered total : Nat) (hm : s.main = .timedOut) (hdone : s.Done) :
      MainStep s a (.returned (.error (.timeout delivered total)))

/-- Either one worker moves, possibly with effects on the relays or on the delivered
array, or a relay gets another copy of a query, or only the control state changes. -/
inductive CallStep (call : Call) (s : Sending) : Act → Sending → Prop
  | move (a : Act) (k : Nat) (wk : Worker) (phase : Phase) (hk : s.workers[k]? = some wk)
      (hold : wk.phase = .waiting ∨ wk.phase = .holding) (hp : phase ≠ .accepted) :
      CallStep call s a (s.setPhase k wk phase)
  | send (k : Nat) (wk : Worker) (chunk : Chunk) (mode : TransportMode) (fates : List Fate)
      (hk : s.workers[k]? = some wk) (hold : wk.phase = .sending)
      (hc : call.chunks[wk.index]? = some chunk) :
      CallStep call s (.send k mode fates)
        { s.setPhase k wk (if (call.sendResult wk.relay chunk mode fates s.world).1 = .ok ()
            then .accepted else .finished) with
          world := (call.sendResult wk.relay chunk mode fates s.world).2 }
  | mark (k : Nat) (wk : Worker) (hk : s.workers[k]? = some wk) (hold : wk.phase = .accepted) :
      CallStep call s (.mark k)
        { s.setPhase k wk .finished with chunkDelivered := s.chunkDelivered.set wk.index true }
  | duplicate (k : Nat) (wk : Worker) (chunk : Chunk) (ctx : Context)
      (hk : s.workers[k]? = some wk) (hc : call.chunks[wk.index]? = some chunk) :
      CallStep call s (.duplicate k ctx)
        { s with world := call.deliver wk.relay chunk ctx s.world }
  | control (a : Act) (cancelled : Bool) (main : Main) (hmain : MainStep s a main) :
      CallStep call s a { s with cancelled := cancelled, main := main }

theorem call_step_cases {call : Call} {s t : Sending} {a : Act} (h : call.step s a = some t) :
    CallStep call s a t := by
  cases a with
  | acquire k =>
    obtain ⟨wk, hk, hp, hf⟩ := withWorker_some h
    split_ifs at hf
    obtain rfl := Option.some.inj hf
    exact .move _ k wk .holding hk (Or.inl hp) (by decide)
  | abandon k =>
    obtain ⟨wk, hk, hp, hf⟩ := withWorker_some h
    split_ifs at hf
    obtain rfl := Option.some.inj hf
    exact .move _ k wk .finished hk (Or.inl hp) (by decide)
  | proceed k =>
    obtain ⟨wk, hk, hp, hf⟩ := withWorker_some h
    obtain rfl := Option.some.inj hf
    refine .move _ k wk _ hk (Or.inr hp) ?_
    split <;> decide
  | send k mode fates =>
    obtain ⟨wk, hk, hp, hf⟩ := withWorker_some h
    obtain ⟨chunk, hc, rfl⟩ := Option.map_eq_some_iff.mp hf
    exact .send k wk chunk mode fates hk hp hc
  | mark k =>
    obtain ⟨wk, hk, hp, hf⟩ := withWorker_some h
    obtain rfl := Option.some.inj hf
    exact .mark k wk hk hp
  | duplicate k ctx =>
    obtain ⟨wk, hk, hf⟩ := Option.bind_eq_some_iff.mp h
    obtain ⟨chunk, hc, rfl⟩ := Option.map_eq_some_iff.mp hf
    exact .duplicate k wk chunk ctx hk hc
  | cancelParent =>
    obtain rfl := Option.some.inj h
    exact .control _ true s.main (.stay _)
  | tick =>
    simp only [Call.step] at h
    split at h
    next hm =>
      split_ifs at h with hall <;> obtain rfl := Option.some.inj h
      · exact .control _ true .early (.early _ hm hall)
      · exact .control _ s.cancelled s.main (.stay _)
    next => cases h
  | notice =>
    simp only [Call.step] at h
    split at h
    next hm =>
      split_ifs at h
      obtain rfl := Option.some.inj h
      exact .control _ s.cancelled .timedOut (.timedOut hm)
    next => cases h
  | finish =>
    simp only [Call.step] at h
    split at h
    next hm =>
      split_ifs at h with hdone
      obtain rfl := Option.some.inj h
      exact .control _ s.cancelled _ (.judge _ hm hdone)
    next => cases h
  | drained =>
    simp only [Call.step] at h
    split at h
    next hm =>
      split_ifs at h with hdone
      obtain rfl := Option.some.inj h
      exact .control _ s.cancelled _ (.success _ hm hdone)
    next hm =>
      split_ifs at h with hdone
      obtain rfl := Option.some.inj h
      exact .control _ s.cancelled _ (.timeout _ _ _ hm hdone)
    next => cases h

/-! ## Success means that every chunk was marked -/

/-- Once the call is on its way to success, every chunk is marked as delivered. -/
structure Reported (s : Sending) : Prop where
  early : s.main = .early → s.AllDelivered
  success : s.main = .returned (.ok ()) → s.AllDelivered

theorem allDelivered_of_verdict {s : Sending} (h : s.verdict = .ok ()) : s.AllDelivered := by
  unfold Sending.verdict at h
  split at h
  · rename_i hnone
    intro b hb
    obtain ⟨i, hi, rfl⟩ := List.mem_iff_getElem.mp hb
    by_contra hf
    have hfalse : s.chunkDelivered[i] = false := Bool.eq_false_iff.mpr hf
    have hmem : i ∈ s.undelivered := by
      rw [Sending.undelivered, List.mem_filter, List.mem_range]
      exact ⟨hi, by simp [List.getElem?_eq_getElem hi, hfalse]⟩
    rw [hnone] at hmem
    cases hmem
  · cases h

theorem allDelivered_set {l : List Bool} (h : ∀ b ∈ l, b = true) (i : Nat) :
    ∀ b ∈ l.set i true, b = true := by
  intro b hb
  rcases List.mem_or_eq_of_mem_set hb with hold | rfl
  · exact h b hold
  · rfl

theorem reported_step {call : Call} {s t : Sending} {a : Act} (h : Reported s)
    (hs : call.step s a = some t) : Reported t := by
  cases call_step_cases hs with
  | move a k wk phase hk hold hp => exact ⟨h.early, h.success⟩
  | send k wk chunk mode fates hk hold hc => exact ⟨h.early, h.success⟩
  | mark k wk hk hold =>
    exact ⟨fun hm => allDelivered_set (h.early hm) _, fun hm => allDelivered_set (h.success hm) _⟩
  | duplicate k wk chunk ctx hk hc => exact ⟨h.early, h.success⟩
  | control a cancelled main hmain =>
    cases hmain with
    | stay => exact ⟨h.early, h.success⟩
    | early a hm hall => exact ⟨fun _ => hall, fun _ => hall⟩
    | timedOut hm => exact ⟨Main.noConfusion, Main.noConfusion⟩
    | judge a hm hdone =>
      exact ⟨Main.noConfusion, fun hr => allDelivered_of_verdict (Main.returned.inj hr)⟩
    | success a hm hdone => exact ⟨Main.noConfusion, fun _ => h.early hm⟩
    | timeout a delivered total hm hdone =>
      refine ⟨Main.noConfusion, fun hr => ?_⟩
      cases Main.returned.inj hr

theorem reported_start {call : Call} (hc : call.chunks ≠ []) (hr : call.relays ≠ []) (w : Relays) :
    Reported (call.start w) := by
  constructor
  · intro he
    simp [Call.start, hc, hr] at he
  · intro he
    simp [Call.start, hc, hr] at he

/-! ## The workers of a call -/

theorem mem_call_workers {call : Call} {wk : Worker} :
    wk ∈ call.workers ↔ wk.index < call.chunks.length ∧ wk.relay ∈ call.relays ∧
      wk.phase = .waiting := by
  simp only [Call.workers, List.mem_flatMap, List.mem_range, List.mem_map]
  constructor
  · intro h
    obtain ⟨i, hi, r, hr, rfl⟩ := h
    exact ⟨hi, hr, rfl⟩
  · intro h
    obtain ⟨hi, hr, hp⟩ := h
    exact ⟨wk.index, hi, wk.relay, hr, by rw [← hp]⟩

/-- Workers keep their chunk and their relay. -/
def Staffed (call : Call) (s : Sending) : Prop :=
  s.chunkDelivered.length = call.chunks.length ∧
  ∀ wk ∈ s.workers, wk.index < call.chunks.length ∧ wk.relay ∈ call.relays

theorem staffed_start (call : Call) (w : Relays) : Staffed call (call.start w) := by
  refine ⟨by simp [Call.start], ?_⟩
  intro wk hwk
  obtain ⟨hi, hr, _⟩ := mem_call_workers.mp hwk
  exact ⟨hi, hr⟩

theorem staffed_setPhase {call : Call} {s : Sending} (h : Staffed call s) {k : Nat} {wk : Worker}
    (hk : s.workers[k]? = some wk) (phase : Phase) : Staffed call (s.setPhase k wk phase) := by
  refine ⟨h.1, ?_⟩
  intro v hv
  rcases List.mem_or_eq_of_mem_set hv with hold | rfl
  · exact h.2 v hold
  · exact h.2 wk (List.mem_of_getElem? hk)

theorem staffed_step {call : Call} {s t : Sending} {a : Act} (h : Staffed call s)
    (hs : call.step s a = some t) : Staffed call t := by
  cases call_step_cases hs with
  | move a k wk phase hk hold hp => exact staffed_setPhase h hk phase
  | send k wk chunk mode fates hk hold hc => exact staffed_setPhase h hk _
  | mark k wk hk hold =>
    refine ⟨?_, (staffed_setPhase h hk .finished).2⟩
    rw [List.length_set]
    exact h.1
  | duplicate k wk chunk ctx hk hc => exact h
  | control a cancelled main hmain => exact h

end VRGram.Client
