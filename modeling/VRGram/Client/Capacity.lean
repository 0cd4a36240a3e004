import Mathlib.Algebra.BigOperators.Ring.Finset
import Mathlib.Algebra.Order.BigOperators.Group.Finset
import VRGram.Client.SendParallel
import VRGram.RateLimit.Metered

/-!
# How much a call can send in a given time

Every relay of a call has its own rate limiter, which the handler asks first. A worker succeeds
only with a query that the limiter of its relay has admitted, so the chunks that a call can deliver
are bounded by what the limiters admit while it runs, whatever the workers, the network and the
other users of the relays do. Queries of several workers may overlap in time: of the limiters it is
only used how many queries of the sender's address each of them admitted.
-/
namespace VRGram.Client

open VRGram.Lib.Strings VRGram.Lib.Dns VRGram.Lib.Machine
open VRGram.Encoding VRGram.Store VRGram.Relay
open VRGram.RateLimit (IPRateLimiter Metered seconds)

set_option autoImplicit false

/-! ## The queries that were admitted -/

/-- The query reached its relay and was admitted. -/
def Fate.admits : Fate → Bool
  | .lost => false
  | .unanswered ctx => ctx.admitted
  | .answered ctx => ctx.admitted

/-- The fates that the exchanges of one `SendChunk` meet. -/
def Call.met (call : Call) (relay : Bytes) (chunk : Chunk) (mode : TransportMode)
    (fates : List Fate) (w : Relays) : List Fate :=
  let left := (sendChunk (fatedExchange call.zone call.host) relay call.zone chunk mode (w, fates)).2.2
  fates.take (fates.length - left.length)

/-- The hosts that admit a query of the call in one act, once for each such query. -/
def Call.admissions (call : Call) (s : Sending) : Act → List Bytes
  | .send k mode fates =>
    match s.workers[k]? with
    | none => []
    | some wk =>
      match call.chunks[wk.index]? with
      | none => []
      | some chunk =>
        List.replicate ((call.met wk.relay chunk mode fates s.world).countP Fate.admits)
          (call.host wk.relay)
  | .duplicate k ctx =>
    match s.workers[k]? with
    | none => []
    | some wk => if ctx.admitted then [call.host wk.relay] else []
  | _ => []

/-- A relay that does not admit a query does not answer it with success. -/
theorem admitted_of_success {zone qname : Bytes} {ctx : Context} {s : ChunkStore}
    (h : (handleRequest zone ctx [qname] s).1.rcode = .success) : ctx.admitted = true := by
  by_contra hrefused
  rw [handleRequest, if_pos (Bool.eq_false_iff.mpr hrefused)] at h
  cases h

/-- An exchange uses up the first of the fates that are left. -/
theorem fatedExchange_left (zone : Bytes) (host : Bytes → Bytes) (net : Net) (addr qname : Bytes)
    (v : Relays × List Fate) : (fatedExchange zone host net addr qname v).2.2 = v.2.tail := by
  obtain ⟨w, fates⟩ := v
  cases fates with
  | nil => rfl
  | cons fate fates => cases fate <;> rfl

/-- An exchange that was answered with success had been admitted. -/
theorem fatedExchange_success {zone : Bytes} {host : Bytes → Bytes} {net : Net} {addr qname : Bytes}
    {v : Relays × List Fate} {m : Msg}
    (h : (fatedExchange zone host net addr qname v).1 = some m) (hm : m.rcode = .success) :
    ∃ fate ∈ v.2.head?, fate.admits = true := by
  obtain ⟨w, fates⟩ := v
  cases fates with
  | nil => cases h
  | cons fate fates =>
    cases fate with
    | lost => cases h
    | unanswered ctx => cases h
    | answered ctx =>
      obtain rfl := Option.some.inj h
      exact ⟨.answered ctx, rfl, admitted_of_success hm⟩

/-- A send that succeeds met a relay that admitted its query. -/
theorem admits_of_sent {call : Call} {relay : Bytes} {chunk : Chunk} {mode : TransportMode}
    {fates : List Fate} {w : Relays} (h : (call.sendResult relay chunk mode fates w).1 = .ok ()) :
    1 ≤ (call.met relay chunk mode fates w).countP Fate.admits := by
  obtain ⟨-, hsent⟩ := sendChunk_spec (fatedExchange call.zone call.host) relay call.zone chunk mode
    (w, fates) (fun v => v.2 <:+ fates) (fun net v hv => by
      rw [fatedExchange_left]
      exact (List.tail_suffix v.2).trans hv) (List.suffix_refl fates)
  obtain ⟨net, v, m, ⟨used, hused⟩, hm, hlast⟩ := hsent h
  obtain ⟨fate, hfate, hadmits⟩ := fatedExchange_success (congrArg Prod.fst hlast) hm
  obtain ⟨left, hleft⟩ := List.head?_eq_some_iff.mp hfate
  have hend := fatedExchange_left call.zone call.host net relay
    (questionName chunk.bodyLabels call.zone) v
  rw [hlast, hleft, List.tail_cons] at hend
  rw [hleft] at hused
  have hmet : call.met relay chunk mode fates w = used ++ [fate] := by
    have hlength : fates.length - left.length = (used ++ [fate]).length := by
      rw [← hused, List.length_append, List.length_append, List.length_cons, List.length_singleton]
      omega
    rw [Call.met, hend, hlength, ← hused, List.append_cons used fate left, List.take_left]
  rw [hmet, List.countP_append, List.countP_singleton, if_pos hadmits]
  omega

/-! ## The account of a run -/

/-- Every chunk that was accepted or marked is paid for by an admission of its own. -/
structure Accounted (call : Call) (s : Sending) (sites : List Bytes) : Prop where
  staffed : Staffed call s
  hosts : ∀ site ∈ sites, site ∈ call.relays.map call.host
  paid : ∃ won : List Nat, won.length ≤ sites.length ∧
    (∀ wk ∈ s.workers, wk.phase = .accepted → wk.index ∈ won) ∧
    ∀ i : Nat, s.chunkDelivered[i]? = some true → i ∈ won

private theorem accounted_start (call : Call) (w : Relays) : Accounted call (call.start w) [] := by
  refine ⟨staffed_start call w, fun site hsite => absurd hsite List.not_mem_nil, [], Nat.le_refl _, ?_, ?_⟩
  · intro wk hwk haccepted
    rw [(mem_call_workers.mp hwk).2.2] at haccepted
    cases haccepted
  · intro i hi
    rw [Call.start, List.getElem?_replicate] at hi
    split at hi <;> cases hi

theorem accepted_setPhase {s : Sending} {won : List Nat}
    (h : ∀ wk ∈ s.workers, wk.phase = .accepted → wk.index ∈ won) (k : Nat) (wk : Worker)
    {phase : Phase} (hphase : phase = .accepted → wk.index ∈ won) :
    ∀ v ∈ (s.setPhase k wk phase).workers, v.phase = .accepted → v.index ∈ won := by
  intro v hv haccepted
  rcases List.mem_or_eq_of_mem_set hv with hold | rfl
  · exact h v hold haccepted
  · exact hphase haccepted

private theorem admissions_hosts {call : Call} {s : Sending} (h : Staffed call s) (a : Act) :
    ∀ site ∈ call.admissions s a, site ∈ call.relays.map call.host := by
  intro site hsite
  unfold Call.admissions at hsite
  split at hsite
  next k mode fates =>
    split at hsite
    next => cases hsite
    next wk hk =>
      split at hsite
      next => cases hsite
      next =>
        rw [List.eq_of_mem_replicate hsite]
        exact List.mem_map_of_mem (h.2 wk (List.mem_of_getElem? hk)).2
  next k ctx =>
    split at hsite
    next => cases hsite
    next wk hk =>
      split at hsite
      next =>
        rw [List.mem_singleton.mp hsite]
        exact List.mem_map_of_mem (h.2 wk (List.mem_of_getElem? hk)).2
      next => cases hsite
  next => cases hsite

theorem Accounted.step {call : Call} {s t : Sending} {sites : List Bytes} {a : Act}
    (h : Accounted call s sites) (hs : call.step s a = some t) :
    Accounted call t (sites ++ call.admissions s a) := by
  refine ⟨staffed_step h.staffed hs, ?_, ?_⟩
  · intro site hsite
    rcases List.mem_append.mp hsite with hold | hnew
    · exact h.hosts site hold
    · exact admissions_hosts h.staffed a site hnew
  obtain ⟨won, hpaid, haccepted, hmarked⟩ := h.paid
  have hmore : won.length ≤ (sites ++ call.admissions s a).length := by
    rw [List.length_append]
    omega
  cases call_step_cases hs with
  | move a k wk phase hk hold hp =>
    exact ⟨won, hmore, accepted_setPhase haccepted k wk (fun ha => absurd ha hp), hmarked⟩
  | send k wk chunk mode fates hk hold hc =>
    by_cases hsent : (call.sendResult wk.relay chunk mode fates s.world).1 = .ok ()
    · -- the new success is paid for by the admission of its last exchange
      have hnew : 1 ≤ (call.admissions s (.send k mode fates)).length := by
        simp only [Call.admissions, hk, hc, List.length_replicate]
        exact admits_of_sent hsent
      refine ⟨wk.index :: won, ?_, ?_, fun i hi => List.mem_cons_of_mem _ (hmarked i hi)⟩
      · rw [List.length_cons, List.length_append]
        omega
      · exact accepted_setPhase (fun v hv ha => List.mem_cons_of_mem _ (haccepted v hv ha)) k wk
          (fun _ => List.mem_cons_self)
    · refine ⟨won, hmore, accepted_setPhase haccepted k wk ?_, hmarked⟩
      rw [if_neg hsent]
      exact Phase.noConfusion
  | mark k wk hk hold =>
    have hwon := haccepted wk (List.mem_of_getElem? hk) hold
    refine ⟨won, hmore, accepted_setPhase haccepted k wk Phase.noConfusion, ?_⟩
    intro i hi
    rw [List.getElem?_set] at hi
    split at hi
    next hindex =>
      rw [← hindex]
      exact hwon
    next => exact hmarked i hi
  | duplicate k wk chunk ctx hk hc => exact ⟨won, hmore, haccepted, hmarked⟩
  | control a cancelled main hmain => exact ⟨won, hmore, haccepted, hmarked⟩

/-- The chunks that the call counts as delivered, each with an index of its own. -/
theorem Accounted.delivered_le {call : Call} {s : Sending} {sites : List Bytes}
    (h : Accounted call s sites) :
    s.chunkDelivered.length - s.undelivered.length ≤ sites.length := by
  obtain ⟨won, hpaid, -, hmarked⟩ := h.paid
  have hparts : (List.range s.chunkDelivered.length).length = _ :=
    List.length_eq_length_filter_add (fun i => decide (s.chunkDelivered[i]? = some false))
  rw [List.length_range, ← Sending.undelivered] at hparts
  have hsub : (List.range s.chunkDelivered.length).filter
      (fun i => !decide (s.chunkDelivered[i]? = some false)) ⊆ won := by
    intro i hi
    obtain ⟨hrange, hnot⟩ := List.mem_filter.mp hi
    apply hmarked
    have hlt := List.mem_range.mp hrange
    rw [List.getElem?_eq_getElem hlt] at hnot ⊢
    simpa using hnot
  have hle := (List.nodup_range.filter _).length_le_of_subset hsub
  omega

/-- Admissions at the hosts of a call, host by host. -/
theorem length_eq_sum_count {sites hosts : List Bytes} (h : ∀ site ∈ sites, site ∈ hosts) :
    sites.length = ∑ site ∈ hosts.toFinset, sites.count site := by
  have hmem : ∀ site ∈ (sites : Multiset Bytes), site ∈ hosts.toFinset := by
    intro site hsite
    exact List.mem_toFinset.mpr (h site hsite)
  have hsum := Multiset.sum_count_eq_card hmem
  simp only [Multiset.coe_count, Multiset.coe_card] at hsum
  convert hsum.symm using 3
  apply lawful_beq_subsingleton

/-- Whatever the schedule, the network and the other users of the relays do, the chunks that a call
delivers while `seconds since clock` pass are at most the burst and the limit times these seconds
for each host, so no message of more chunks is sent with success in that time. -/
theorem sendParallel_capacity (call : Call) (hrelays : call.relays ≠ []) (limit burst : Nat)
    {limiters limiters' : Bytes → IPRateLimiter} {since clock : Int} {ip : Bytes} {w : Relays}
    {acts : List Act} {s : Sending} (hrun : run call.step (call.start w) acts = some s)
    (hlimiters : ∀ site ∈ call.relays.map call.host,
      (limiters site).Sound since ∧ (limiters site).limit = limit ∧ (limiters site).burst = burst)
    (hmetered : ∀ site ∈ call.relays.map call.host, Metered (limiters site) since ip
      (limiters' site) clock ((outputs call.step call.admissions (call.start w) acts).count site)) :
    ((s.chunkDelivered.length - s.undelivered.length : Nat) : ℚ) ≤
        (call.relays.map call.host).toFinset.card * (burst + limit * seconds since clock) ∧
      (s.main = .returned (.ok ()) → (call.chunks.length : ℚ) ≤
        (call.relays.map call.host).toFinset.card * (burst + limit * seconds since clock)) := by
  have hacc := run_outputs (fun _ _ _ _ h hs => Accounted.step h hs) (accounted_start call w) hrun
  rw [List.nil_append] at hacc
  have hsites : ((outputs call.step call.admissions (call.start w) acts).length : ℚ) ≤
      (call.relays.map call.host).toFinset.card * (burst + limit * seconds since clock) := by
    rw [length_eq_sum_count hacc.hosts, Nat.cast_sum, ← nsmul_eq_mul]
    apply Finset.sum_le_card_nsmul
    intro site hsite
    obtain ⟨hsound, hlimit, hburst⟩ := hlimiters site (List.mem_toFinset.mp hsite)
    have hbound := (hmetered site (List.mem_toFinset.mp hsite)).bound hsound
    rw [hlimit, hburst] at hbound
    exact_mod_cast hbound
  have hdelivered : ((s.chunkDelivered.length - s.undelivered.length : Nat) : ℚ) ≤
      ((outputs call.step call.admissions (call.start w) acts).length : ℚ) := by
    exact_mod_cast hacc.delivered_le
  refine ⟨hdelivered.trans hsites, ?_⟩
  intro hok
  have hall : s.AllDelivered := by
    by_cases hchunks : call.chunks = []
    · intro b hb
      have hlen := hacc.staffed.1
      rw [hchunks, List.length_nil] at hlen
      rw [List.eq_nil_of_length_eq_zero hlen] at hb
      cases hb
    · have hreported := run_invariant (fun s a t h hs => reported_step h hs)
        (reported_start hchunks hrelays w) hrun
      exact hreported.success hok
  have hnone : s.undelivered = [] := by
    rw [Sending.undelivered, List.filter_eq_nil_iff]
    intro i hi hfalse
    have hfalse := of_decide_eq_true hfalse
    cases hall false (List.mem_of_getElem? hfalse)
  rw [hnone, List.length_nil, Nat.sub_zero, hacc.staffed.1] at hdelivered
  exact hdelivered.trans hsites

/-- One chunk for one relay, sent with the first query. -/
def loneChunkCall : Call where
  zone := lit "z.org"
  host := id
  chunks := [newChunk (putUint64 5) 0 1 [7]]
  relays := [lit "A"]

def sentAtOnce : List Act :=
  [.acquire 0, .proceed 0, .send 0 .tcp [.answered ⟨true, 0, true, []⟩], .mark 0, .finish]

theorem sendParallel_capacity_sentAtOnce :
    ∃ s, run loneChunkCall.step (loneChunkCall.start (fun _ => newChunkStore 60)) sentAtOnce = some s ∧
      s.main = .returned (.ok ()) ∧
      (loneChunkCall.chunks.length : ℚ) ≤ 1 * (20 + 10 * seconds 0 1000000000) := by
  have hstate : (run loneChunkCall.step (loneChunkCall.start (fun _ => newChunkStore 60))
      sentAtOnce).map Sending.main = some (.returned (.ok ())) := by decide +kernel
  obtain ⟨s, hrun, hmain⟩ := Option.map_eq_some_iff.mp hstate
  have hsites : outputs loneChunkCall.step loneChunkCall.admissions
      (loneChunkCall.start (fun _ => newChunkStore 60)) sentAtOnce = [lit "A"] := by decide +kernel
  have hallowed : ((RateLimit.newIPRateLimiter 10 20).allow ⟨lit "ip", 1000000000, 1000000000⟩).1 =
      true := by decide +kernel
  have hlimiters : ∀ site ∈ loneChunkCall.relays.map loneChunkCall.host,
      (RateLimit.newIPRateLimiter 10 20).Sound 0 ∧ (10 : Int) = (10 : Nat) ∧
        (20 : Int) = (20 : Nat) := by
    refine fun _ _ => ⟨⟨by decide, by decide, ?_⟩, rfl, rfl⟩
    intro ip tb htb
    cases htb
  have hmetered : ∀ site ∈ loneChunkCall.relays.map loneChunkCall.host,
      Metered (RateLimit.newIPRateLimiter 10 20) 0 (lit "ip")
        ((RateLimit.newIPRateLimiter 10 20).allow ⟨lit "ip", 1000000000, 1000000000⟩).2 1000000000
        ((outputs loneChunkCall.step loneChunkCall.admissions
          (loneChunkCall.start (fun _ => newChunkStore 60)) sentAtOnce).count site) := by
    intro site hsite
    rw [hsites, List.mem_singleton.mp hsite]
    have hquery := (RateLimit.metered_start (RateLimit.newIPRateLimiter 10 20) 0 (lit "ip")).query
      (q := ⟨lit "ip", 1000000000, 1000000000⟩) (by decide) (le_refl _)
    rw [if_pos ⟨rfl, hallowed⟩] at hquery
    exact hquery
  have hbound := (sendParallel_capacity loneChunkCall (by decide) 10 20 hrun hlimiters hmetered).2 hmain
  exact ⟨s, hrun, hmain, by exact_mod_cast hbound⟩

end VRGram.Client
