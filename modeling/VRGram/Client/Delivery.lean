import VRGram.Client.SendParallel

/-!
# What `sendParallel` reports

The call watches three things at once: the end of all workers, the end of its context and
a ticker. Each branch waits for the workers before it returns, so all of them see every
acceptance; the branch of the context fails whatever it sees.
-/
namespace VRGram.Client

open VRGram.Lib.Maps VRGram.Lib.Strings VRGram.Lib.Dns VRGram.Lib.Machine
open VRGram.Encoding VRGram.Store VRGram.Relay

set_option autoImplicit false

/-- The chunk that a relay accepts in a step, as the sender knows it: `SendChunk` returns nil. -/
def Call.accepts (call : Call) (s : Sending) : Act → List Nat
  | .send k mode fates =>
    match s.workers[k]? with
    | none => []
    | some wk =>
      match call.chunks[wk.index]? with
      | none => []
      | some chunk =>
        if (call.sendResult wk.relay chunk mode fates s.world).1 = .ok () then [wk.index] else []
  | _ => []

/-- The chunks that have been accepted by some relay in a run. -/
def Call.accepted (call : Call) (w : Relays) (schedule : List Act) : List Nat :=
  outputs call.step call.accepts (call.start w) schedule

/-! ## Every acceptance is marked -/

/-- A worker for chunk `i` is back with a success and has not marked it yet. -/
def Sending.Pending (s : Sending) (i : Nat) : Prop :=
  ∃ wk ∈ s.workers, wk.index = i ∧ wk.phase = .accepted

/-- The accepted chunks are those that are marked or about to be. -/
def Credited (s : Sending) (got : List Nat) : Prop :=
  ∀ i, i ∈ got ↔ s.chunkDelivered[i]? = some true ∨ s.Pending i

section

variable {call : Call} {s t : Sending} {got : List Nat} {k : Nat} {wk : Worker}

/-- A worker that changes its phase is the only one to do so. -/
theorem pending_setPhase (hk : s.workers[k]? = some wk) (phase : Phase) (i : Nat) :
    (s.setPhase k wk phase).Pending i ↔
      (∃ j v, j ≠ k ∧ s.workers[j]? = some v ∧ v.index = i ∧ v.phase = .accepted) ∨
        (wk.index = i ∧ phase = .accepted) := by
  obtain ⟨hlt, -⟩ := List.getElem?_eq_some_iff.mp hk
  constructor
  · intro h
    obtain ⟨v, hv, hindex, hphase⟩ := h
    obtain ⟨j, hj⟩ := List.getElem?_of_mem hv
    by_cases hjk : j = k
    · subst hjk
      rw [Sending.setPhase, List.getElem?_set_self hlt] at hj
      obtain rfl := Option.some.inj hj
      exact Or.inr ⟨hindex, hphase⟩
    · rw [Sending.setPhase, List.getElem?_set_ne (Ne.symm hjk)] at hj
      exact Or.inl ⟨j, v, hjk, hj, hindex, hphase⟩
  · intro h
    rcases h with ⟨j, v, hjk, hj, hindex, hphase⟩ | ⟨hindex, hphase⟩
    · refine ⟨v, List.mem_of_getElem? (i := j) ?_, hindex, hphase⟩
      rw [Sending.setPhase, List.getElem?_set_ne (Ne.symm hjk), hj]
    · refine ⟨{ wk with phase := phase }, List.mem_of_getElem? (i := k) ?_, hindex, hphase⟩
      rw [Sending.setPhase, List.getElem?_set_self hlt]

/-- The others are all that counts while this worker is not pending itself. -/
theorem pending_others (hk : s.workers[k]? = some wk) (hp : wk.phase ≠ .accepted) (i : Nat) :
    (∃ j v, j ≠ k ∧ s.workers[j]? = some v ∧ v.index = i ∧ v.phase = .accepted) ↔ s.Pending i := by
  constructor
  · intro h
    obtain ⟨j, v, -, hj, hv⟩ := h
    exact ⟨v, List.mem_of_getElem? hj, hv⟩
  · intro h
    obtain ⟨v, hv, hindex, hphase⟩ := h
    obtain ⟨j, hj⟩ := List.getElem?_of_mem hv
    refine ⟨j, v, ?_, hj, hindex, hphase⟩
    rintro rfl
    obtain rfl := Option.some.inj (hk.symm.trans hj)
    exact hp hphase

theorem Credited.setPhase (h : Credited s got) (hk : s.workers[k]? = some wk)
    (hp : wk.phase ≠ .accepted) {phase : Phase} (hphase : phase ≠ .accepted) :
    Credited (s.setPhase k wk phase) got := by
  intro i
  rw [h i, pending_setPhase hk, pending_others hk hp]
  simp only [hphase, and_false, or_false]
  exact Iff.rfl

/-- A send that succeeds makes its worker pending. -/
theorem Credited.send (h : Credited s got) (hk : s.workers[k]? = some wk)
    (hp : wk.phase ≠ .accepted) (ok : Prop) [Decidable ok] :
    Credited (s.setPhase k wk (if ok then .accepted else .finished))
      (got ++ if ok then [wk.index] else []) := by
  by_cases hok : ok
  · intro i
    rw [if_pos hok, if_pos hok, List.mem_append, h i, pending_setPhase hk, pending_others hk hp,
      List.mem_singleton]
    simp only [and_true, or_assoc, eq_comm]
    exact Iff.rfl
  · rw [if_neg hok, if_neg hok, List.append_nil]
    exact h.setPhase hk hp (by decide)

/-- A mark takes over from the pending worker. -/
theorem Credited.mark (h : Credited s got) (hs : Staffed call s) (hk : s.workers[k]? = some wk)
    (hp : wk.phase = .accepted) :
    Credited { s.setPhase k wk .finished with
      chunkDelivered := s.chunkDelivered.set wk.index true } got := by
  intro i
  have hlt : wk.index < s.chunkDelivered.length := by
    rw [hs.1]
    exact (hs.2 wk (List.mem_of_getElem? hk)).1
  show i ∈ got ↔ (s.chunkDelivered.set wk.index true)[i]? = some true ∨
    (s.setPhase k wk .finished).Pending i
  rw [h i, pending_setPhase hk]
  by_cases hi : wk.index = i
  · subst hi
    rw [List.getElem?_set_self hlt]
    exact iff_of_true (Or.inr ⟨wk, List.mem_of_getElem? hk, rfl, hp⟩) (Or.inl rfl)
  · rw [List.getElem?_set_ne hi]
    refine or_congr_right ?_
    simp only [hi, false_and, or_false]
    constructor
    · intro hpend
      obtain ⟨v, hv, hindex, hphase⟩ := hpend
      obtain ⟨j, hj⟩ := List.getElem?_of_mem hv
      refine ⟨j, v, ?_, hj, hindex, hphase⟩
      rintro rfl
      obtain rfl := Option.some.inj (hk.symm.trans hj)
      exact hi hindex
    · intro hpend
      obtain ⟨j, v, -, hj, hv⟩ := hpend
      exact ⟨v, List.mem_of_getElem? hj, hv⟩

theorem Credited.step (h : Credited s got) (hs : Staffed call s) {a : Act}
    (ht : call.step s a = some t) : Credited t (got ++ call.accepts s a) := by
  by_cases hsend : ∃ k mode fates, a = .send k mode fates
  · obtain ⟨k, mode, fates, rfl⟩ := hsend
    obtain ⟨wk, hk, hp, hf⟩ := withWorker_some ht
    obtain ⟨chunk, hc, rfl⟩ := Option.map_eq_some_iff.mp hf
    simp only [Call.accepts, hk, hc]
    exact h.send hk (by rw [hp]; decide) _
  · have hnone : call.accepts s a = [] := by
      cases a with
      | send k mode fates => exact absurd ⟨k, mode, fates, rfl⟩ hsend
      | _ => rfl
    rw [hnone, List.append_nil]
    cases call_step_cases ht with
    | move a k wk phase hk hold hp =>
      refine h.setPhase hk ?_ hp
      rcases hold with hold | hold <;> rw [hold] <;> decide
    | send k wk chunk mode fates hk hold hc => exact absurd ⟨k, mode, fates, rfl⟩ hsend
    | mark k wk hk hold => exact h.mark hs hk hold
    | duplicate k wk chunk ctx hk hc => exact h
    | control a cancelled main hmain => exact h

private theorem credited_start (call : Call) (w : Relays) : Credited (call.start w) [] := by
  intro i
  refine iff_of_false List.not_mem_nil ?_
  intro h
  rcases h with hmark | ⟨wk, hwk, -, hp⟩
  · rw [Call.start, List.getElem?_replicate] at hmark
    split at hmark <;> cases hmark
  · rw [(mem_call_workers.mp hwk).2.2] at hp
    cases hp

/-- When all workers have returned, every acceptance is marked. -/
theorem Credited.allDelivered_iff (h : Credited s got) (hs : Staffed call s) (hdone : s.Done) :
    s.AllDelivered ↔ ∀ i < call.chunks.length, i ∈ got := by
  have hmarked : ∀ i, i ∈ got ↔ s.chunkDelivered[i]? = some true := by
    intro i
    rw [h i]
    refine or_iff_left ?_
    intro hpend
    obtain ⟨wk, hwk, -, hp⟩ := hpend
    rw [hdone wk hwk] at hp
    cases hp
  constructor
  · intro hall i hi
    have hlt : i < s.chunkDelivered.length := by
      rw [hs.1]
      exact hi
    rw [hmarked, List.getElem?_eq_getElem hlt, hall _ (List.getElem_mem hlt)]
  · intro hall b hb
    obtain ⟨i, hi, rfl⟩ := List.mem_iff_getElem.mp hb
    have hgot := hall i (hs.1 ▸ hi)
    rw [hmarked, List.getElem?_eq_getElem hi] at hgot
    exact Option.some.inj hgot

/-! ## The verdict -/

private theorem verdict_ok_iff (s : Sending) : s.verdict = .ok () ↔ s.AllDelivered := by
  refine ⟨allDelivered_of_verdict, fun hall => ?_⟩
  have hnone : s.undelivered = [] := by
    rw [Sending.undelivered, List.filter_eq_nil_iff]
    intro i hi
    have hlt := List.mem_range.mp hi
    rw [List.getElem?_eq_getElem hlt, hall _ (List.getElem_mem hlt)]
    decide
  rw [Sending.verdict, if_pos hnone]

/-- The call has seen the end of its context. -/
def Sending.TimedOut (s : Sending) : Prop :=
  s.main = .timedOut ∨ ∃ d n, s.main = .returned (.error (.timeout d n))

/-- What holds of a call that is about to return or has returned. -/
structure Closed (s : Sending) : Prop where
  early : s.main = .early → s.AllDelivered
  done : ∀ r, s.main = .returned r → s.Done
  judged : ∀ r, s.main = .returned r → ¬ s.TimedOut → (r = .ok () ↔ s.AllDelivered)

theorem closed_of_running (hm : ∀ r, s.main ≠ .returned r)
    (hearly : s.main = .early → s.AllDelivered) : Closed s :=
  ⟨hearly, fun r hr => absurd hr (hm r), fun r hr => absurd hr (hm r)⟩

theorem closed_of_returned {r : Except ParallelError Unit} (hm : s.main = .returned r)
    (hdone : s.Done) (hjudged : ¬ s.TimedOut → (r = .ok () ↔ s.AllDelivered)) : Closed s := by
  refine ⟨?_, fun _ _ => hdone, ?_⟩
  · intro he
    rw [hm] at he
    cases he
  · intro r' hr
    obtain rfl := Main.returned.inj (hm.symm.trans hr)
    exact hjudged

/-- A worker at work keeps the call from returning. -/
theorem Closed.work (h : Closed s) (hk : s.workers[k]? = some wk) (hp : wk.phase ≠ .finished)
    (hm : t.main = s.main) (hkept : s.AllDelivered → t.AllDelivered) : Closed t := by
  refine closed_of_running ?_ (fun he => hkept (h.early (hm ▸ he)))
  intro r hr
  exact hp (h.done r (hm ▸ hr) wk (List.mem_of_getElem? hk))

theorem Closed.step (h : Closed s) {a : Act} (ht : call.step s a = some t) : Closed t := by
  cases call_step_cases ht with
  | move a k wk phase hk hold hp =>
    refine h.work hk ?_ rfl id
    rcases hold with hold | hold <;> rw [hold] <;> decide
  | send k wk chunk mode fates hk hold hc => exact h.work hk (by rw [hold]; decide) rfl id
  | mark k wk hk hold =>
    exact h.work hk (by rw [hold]; decide) rfl (fun hall => allDelivered_set hall _)
  | duplicate k wk chunk ctx hk hc => exact ⟨h.early, h.done, h.judged⟩
  | control a cancelled main hmain =>
    cases hmain with
    | stay => exact ⟨h.early, h.done, h.judged⟩
    | early a hm hall => exact closed_of_running (fun r => Main.noConfusion) (fun _ => hall)
    | timedOut hm => exact closed_of_running (fun r => Main.noConfusion) Main.noConfusion
    | judge a hm hdone => exact closed_of_returned rfl hdone (fun _ => verdict_ok_iff s)
    | success a hm hdone =>
      exact closed_of_returned rfl hdone (fun _ => iff_of_true rfl (h.early hm))
    | timeout a delivered total hm hdone =>
      exact closed_of_returned rfl hdone
        (fun htime => absurd (Or.inr ⟨delivered, total, rfl⟩) htime)

/-- With relays to send to, a call that returns at once has nothing to send. -/
theorem closed_start (hr : call.relays ≠ []) (w : Relays) : Closed (call.start w) := by
  by_cases hc : call.chunks = []
  · have hworkers : (call.start w).workers = [] := by simp [Call.start, Call.workers, hc]
    have hdelivered : (call.start w).chunkDelivered = [] := by simp [Call.start, hc]
    refine closed_of_returned (r := .ok ()) (by simp [Call.start, hc]) ?_ (fun _ => ?_)
    · rw [Sending.Done, hworkers]
      exact fun wk hwk => absurd hwk List.not_mem_nil
    · refine iff_of_true rfl ?_
      rw [Sending.AllDelivered, hdelivered]
      exact fun b hb => absurd hb List.not_mem_nil
  · have hm : (call.start w).main = .selecting := by simp [Call.start, hc, hr]
    exact closed_of_running (fun r h => by rw [hm] at h; cases h)
      (fun h => by rw [hm] at h; cases h)

/-- Only the end of the context leads into its branch, and nothing leads out of it. -/
theorem timedOut_step {a : Act} (ht : call.step s a = some t) :
    t.TimedOut ↔ a = .notice ∨ s.TimedOut := by
  by_cases hn : a = .notice
  · subst hn
    refine iff_of_true (Or.inl ?_) (Or.inl rfl)
    simp only [Call.step] at ht
    split at ht
    next =>
      split at ht
      next =>
        obtain rfl := Option.some.inj ht
        rfl
      next => cases ht
    next => cases ht
  · rw [or_iff_right hn]
    cases call_step_cases ht with
    | move a k wk phase hk hold hp => exact Iff.rfl
    | send k wk chunk mode fates hk hold hc => exact Iff.rfl
    | mark k wk hk hold => exact Iff.rfl
    | duplicate k wk chunk ctx hk hc => exact Iff.rfl
    | control a cancelled main hmain =>
      cases hmain with
      | stay => exact Iff.rfl
      | early a hm hall => simp [Sending.TimedOut, hm]
      | timedOut hm => exact absurd rfl hn
      | judge a hm hdone =>
        have hverdict : ∀ d n, s.verdict ≠ .error (.timeout d n) := by
          intro d n
          unfold Sending.verdict
          split
          · exact fun h => by cases h
          · exact fun h => by cases h
        simp [Sending.TimedOut, hm, hverdict]
      | success a hm hdone => simp [Sending.TimedOut, hm]
      | timeout a delivered total hm hdone => simp [Sending.TimedOut, hm]

private theorem timedOut_run {schedule : List Act} (hrun : run call.step s schedule = some t) :
    t.TimedOut ↔ Act.notice ∈ schedule ∨ s.TimedOut := by
  induction schedule generalizing s with
  | nil =>
    obtain rfl := Option.some.inj hrun
    simp
  | cons a rest ih =>
    obtain ⟨u, hu, hrest⟩ := run_cons.mp hrun
    rw [ih hrest, timedOut_step hu, List.mem_cons, or_left_comm, or_assoc, eq_comm]

private theorem not_timedOut_start (call : Call) (w : Relays) : ¬ (call.start w).TimedOut := by
  unfold Sending.TimedOut Call.start
  split_ifs <;> simp

end

/-- A call with relays to send to that has returned: nil means that every chunk was accepted
by some relay, and an error that some chunk was not, except where the end of the context was
noticed and every chunk had been accepted. -/
theorem sendParallel_exact_iff (call : Call) (hrelays : call.relays ≠ []) (w : Relays)
    (schedule : List Act) (s : Sending) (r : Except ParallelError Unit)
    (hrun : run call.step (call.start w) schedule = some s) (hreturned : s.main = .returned r) :
    (r = .ok () ↔ ∀ i < call.chunks.length, i ∈ call.accepted w schedule) ↔
      (Act.notice ∉ schedule ∨ ∃ i < call.chunks.length, i ∉ call.accepted w schedule) := by
  have hstaffed : Staffed call s :=
    run_invariant (fun _ _ _ h hs => staffed_step h hs) (staffed_start call w) hrun
  have hclosed : Closed s :=
    run_invariant (fun _ _ _ h hs => h.step hs) (closed_start hrelays w) hrun
  have hcredited : Credited s (call.accepted w schedule) := by
    have h := run_outputs (R := fun u got => Staffed call u ∧ Credited u got)
      (fun u a v got hu hs => ⟨staffed_step hu.1 hs, hu.2.step hu.1 hs⟩)
      ⟨staffed_start call w, credited_start call w⟩ hrun
    exact h.2
  have htime : s.TimedOut ↔ Act.notice ∈ schedule := by
    rw [timedOut_run hrun, or_iff_left (not_timedOut_start call w)]
  have hall := hcredited.allDelivered_iff hstaffed (hclosed.done r hreturned)
  have hnotAll : (∃ i < call.chunks.length, i ∉ call.accepted w schedule) ↔ ¬ s.AllDelivered := by
    rw [hall]
    push Not
    exact Iff.rfl
  rw [hnotAll, ← hall, ← htime]
  by_cases ht : s.TimedOut
  · -- the branch of the context returns an error
    have hfail : r ≠ .ok () := by
      rintro rfl
      rcases ht with hm | ⟨d, n, hm⟩
      · cases hreturned.symm.trans hm
      · cases Main.returned.inj (hreturned.symm.trans hm)
    simp [ht, hfail]
  · simp [ht, hclosed.judged r hreturned ht]

/-- One chunk for one relay that is up. -/
def oneChunkCall : Call where
  zone := lit "z.org"
  host := id
  chunks := [newChunk ⟨List.replicate 8 8, rfl⟩ 0 1 [7]]
  relays := [lit "A"]

/-- The only worker gets its chunk through. -/
def getsThrough : List Act :=
  [.acquire 0, .proceed 0, .send 0 .tcp [.answered ⟨true, 0, true, []⟩], .mark 0]

theorem sendParallel_exact_iff_oneChunk :
    ∃ s r, run oneChunkCall.step (oneChunkCall.start (fun _ => newChunkStore 60))
        (getsThrough ++ [.finish]) = some s ∧ s.main = .returned r ∧
      (r = .ok () ↔ ∀ i < 1, i ∈ oneChunkCall.accepted (fun _ => newChunkStore 60)
        (getsThrough ++ [.finish])) := by
  have hmain : (run oneChunkCall.step (oneChunkCall.start (fun _ => newChunkStore 60))
      (getsThrough ++ [.finish])).map Sending.main = some (.returned (.ok ())) := by decide +kernel
  obtain ⟨s, hrun, hreturned⟩ := Option.map_eq_some_iff.mp hmain
  refine ⟨s, _, hrun, hreturned, ?_⟩
  exact (sendParallel_exact_iff oneChunkCall (by decide) _ _ s _ hrun hreturned).mpr
    (Or.inl (by simp [getsThrough]))

/-- The chunk is accepted and marked, the parent context ends, and `sendParallel` reports a
timeout of one chunk out of one. -/
theorem sendParallel_lateCancel :
    ∃ s, run oneChunkCall.step (oneChunkCall.start (fun _ => newChunkStore 60))
        (getsThrough ++ [.cancelParent, .notice, .drained]) = some s ∧
      s.main = .returned (.error (.timeout 1 1)) ∧
      oneChunkCall.accepted (fun _ => newChunkStore 60)
        (getsThrough ++ [.cancelParent, .notice, .drained]) = [0] := by
  have hmain : (run oneChunkCall.step (oneChunkCall.start (fun _ => newChunkStore 60))
      (getsThrough ++ [.cancelParent, .notice, .drained])).map Sending.main =
        some (.returned (.error (.timeout 1 1))) := by decide +kernel
  obtain ⟨s, hrun, hreturned⟩ := Option.map_eq_some_iff.mp hmain
  exact ⟨s, hrun, hreturned, by decide +kernel⟩

end VRGram.Client
