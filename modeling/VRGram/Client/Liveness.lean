import VRGram.Client.RelaySet
import VRGram.Lib.Progress

/-!
# `sendParallel` returns

The workers compete for fifteen slots, and the main loop waits for all of them on every way out.
No schedule of them gets stuck, and none goes on for ever.
-/
namespace VRGram.Client

open VRGram.Lib.Strings VRGram.Lib.Machine VRGram.Encoding VRGram.Store VRGram.Relay

set_option autoImplicit false

variable {call : Call} {s t : Sending} {a : Act}

/-- A second copy of a query, a cancellation from outside, and a tick that finds a chunk
undelivered. -/
def Idle (s : Sending) : Act → Prop
  | .duplicate _ _ => True
  | .cancelParent => True
  | .tick => ¬ s.AllDelivered
  | _ => False

instance (s : Sending) : (a : Act) → Decidable (Idle s a)
  | .duplicate _ _ => isTrue trivial
  | .cancelParent => isTrue trivial
  | .tick => inferInstanceAs (Decidable (¬ s.AllDelivered))
  | .acquire _ | .abandon _ | .proceed _ | .send _ _ _ | .mark _ | .notice | .finish | .drained =>
    isFalse id

/-! ## What is left to do -/

def Phase.weight : Phase → Nat
  | .waiting => 4
  | .holding => 3
  | .sending => 2
  | .accepted => 1
  | .finished => 0

def Main.weight : Main → Nat
  | .selecting => 2
  | .early | .timedOut => 1
  | .returned _ => 0

def Sending.weight (s : Sending) : Nat :=
  (s.workers.map (fun wk => wk.phase.weight)).sum + s.main.weight

/-- How a worker can go on. -/
inductive Moves (s : Sending) : Phase → Phase → Prop
  | acquire (hfree : s.held < parallelism) : Moves s .waiting .holding
  | proceed : Moves s .holding .sending
  | accept : Moves s .sending .accepted
  | leave {phase : Phase} (hp : phase ≠ .finished) : Moves s phase .finished

theorem Moves.weight_lt {old new : Phase} (h : Moves s old new) : new.weight < old.weight := by
  cases h with
  | acquire | proceed | accept => decide
  | leave hp =>
    cases old with
    | finished => exact absurd rfl hp
    | _ => decide

/-- One worker goes on, or the workers stay where they are and the main loop goes on unless the
act is idle. -/
theorem step_moves (h : call.step s a = some t) :
    (∃ k wk phase, s.workers[k]? = some wk ∧ Moves s wk.phase phase ∧
      t.workers = s.workers.set k { wk with phase := phase } ∧ t.main = s.main) ∨
    (t.workers = s.workers ∧ t.main.weight + (if Idle s a then 0 else 1) ≤ s.main.weight) := by
  cases a with
  | acquire k =>
    obtain ⟨wk, hk, hp, hf⟩ := withWorker_some h
    split_ifs at hf with hfree
    obtain rfl := Option.some.inj hf
    exact .inl ⟨k, wk, .holding, hk, hp ▸ .acquire hfree, rfl, rfl⟩
  | abandon k =>
    obtain ⟨wk, hk, hp, hf⟩ := withWorker_some h
    split_ifs at hf
    obtain rfl := Option.some.inj hf
    exact .inl ⟨k, wk, .finished, hk, .leave (by rw [hp]; decide), rfl, rfl⟩
  | proceed k =>
    obtain ⟨wk, hk, hp, hf⟩ := withWorker_some h
    obtain rfl := Option.some.inj hf
    refine .inl ⟨k, wk, _, hk, ?_, rfl, rfl⟩
    rw [hp]
    split
    · exact .leave (by decide)
    · exact .proceed
  | send k mode fates =>
    obtain ⟨wk, hk, hp, hf⟩ := withWorker_some h
    obtain ⟨chunk, -, rfl⟩ := Option.map_eq_some_iff.mp hf
    refine .inl ⟨k, wk, _, hk, ?_, rfl, rfl⟩
    rw [hp]
    split
    · exact .accept
    · exact .leave (by decide)
  | mark k =>
    obtain ⟨wk, hk, hp, hf⟩ := withWorker_some h
    obtain rfl := Option.some.inj hf
    exact .inl ⟨k, wk, .finished, hk, .leave (by rw [hp]; decide), rfl, rfl⟩
  | duplicate k ctx =>
    obtain ⟨wk, -, hf⟩ := Option.bind_eq_some_iff.mp h
    obtain ⟨chunk, -, rfl⟩ := Option.map_eq_some_iff.mp hf
    exact .inr ⟨rfl, Nat.le_refl _⟩
  | cancelParent =>
    obtain rfl := Option.some.inj h
    exact .inr ⟨rfl, Nat.le_refl _⟩
  | tick =>
    simp only [Call.step] at h
    split at h
    next hm =>
      split_ifs at h with hall <;> obtain rfl := Option.some.inj h
      · have hbusy : ¬ Idle s .tick := not_not_intro hall
        refine .inr ⟨rfl, ?_⟩
        rw [hm, if_neg hbusy]
        exact Nat.le_refl 2
      · have hidle : Idle s .tick := hall
        refine .inr ⟨rfl, ?_⟩
        rw [if_pos hidle]
        exact Nat.le_refl _
    next => cases h
  | notice =>
    simp only [Call.step] at h
    split at h
    next hm =>
      split_ifs at h
      obtain rfl := Option.some.inj h
      exact .inr ⟨rfl, by rw [hm]; exact Nat.le_refl 2⟩
    next => cases h
  | finish =>
    simp only [Call.step] at h
    split at h
    next hm =>
      split_ifs at h
      obtain rfl := Option.some.inj h
      exact .inr ⟨rfl, by rw [hm]; exact Nat.le_succ 1⟩
    next => cases h
  | drained =>
    simp only [Call.step] at h
    split at h
    next hm =>
      split_ifs at h
      obtain rfl := Option.some.inj h
      exact .inr ⟨rfl, by rw [hm]; exact Nat.le_refl 1⟩
    next hm =>
      split_ifs at h
      obtain rfl := Option.some.inj h
      exact .inr ⟨rfl, by rw [hm]; exact Nat.le_refl 1⟩
    next => cases h

theorem step_wanes (call : Call) : Wanes call.step Idle Sending.weight := by
  intro s a t h
  simp only [Sending.weight]
  rcases step_moves h with ⟨k, wk, phase, hk, hmoves, hworkers, hmain⟩ | ⟨hworkers, hmain⟩
  · have hsum := sum_map_set (fun wk => wk.phase.weight) hk { wk with phase := phase }
    have hless := hmoves.weight_lt
    have hone : (if Idle s a then 0 else 1) ≤ 1 := by split <;> decide
    rw [hworkers, hmain]
    dsimp only at hsum
    omega
  · rw [hworkers]
    omega

private theorem start_weight (call : Call) (w : Relays) :
    (call.start w).weight ≤ 4 * (call.chunks.length * call.relays.length) + 2 := by
  have hworkers : (call.workers.map (fun wk => wk.phase.weight)).sum =
      4 * (call.chunks.length * call.relays.length) := by
    have hall : ∀ n ∈ call.workers.map (fun wk => wk.phase.weight), n = 4 := by
      intro n hn
      obtain ⟨wk, hwk, rfl⟩ := List.mem_map.mp hn
      rw [(mem_call_workers.mp hwk).2.2]
      rfl
    have hlength : call.workers.length = call.chunks.length * call.relays.length := by
      simp [Call.workers, List.length_flatMap]
    rw [List.eq_replicate_iff.mpr ⟨List.length_map _, hall⟩, List.sum_replicate_nat, hlength,
      Nat.mul_comm]
  have hmain : (call.start w).main.weight ≤ 2 := by
    simp only [Call.start]
    split <;> decide
  show (call.workers.map (fun wk => wk.phase.weight)).sum + (call.start w).main.weight ≤ _
  omega

/-! ## The slots -/

/-- The slots that a worker has. -/
def Phase.slots : Phase → Nat
  | .waiting | .finished => 0
  | .holding | .sending | .accepted => 1

theorem held_eq (s : Sending) : s.held = (s.workers.map (fun wk => wk.phase.slots)).sum := by
  unfold Sending.held
  induction s.workers with
  | nil => rfl
  | cons wk rest ih =>
    rw [List.countP_cons, ih, List.map_cons, List.sum_cons, Nat.add_comm]
    cases wk.phase <;> simp [Phase.slots]

theorem Moves.slots_le {old new : Phase} (h : Moves s old new) :
    new.slots ≤ old.slots ∨ s.held < parallelism ∧ new.slots = old.slots + 1 := by
  cases h with
  | acquire hfree => exact .inr ⟨hfree, rfl⟩
  | proceed | accept => exact .inl (by decide)
  | leave => exact .inl (Nat.zero_le _)

private theorem held_step (hs : s.held ≤ parallelism) (h : call.step s a = some t) :
    t.held ≤ parallelism := by
  rcases step_moves h with ⟨k, wk, phase, hk, hmoves, hworkers, -⟩ | ⟨hworkers, -⟩
  · have hsum := sum_map_set (fun wk => wk.phase.slots) hk { wk with phase := phase }
    have hslots := hmoves.slots_le
    rw [← hworkers, ← held_eq, ← held_eq] at hsum
    dsimp only at hsum
    omega
  · rw [held_eq, hworkers, ← held_eq]
    exact hs

/-! ## The way out -/

/-- A call that has returned has left no worker behind. -/
def Ended (s : Sending) : Prop := ∀ r, s.main = .returned r → s.Done

private theorem ended_start (call : Call) (w : Relays) : Ended (call.start w) := by
  intro r hr wk hwk
  obtain ⟨hi, hrelay, -⟩ := mem_call_workers.mp hwk
  simp only [Call.start] at hr
  split at hr
  next hnothing =>
    rcases hnothing with hc | hc
    · rw [hc] at hi
      cases hi
    · rw [hc] at hrelay
      cases hrelay
  next => cases hr

theorem Ended.step (hs : Ended s) (h : call.step s a = some t) : Ended t := by
  have hstill : ∀ {k : Nat} {wk : Worker} {r : Except ParallelError Unit},
      s.workers[k]? = some wk → wk.phase ≠ .finished → s.main ≠ .returned r :=
    fun hk hp hr => hp (hs _ hr _ (List.mem_of_getElem? hk))
  cases call_step_cases h with
  | move a k wk phase hk hold hp =>
    intro r hr
    refine absurd hr (hstill hk ?_)
    rcases hold with hold | hold <;> rw [hold] <;> decide
  | send k wk chunk mode fates hk hold hc =>
    intro r hr
    exact absurd hr (hstill hk (by rw [hold]; decide))
  | mark k wk hk hold =>
    intro r hr
    exact absurd hr (hstill hk (by rw [hold]; decide))
  | duplicate => exact hs
  | control a cancelled main hmain =>
    cases hmain with
    | stay => exact hs
    | early => exact fun r hr => by cases hr
    | timedOut => exact fun r hr => by cases hr
    | judge a hm hdone => exact fun r hr => hdone
    | success a hm hdone => exact fun r hr => hdone
    | timeout a delivered total hm hdone => exact fun r hr => hdone

/-- Some worker or the main loop can go on. -/
theorem working (hs : Staffed call s) (hmain : ∀ r, s.main ≠ .returned r) :
    ∃ a t, ¬ Idle s a ∧ call.step s a = some t := by
  by_cases hdone : s.Done
  · cases hm : s.main with
    | selecting => exact ⟨.finish, _, id, by simp only [Call.step, hm, if_pos hdone]; rfl⟩
    | early => exact ⟨.drained, _, id, by simp only [Call.step, hm, if_pos hdone]; rfl⟩
    | timedOut => exact ⟨.drained, _, id, by simp only [Call.step, hm, if_pos hdone]; rfl⟩
    | returned r => exact absurd hm (hmain r)
  by_cases hfree : s.held = 0
  · -- nobody has a slot, so whoever is not finished is waiting and can have one
    obtain ⟨wk, hwk, hp⟩ : ∃ wk ∈ s.workers, wk.phase ≠ .finished := by
      simpa only [Sending.Done, not_forall, exists_prop] using hdone
    obtain ⟨k, hk⟩ := List.mem_iff_getElem?.mp hwk
    have hwaiting : wk.phase = .waiting := by
      rw [Sending.held, List.countP_eq_zero] at hfree
      have hnone := hfree wk hwk
      cases hphase : wk.phase <;> simp_all
    refine ⟨.acquire k, s.setPhase k wk .holding, id, ?_⟩
    rw [Call.step, ← hwaiting, withWorker_eq hk, if_pos (by rw [hfree]; decide)]
  · obtain ⟨wk, hwk, hp⟩ := List.countP_pos_iff.mp (Nat.pos_of_ne_zero hfree)
    obtain ⟨k, hk⟩ := List.mem_iff_getElem?.mp hwk
    rcases of_decide_eq_true hp with hp | hp | hp
    · exact ⟨.proceed k, _, id, by rw [Call.step, ← hp, withWorker_eq hk]⟩
    · obtain ⟨hi, -⟩ := hs.2 wk hwk
      have hchunk : call.chunks[wk.index]? = some call.chunks[wk.index] :=
        List.getElem?_eq_getElem hi
      exact ⟨.send k .auto [], _, id, by rw [Call.step, ← hp, withWorker_eq hk, hchunk]; rfl⟩
    · exact ⟨.mark k, _, id, by rw [Call.step, ← hp, withWorker_eq hk]⟩

/-- Whatever the network does and however its workers are scheduled, `sendParallel` never has
more than fifteen chunks under way, can always go on until it returns, does so after a bounded
number of steps, and leaves no worker behind. -/
theorem sendParallel_returns (call : Call) (w : Relays) (schedule : List Act) (s : Sending)
    (hrun : run call.step (call.start w) schedule = some s) :
    s.held ≤ parallelism ∧
      labours call.step Idle (call.start w) schedule ≤
        4 * (call.chunks.length * call.relays.length) + 2 ∧
      (∀ r, s.main = .returned r → s.Done) ∧
      ((∀ r, s.main ≠ .returned r) → ∃ a t, ¬ Idle s a ∧ call.step s a = some t) ∧
      ∃ rest t r, run call.step s rest = some t ∧ t.main = .returned r := by
  have hheld : (call.start w).held ≤ parallelism := by
    rw [held_start]
    exact Nat.zero_le _
  have hstaffed : Staffed call s :=
    run_invariant (fun _ _ _ h hs => staffed_step h hs) (staffed_start call w) hrun
  have hlabours := (step_wanes call).labours_le hrun
  have hweight := start_weight call w
  obtain ⟨rest, t, hrest, r, hr⟩ := (step_wanes call).completes
    (Staffed call) (fun s => ∃ r, s.main = .returned r)
    (fun _ _ _ h hs => staffed_step h hs) (fun _ h hm => working h (not_exists.mp hm)) hstaffed
  exact ⟨run_invariant (fun _ _ _ h hs => held_step h hs) hheld hrun, by omega,
    run_invariant (fun _ _ _ h hs => Ended.step h hs) (ended_start call w) hrun,
    fun hm => working hstaffed hm, rest, t, r, hrest, hr⟩

/-- Two chunks for one relay. -/
def twoChunkCall : Call where
  zone := lit "z.org"
  host := id
  chunks := [newChunk (putUint64 5) 0 2 [7], newChunk (putUint64 5) 1 2 [9]]
  relays := [lit "A"]

/-- The first chunk is under way and the second still waits when the context ends. -/
def cutShort : List Act :=
  [.acquire 0, .proceed 0, .tick, .cancelParent, .notice, .abandon 1]

theorem sendParallel_returns_cutShort :
    ∃ s, run twoChunkCall.step (twoChunkCall.start (fun _ => newChunkStore 60)) cutShort = some s ∧
      s.main = .timedOut ∧ s.held = 1 ∧ labours twoChunkCall.step Idle
        (twoChunkCall.start (fun _ => newChunkStore 60)) cutShort ≤ 10 ∧
      ∃ rest t r, run twoChunkCall.step s rest = some t ∧ t.main = .returned r := by
  have hstate : (run twoChunkCall.step (twoChunkCall.start (fun _ => newChunkStore 60))
      cutShort).map (fun s => (s.main, s.held)) = some (.timedOut, 1) := by decide +kernel
  obtain ⟨s, hrun, hs⟩ := Option.map_eq_some_iff.mp hstate
  obtain ⟨hmain, hheld⟩ := Prod.mk.inj hs
  obtain ⟨-, hlabours, -, -, hreturns⟩ := sendParallel_returns twoChunkCall _ cutShort s hrun
  exact ⟨s, hrun, hmain, hheld, hlabours, hreturns⟩

end VRGram.Client
