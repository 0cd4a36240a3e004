import VRGram.RateLimit.IPRateLimiter

/-!
# What an address is allowed in a stretch of time

A limiter is followed from some moment on, query by query and whoever asks. However many queries
of one address are counted that were allowed, they are no more than the burst and what the time
since then is worth.
-/
namespace VRGram.RateLimit

open VRGram.Lib.Maps VRGram.Lib.Strings

set_option autoImplicit false

variable {rl₀ rl : IPRateLimiter} {since clock : Int} {ip : Bytes} {used : Nat}

/-- From `since` to `clock` the limiter answered queries in order of time, and at least `used` of
the address were allowed. -/
def Metered (rl₀ : IPRateLimiter) (since : Int) (ip : Bytes) (rl : IPRateLimiter) (clock : Int)
    (used : Nat) : Prop :=
  ∃ log, rl = rl₀.after log ∧ QueriesInOrder since log ∧ since ≤ clock ∧
    (∀ q ∈ log, q.now ≤ clock) ∧ used ≤ (rl₀.answersTo ip log).count true

private theorem after_append (rl : IPRateLimiter) (before later : List Query) :
    rl.after (before ++ later) = (rl.after before).after later := by
  induction before generalizing rl with
  | nil => rfl
  | cons q before ih => exact ih (rl.allow q).2

private theorem queriesInOrder_concat {log : List Query} (h : QueriesInOrder since log)
    (hsince : since ≤ clock) (hlog : ∀ q ∈ log, q.now ≤ clock) {q : Query}
    (hcreated : clock ≤ q.created) (hnow : q.created ≤ q.now) :
    QueriesInOrder since (log ++ [q]) := by
  induction log generalizing since with
  | nil => exact ⟨hsince.trans hcreated, hnow, trivial⟩
  | cons first log ih =>
    obtain ⟨hfirst, hread, hrest⟩ := h
    have hbefore := hlog first List.mem_cons_self
    exact ⟨hfirst, hread, ih hrest hbefore (fun q hq => hlog q (List.mem_cons_of_mem _ hq))⟩

theorem metered_start (rl : IPRateLimiter) (since : Int) (ip : Bytes) :
    Metered rl since ip rl since 0 :=
  ⟨[], rfl, trivial, le_refl _, fun _ hq => absurd hq List.not_mem_nil, Nat.zero_le _⟩

/-- A query counts where it is one of the address and is allowed. -/
theorem Metered.query (h : Metered rl₀ since ip rl clock used) {q : Query}
    (hcreated : clock ≤ q.created) (hnow : q.created ≤ q.now) :
    Metered rl₀ since ip (rl.allow q).2 q.now
      (used + if q.ip = ip ∧ (rl.allow q).1 = true then 1 else 0) := by
  obtain ⟨log, rfl, horder, hsince, hlog, hused⟩ := h
  refine ⟨log ++ [q], ?_, queriesInOrder_concat horder hsince hlog hcreated hnow,
    hsince.trans (hcreated.trans hnow), ?_, ?_⟩
  · rw [after_append]
    rfl
  · intro q' hq'
    rcases List.mem_append.mp hq' with hmem | hmem
    · exact (hlog q' hmem).trans (hcreated.trans hnow)
    · rw [List.mem_singleton.mp hmem]
  · rw [answersTo_append, List.count_append]
    have hone : (if q.ip = ip ∧ ((rl₀.after log).allow q).1 = true then 1 else 0) ≤
        ((rl₀.after log).answersTo ip [q]).count true := by
      split
      next hboth =>
        obtain ⟨rfl, hallowed⟩ := hboth
        rw [answersTo_one, hallowed]
        exact Nat.le_refl 1
      next => exact Nat.zero_le _
    omega

/-- A query that does not count. -/
theorem Metered.other (h : Metered rl₀ since ip rl clock used) {q : Query}
    (hcreated : clock ≤ q.created) (hnow : q.created ≤ q.now) :
    Metered rl₀ since ip (rl.allow q).2 q.now used := by
  obtain ⟨log, hafter, horder, hsince, hlog, hused⟩ := h.query hcreated hnow
  exact ⟨log, hafter, horder, hsince, hlog, (Nat.le_add_right _ _).trans hused⟩

private theorem lastTime_le {calls : List Call} {time : Int} (htime : time ≤ clock)
    (h : ∀ call ∈ calls, call.now ≤ clock) : lastTime time calls ≤ clock := by
  induction calls generalizing time with
  | nil => exact htime
  | cons call calls ih =>
    exact ih (h call List.mem_cons_self) (fun c hc => h c (List.mem_cons_of_mem _ hc))

private theorem mem_callsOf {log : List Query} {call : Call} (h : call ∈ callsOf ip log) :
    ∃ q ∈ log, q.now = call.now := by
  rw [callsOf_eq, List.map_map] at h
  obtain ⟨q, hq, rfl⟩ := List.mem_map.mp h
  exact ⟨q, (List.mem_filter.mp hq).1, rfl⟩

private theorem since_le_of_mem {log : List Query} (h : QueriesInOrder since log) {q : Query}
    (hq : q ∈ log) : since ≤ q.now := by
  induction log generalizing since with
  | nil => cases hq
  | cons first log ih =>
    obtain ⟨hfirst, hread, hrest⟩ := h
    rcases List.mem_cons.mp hq with rfl | hmem
    · exact hfirst.trans hread
    · exact (hfirst.trans hread).trans (ih hrest hmem)

private theorem answersTo_length (rl : IPRateLimiter) (ip : Bytes) (log : List Query) :
    (rl.answersTo ip log).length = (callsOf ip log).length := by
  induction log generalizing rl with
  | nil => rfl
  | cons q log ih =>
    rw [IPRateLimiter.answersTo, callsOf]
    split
    next => rw [List.length_cons, List.length_cons, ih]
    next => exact ih (rl.allow q).2

private theorem seconds_mono {a b c d : Int} (hab : a ≤ b) (hcd : c ≤ d) :
    seconds b c ≤ seconds a d := by
  have hle : c - b ≤ d - a := by omega
  unfold seconds
  apply div_le_div_of_nonneg_right _ (by norm_num)
  exact_mod_cast hle

/-- The queries that were allowed are paid for by the burst and by the time that has passed. -/
theorem Metered.bound (h : Metered rl₀ since ip rl clock used) (hsound : rl₀.Sound since) :
    (used : ℚ) ≤ rl₀.burst + rl₀.limit * seconds since clock := by
  obtain ⟨log, -, horder, hsince, hlog, hused⟩ := h
  have hlimit : (0 : ℚ) ≤ rl₀.limit := by exact_mod_cast hsound.limit_nonneg
  have hburst : (0 : ℚ) ≤ rl₀.burst := by exact_mod_cast hsound.burst_nonneg
  have hcount : (used : ℚ) ≤ ((rl₀.answersTo ip log).count true : ℕ) := by exact_mod_cast hused
  refine hcount.trans ?_
  cases hcalls : callsOf ip log with
  | nil =>
    have hnone : (rl₀.answersTo ip log).count true = 0 := by
      have hlen := answersTo_length rl₀ ip log
      rw [hcalls, List.length_nil] at hlen
      rw [List.eq_nil_of_length_eq_zero hlen, List.count_nil]
    rw [hnone, Nat.cast_zero]
    exact add_nonneg hburst (mul_nonneg hlimit (seconds_nonneg hsince))
  | cons first rest =>
    obtain ⟨tb, htb, hrate, hcap, hinOrder, hgranted⟩ := answersTo_bucket hsound horder
      (by rw [hcalls]; exact List.cons_ne_nil _ _)
    rw [hcalls] at hinOrder hgranted
    have htimes : ∀ call ∈ first :: rest, since ≤ call.now ∧ call.now ≤ clock := by
      intro call hcall
      rw [← hcalls] at hcall
      obtain ⟨q, hq, hnow⟩ := mem_callsOf hcall
      rw [← hnow]
      exact ⟨since_le_of_mem horder hq, hlog q hq⟩
    have hlast := lastTime_le (htimes first List.mem_cons_self).2
      (fun call hcall => (htimes call (List.mem_cons_of_mem _ hcall)).2)
    have hspan := seconds_mono (htimes first List.mem_cons_self).1 hlast
    rw [hgranted]
    calc (tb.granted (first :: rest) : ℚ)
        ≤ tb.burst + tb.rate * seconds first.now (lastTime first.now rest) :=
          granted_le htb hinOrder
      _ = rl₀.burst + rl₀.limit * seconds first.now (lastTime first.now rest) := by
          rw [hrate, hcap]
      _ ≤ rl₀.burst + rl₀.limit * seconds since clock := by
          gcongr

end VRGram.RateLimit
