import VRGram.Lib.Maps
import VRGram.Lib.Strings
import VRGram.RateLimit.TokenBucket

/-!
# The rate limiter of a relay

`ratelimit.IPRateLimiter` keeps one token bucket for each address, made full at the first query
of the address. The answers to an address do not depend on the queries of others, and in every
window of queries an address is answered as often as its own bucket allows.
-/
namespace VRGram.RateLimit

open VRGram.Lib.Maps VRGram.Lib.Strings

set_option autoImplicit false

structure IPRateLimiter where
  limit : Int
  burst : Int
  buckets : GoMap Bytes TokenBucket

def newIPRateLimiter (limit burst : Int) : IPRateLimiter := ⟨limit, burst, ∅⟩

/-- A query for an address. The clock is read twice: for a bucket that is made, and by the
bucket. -/
structure Query where
  ip : Bytes
  created : Int
  now : Int

def IPRateLimiter.bucketFor (rl : IPRateLimiter) (q : Query) : TokenBucket :=
  match rl.buckets.lookup q.ip with
  | some tb => tb
  | none => newTokenBucket rl.limit rl.burst q.created

def IPRateLimiter.allow (rl : IPRateLimiter) (q : Query) : Bool × IPRateLimiter :=
  let answer := (rl.bucketFor q).allow q.now
  (answer.1, { rl with buckets := rl.buckets.insert q.ip answer.2 })

def IPRateLimiter.after (rl : IPRateLimiter) : List Query → IPRateLimiter
  | [] => rl
  | q :: rest => ((rl.allow q).2).after rest

/-- The answers to the queries of one address. -/
def IPRateLimiter.answersTo (rl : IPRateLimiter) (ip : Bytes) : List Query → List Bool
  | [] => []
  | q :: rest =>
    if q.ip = ip then (rl.allow q).1 :: ((rl.allow q).2).answersTo ip rest
    else ((rl.allow q).2).answersTo ip rest

/-- The calls that the bucket of an address gets. -/
def callsOf (ip : Bytes) : List Query → List Call
  | [] => []
  | q :: rest => if q.ip = ip then ⟨1, q.now⟩ :: callsOf ip rest else callsOf ip rest

/-- The clock does not go back, from `start` on. -/
def QueriesInOrder : Int → List Query → Prop
  | _, [] => True
  | start, q :: rest => start ≤ q.created ∧ q.created ≤ q.now ∧ QueriesInOrder q.now rest

/-! ## Addresses apart -/

theorem lookup_allow (rl : IPRateLimiter) (q : Query) (ip : Bytes) :
    (rl.allow q).2.buckets.lookup ip =
      if ip = q.ip then some ((rl.bucketFor q).allow q.now).2 else rl.buckets.lookup ip :=
  lookup_insert_ite _ _ _ _

private theorem bucketFor_congr {rl rl' : IPRateLimiter} (hlimit : rl.limit = rl'.limit)
    (hburst : rl.burst = rl'.burst) {q : Query}
    (h : rl.buckets.lookup q.ip = rl'.buckets.lookup q.ip) : rl.bucketFor q = rl'.bucketFor q := by
  rw [IPRateLimiter.bucketFor, IPRateLimiter.bucketFor, hlimit, hburst, h]

/-- An address is answered as if it were alone. -/
theorem answersTo_alone {rl rl' : IPRateLimiter} (hlimit : rl.limit = rl'.limit)
    (hburst : rl.burst = rl'.burst) {ip : Bytes}
    (h : rl.buckets.lookup ip = rl'.buckets.lookup ip) (queries : List Query) :
    rl.answersTo ip queries = rl'.answersTo ip (queries.filter (fun q => q.ip = ip)) := by
  induction queries generalizing rl rl' with
  | nil => rfl
  | cons q rest ih =>
    by_cases hip : q.ip = ip
    · have hbucket := bucketFor_congr (q := q) hlimit hburst (by rw [hip]; exact h)
      have hnext : (rl.allow q).2.buckets.lookup ip = (rl'.allow q).2.buckets.lookup ip := by
        rw [lookup_allow, lookup_allow, if_pos hip.symm, if_pos hip.symm, hbucket]
      have hanswer : (rl.allow q).1 = (rl'.allow q).1 := by
        rw [IPRateLimiter.allow, IPRateLimiter.allow, hbucket]
      have htail := @ih (rl.allow q).2 (rl'.allow q).2 hlimit hburst hnext
      rw [List.filter_cons_of_pos (by simpa using hip), IPRateLimiter.answersTo,
        IPRateLimiter.answersTo, if_pos hip, if_pos hip, hanswer, htail]
    · have hnext : (rl.allow q).2.buckets.lookup ip = rl'.buckets.lookup ip := by
        rw [lookup_allow, if_neg (Ne.symm hip), h]
      rw [List.filter_cons_of_neg (by simpa using hip), IPRateLimiter.answersTo, if_neg hip]
      exact ih hlimit hburst hnext

/-! ## An address and its bucket -/

/-- Once an address has a bucket, it is answered by that bucket. -/
theorem answersTo_known {rl : IPRateLimiter} {ip : Bytes} {tb : TokenBucket}
    (h : rl.buckets.lookup ip = some tb) (queries : List Query) :
    rl.answersTo ip queries =
      tb.decisions ((queries.filter (fun q => q.ip = ip)).map Query.now) := by
  induction queries generalizing rl tb with
  | nil => rfl
  | cons q rest ih =>
    by_cases hip : q.ip = ip
    · have hbucket : rl.bucketFor q = tb := by rw [IPRateLimiter.bucketFor, hip, h]
      have hnext : (rl.allow q).2.buckets.lookup ip = some (tb.allow q.now).2 := by
        rw [lookup_allow, if_pos hip.symm, hbucket]
      have hanswer : (rl.allow q).1 = (tb.allow q.now).1 := by
        rw [IPRateLimiter.allow, hbucket]
      rw [IPRateLimiter.answersTo, if_pos hip, List.filter_cons_of_pos (by simpa using hip),
        List.map_cons, TokenBucket.decisions, hanswer, ih hnext]
    · have hnext : (rl.allow q).2.buckets.lookup ip = some tb := by
        rw [lookup_allow, if_neg (Ne.symm hip), h]
      rw [IPRateLimiter.answersTo, if_neg hip, List.filter_cons_of_neg (by simpa using hip),
        ih hnext]

/-- The decisions of a bucket that is made at the first of these queries and gets no others. -/
def freshDecisions (limit burst : Int) : List Query → List Bool
  | [] => []
  | first :: rest =>
    (newTokenBucket limit burst first.created).decisions ((first :: rest).map Query.now)

theorem answersTo_new (limit burst : Int) (ip : Bytes) (queries : List Query) :
    (newIPRateLimiter limit burst).answersTo ip queries =
      freshDecisions limit burst (queries.filter (fun q => q.ip = ip)) := by
  rw [@answersTo_alone _ (newIPRateLimiter limit burst) rfl rfl ip rfl queries]
  cases hown : queries.filter (fun q => q.ip = ip) with
  | nil => rfl
  | cons first rest =>
    have howner : ∀ q ∈ first :: rest, q.ip = ip := by
      intro q hq
      rw [← hown] at hq
      simpa using (List.mem_filter.mp hq).2
    have hfirst : first.ip = ip := howner first List.mem_cons_self
    have hrest : rest.filter (fun q => q.ip = ip) = rest := by
      apply List.filter_eq_self.mpr
      intro q hq
      simpa using howner q (List.mem_cons_of_mem _ hq)
    -- the bucket is made full at the first query and kept under the address
    have hlookup : ((newIPRateLimiter limit burst).allow first).2.buckets.lookup ip =
        some ((newTokenBucket limit burst first.created).allow first.now).2 := by
      rw [lookup_allow, if_pos hfirst.symm]
      rfl
    have htail := answersTo_known hlookup rest
    rw [IPRateLimiter.answersTo, if_pos hfirst, htail, hrest]
    rfl

theorem answersTo_append (rl : IPRateLimiter) (ip : Bytes) (before later : List Query) :
    rl.answersTo ip (before ++ later) =
      rl.answersTo ip before ++ (rl.after before).answersTo ip later := by
  induction before generalizing rl with
  | nil => rfl
  | cons q rest ih =>
    rw [List.cons_append, IPRateLimiter.answersTo, IPRateLimiter.answersTo, IPRateLimiter.after]
    split
    next => rw [ih, List.cons_append]
    next => exact ih (rl.allow q).2

theorem answersTo_one (rl : IPRateLimiter) (q : Query) :
    rl.answersTo q.ip [q] = [(rl.allow q).1] := by
  rw [IPRateLimiter.answersTo, if_pos rfl]
  rfl

/-- The decisions for an address are those of its own bucket, made at its first query and asked by
it alone. So a query is answered the same whatever the other addresses asked before. -/
theorem allow_isolated (limit burst : Int) (ip : Bytes) :
    (∀ queries : List Query, (newIPRateLimiter limit burst).answersTo ip queries =
      freshDecisions limit burst (queries.filter (fun q => q.ip = ip))) ∧
    ∀ (before before' : List Query) (q : Query), q.ip = ip →
      before.filter (fun q => q.ip = ip) = before'.filter (fun q => q.ip = ip) →
      (((newIPRateLimiter limit burst).after before).allow q).1 =
        (((newIPRateLimiter limit burst).after before').allow q).1 := by
  refine ⟨answersTo_new limit burst ip, ?_⟩
  intro before before' q hip hsame
  have hall : (newIPRateLimiter limit burst).answersTo ip (before ++ [q]) =
      (newIPRateLimiter limit burst).answersTo ip (before' ++ [q]) := by
    rw [answersTo_new, answersTo_new, List.filter_append, List.filter_append, hsame]
  have hbefore : (newIPRateLimiter limit burst).answersTo ip before =
      (newIPRateLimiter limit burst).answersTo ip before' := by
    rw [answersTo_new, answersTo_new, hsame]
  rw [answersTo_append, answersTo_append, hbefore] at hall
  have hlast := List.append_cancel_left hall
  rw [← hip, answersTo_one, answersTo_one] at hlast
  exact (List.cons.inj hlast).1

/-- An address that used up its own bucket changes nothing for another. -/
theorem allow_isolated_two :
    (((newIPRateLimiter 1 1).after [⟨[1], 0, 0⟩, ⟨[1], 0, 0⟩]).allow ⟨[2], 0, 0⟩).1 =
      (((newIPRateLimiter 1 1).after []).allow ⟨[2], 0, 0⟩).1 :=
  (allow_isolated 1 1 [2]).2 [⟨[1], 0, 0⟩, ⟨[1], 0, 0⟩] [] ⟨[2], 0, 0⟩ rfl rfl

/-! ## The queries of a window -/

theorem callsOf_eq (ip : Bytes) (queries : List Query) :
    callsOf ip queries =
      ((queries.filter (fun q => q.ip = ip)).map Query.now).map (fun now => ⟨1, now⟩) := by
  induction queries with
  | nil => rfl
  | cons q rest ih =>
    by_cases hip : q.ip = ip
    · rw [callsOf, if_pos hip, List.filter_cons_of_pos (by simpa using hip), ih]
      rfl
    · rw [callsOf, if_neg hip, List.filter_cons_of_neg (by simpa using hip), ih]

private theorem count_decisions (tb : TokenBucket) (times : List Int) :
    (tb.decisions times).count true = tb.granted (times.map (fun now => ⟨1, now⟩)) := by
  induction times generalizing tb with
  | nil => rfl
  | cons now rest ih =>
    rw [TokenBucket.decisions, List.count_cons, ih, List.map_cons, Nat.add_comm, beq_true]
    rfl

/-- A bucket that an address has grants what the address is allowed. -/
theorem count_answersTo {rl : IPRateLimiter} {ip : Bytes} {tb : TokenBucket}
    (h : rl.buckets.lookup ip = some tb) (queries : List Query) :
    (rl.answersTo ip queries).count true = tb.granted (callsOf ip queries) := by
  rw [answersTo_known h, count_decisions, callsOf_eq]

/-- The buckets are sound, have the limiter's parameters and were asked last before `time`. -/
structure IPRateLimiter.Sound (rl : IPRateLimiter) (time : Int) : Prop where
  limit_nonneg : 0 ≤ rl.limit
  burst_nonneg : 0 ≤ rl.burst
  bucket : ∀ ip tb, rl.buckets.lookup ip = some tb →
    tb.Sound ∧ tb.rate = rl.limit ∧ tb.burst = rl.burst ∧ tb.lastCheck ≤ time

theorem IPRateLimiter.Sound.bucketFor {rl : IPRateLimiter} {time : Int} (h : rl.Sound time)
    {q : Query} (hcreated : time ≤ q.created) :
    (rl.bucketFor q).Sound ∧ (rl.bucketFor q).rate = rl.limit ∧
      (rl.bucketFor q).burst = rl.burst ∧ (rl.bucketFor q).lastCheck ≤ q.created := by
  unfold IPRateLimiter.bucketFor
  split
  next tb hlookup =>
    obtain ⟨hsound, hrate, hburst, hlast⟩ := h.bucket q.ip tb hlookup
    exact ⟨hsound, hrate, hburst, hlast.trans hcreated⟩
  next =>
    obtain ⟨limit, hlimit⟩ := Int.eq_ofNat_of_zero_le h.limit_nonneg
    obtain ⟨burst, hburst⟩ := Int.eq_ofNat_of_zero_le h.burst_nonneg
    refine ⟨?_, rfl, rfl, le_refl _⟩
    rw [hlimit, hburst]
    exact sound_new limit burst q.created

private theorem sound_allow {rl : IPRateLimiter} {time : Int} (h : rl.Sound time) {q : Query}
    (hcreated : time ≤ q.created) (hnow : q.created ≤ q.now) : (rl.allow q).2.Sound q.now := by
  refine ⟨h.limit_nonneg, h.burst_nonneg, ?_⟩
  intro ip tb hlookup
  rw [lookup_allow] at hlookup
  split at hlookup
  next =>
    obtain ⟨hsound, hrate, hburst, hlast⟩ := h.bucketFor hcreated
    obtain rfl := Option.some.inj hlookup
    have hafter := @sound_allowN _ hsound ⟨1, q.now⟩ (hlast.trans hnow)
    have hallowed := allowN_snd (rl.bucketFor q) ⟨1, q.now⟩
    have hparts : ((rl.bucketFor q).allow q.now).2.rate = (rl.bucketFor q).rate ∧
        ((rl.bucketFor q).allow q.now).2.burst = (rl.bucketFor q).burst ∧
        ((rl.bucketFor q).allow q.now).2.lastCheck = q.now := by
      rw [show (rl.bucketFor q).allow q.now = (rl.bucketFor q).allowN (1 : Nat) q.now from rfl,
        hallowed]
      exact ⟨rfl, rfl, rfl⟩
    exact ⟨hafter, hparts.1.trans hrate, hparts.2.1.trans hburst, le_of_eq hparts.2.2⟩
  next =>
    obtain ⟨hsound, hrate, hburst, hlast⟩ := h.bucket ip tb hlookup
    exact ⟨hsound, hrate, hburst, hlast.trans (hcreated.trans hnow)⟩

private theorem inOrder_callsOf {start asked : Int} (hasked : asked ≤ start) {queries : List Query}
    (h : QueriesInOrder start queries) (ip : Bytes) : InOrder asked (callsOf ip queries) := by
  induction queries generalizing start asked with
  | nil => exact List.pairwise_singleton _ _
  | cons q rest ih =>
    obtain ⟨hcreated, hnow, hrest⟩ := h
    have hle : asked ≤ q.now := hasked.trans (hcreated.trans hnow)
    rw [callsOf]
    split
    next => exact inOrder_cons.mpr ⟨hle, ih (le_refl _) hrest⟩
    next => exact ih hle hrest

/-- Some sound bucket, which has not been asked since the queries began, answers them. -/
theorem answersTo_bucket {rl : IPRateLimiter} {start : Int} (h : rl.Sound start) {ip : Bytes}
    {queries : List Query} (horder : QueriesInOrder start queries) (hsome : callsOf ip queries ≠ []) :
    ∃ tb : TokenBucket, tb.Sound ∧ tb.rate = rl.limit ∧ tb.burst = rl.burst ∧
      InOrder tb.lastCheck (callsOf ip queries) ∧
      (rl.answersTo ip queries).count true = tb.granted (callsOf ip queries) := by
  induction queries generalizing rl start with
  | nil => exact absurd rfl hsome
  | cons q rest ih =>
    obtain ⟨hcreated, hnow, hrest⟩ := horder
    by_cases hip : q.ip = ip
    · obtain ⟨hsound, hrate, hburst, hlast⟩ := h.bucketFor hcreated
      have hnext : (rl.allow q).2.buckets.lookup ip = some ((rl.bucketFor q).allow q.now).2 := by
        rw [lookup_allow, if_pos hip.symm]
      refine ⟨rl.bucketFor q, hsound, hrate, hburst, ?_, ?_⟩
      · have hquery : QueriesInOrder q.created (q :: rest) := ⟨le_refl _, hnow, hrest⟩
        exact inOrder_callsOf hlast hquery ip
      · rw [callsOf, if_pos hip, IPRateLimiter.answersTo, if_pos hip, List.count_cons,
          count_answersTo hnext rest, Nat.add_comm, beq_true]
        rfl
    · rw [callsOf, if_neg hip] at hsome ⊢
      rw [IPRateLimiter.answersTo, if_neg hip]
      exact ih (sound_allow h hcreated hnow) hrest hsome

end VRGram.RateLimit
