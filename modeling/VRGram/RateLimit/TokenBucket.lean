import Mathlib.Algebra.Order.Field.Rat
import Mathlib.Tactic.NormNum
import Mathlib.Tactic.Positivity
import Mathlib.Tactic.Ring
import VRGram.Lib.Metering

/-!
# Token buckets

`ratelimit.TokenBucket`. Tokens are exact rationals, times are nanoseconds. A bucket is refilled
when it is asked, with the tokens of the time since it was asked last, so a list of calls is a
list of draws on a reserve whose cap is the burst.
-/
namespace VRGram.RateLimit

open VRGram.Lib.Metering

set_option autoImplicit false

structure TokenBucket where
  rate : ℚ
  burst : Int
  tokens : ℚ
  lastCheck : Int

def newTokenBucket (rate burst now : Int) : TokenBucket := ⟨rate, burst, burst, now⟩

/-- `now.Sub(lastCheck).Seconds()`. -/
def seconds (since now : Int) : ℚ := ((now - since : Int) : ℚ) / 1000000000

/-- The tokens after the refill of a call. -/
def TokenBucket.refilled (tb : TokenBucket) (now : Int) : ℚ :=
  let tokens := tb.tokens + seconds tb.lastCheck now * tb.rate
  if tokens > tb.burst then tb.burst else tokens

def TokenBucket.allowN (tb : TokenBucket) (n now : Int) : Bool × TokenBucket :=
  let tokens := tb.refilled now
  if tokens ≥ n then (true, { tb with tokens := tokens - n, lastCheck := now })
  else (false, { tb with tokens := tokens, lastCheck := now })

def TokenBucket.allow (tb : TokenBucket) (now : Int) : Bool × TokenBucket := tb.allowN 1 now

/-- A call of `AllowN`, at the time that it reads under the lock; `Allow` is the call for one. -/
structure Call where
  n : Nat
  now : Int

/-- The bucket after a list of calls. -/
def TokenBucket.after (tb : TokenBucket) : List Call → TokenBucket
  | [] => tb
  | call :: rest => ((tb.allowN call.n call.now).2).after rest

/-- The answers of `Allow`, called at these times. -/
def TokenBucket.decisions (tb : TokenBucket) : List Int → List Bool
  | [] => []
  | now :: rest => (tb.allow now).1 :: ((tb.allow now).2).decisions rest

/-- The tokens that a list of calls is granted. -/
def TokenBucket.granted (tb : TokenBucket) : List Call → Nat
  | [] => 0
  | call :: rest =>
    (if (tb.allowN call.n call.now).1 then call.n else 0) +
      ((tb.allowN call.n call.now).2).granted rest

/-- The time of the last call, or `start` when there is none. -/
def lastTime : Int → List Call → Int
  | start, [] => start
  | _, call :: rest => lastTime call.now rest

/-- The calls come at times that do not decrease, from `start` on. -/
def InOrder (start : Int) (calls : List Call) : Prop :=
  (start :: calls.map Call.now).Pairwise (· ≤ ·)

/-! ## A call is a draw -/

/-- What flows in before a call, and what the call takes. -/
def TokenBucket.draw (tb : TokenBucket) (call : Call) : Draw ℚ :=
  ⟨seconds tb.lastCheck call.now * tb.rate,
    if (tb.allowN call.n call.now).1 then (call.n : ℚ) else 0⟩

def TokenBucket.draws (tb : TokenBucket) : List Call → List (Draw ℚ)
  | [] => []
  | call :: rest => tb.draw call :: ((tb.allowN call.n call.now).2).draws rest

theorem seconds_nonneg {since now : Int} (h : since ≤ now) : 0 ≤ seconds since now := by
  have hdiff : (0 : ℚ) ≤ ((now - since : Int) : ℚ) := by exact_mod_cast Int.sub_nonneg.mpr h
  unfold seconds
  positivity

theorem refilled_eq (tb : TokenBucket) (now : Int) :
    tb.refilled now = min (tb.burst : ℚ) (tb.tokens + seconds tb.lastCheck now * tb.rate) := by
  unfold TokenBucket.refilled
  dsimp only
  split
  next h => exact (min_eq_left (le_of_lt h)).symm
  next h => exact (min_eq_right (not_lt.mp h)).symm

theorem allowN_fst_iff (tb : TokenBucket) (n now : Int) :
    (tb.allowN n now).1 = true ↔ (n : ℚ) ≤ tb.refilled now := by
  unfold TokenBucket.allowN
  dsimp only
  split
  next h => exact iff_of_true rfl h
  next h => exact iff_of_false Bool.false_ne_true h

/-- A call leaves what its draw leaves. -/
theorem allowN_snd (tb : TokenBucket) (call : Call) :
    (tb.allowN call.n call.now).2 =
      { tb with tokens := (tb.draw call).left tb.burst tb.tokens, lastCheck := call.now } := by
  unfold TokenBucket.draw Draw.left
  dsimp only
  rw [← refilled_eq]
  unfold TokenBucket.allowN
  dsimp only
  split
  next => simp
  next => simp

/-- The bucket after a list of calls: the reserve that the draws leave, asked last at the last
call. -/
theorem after_eq (tb : TokenBucket) (calls : List Call) :
    tb.after calls =
      { tb with
        tokens := left tb.burst tb.tokens (tb.draws calls)
        lastCheck := lastTime tb.lastCheck calls } := by
  induction calls generalizing tb with
  | nil => rfl
  | cons call rest ih =>
    have hstep := allowN_snd tb call
    have hafter : tb.after (call :: rest) = ((tb.allowN call.n call.now).2).after rest := rfl
    have hdraws : tb.draws (call :: rest) =
        tb.draw call :: ((tb.allowN call.n call.now).2).draws rest := rfl
    rw [hafter, ih, hdraws, hstep]
    rfl

private theorem spent_draws (tb : TokenBucket) (calls : List Call) :
    ((tb.draws calls).map Draw.spent).sum = (tb.granted calls : ℚ) := by
  induction calls generalizing tb with
  | nil => simp [TokenBucket.draws, TokenBucket.granted]
  | cons call rest ih =>
    rw [TokenBucket.draws, List.map_cons, List.sum_cons, ih, TokenBucket.granted, Nat.cast_add]
    congr 1
    unfold TokenBucket.draw
    dsimp only
    split <;> simp

/-- What flows in between the first and the last call. -/
theorem gain_draws (tb : TokenBucket) (calls : List Call) :
    ((tb.draws calls).map Draw.gain).sum =
      tb.rate * seconds tb.lastCheck (lastTime tb.lastCheck calls) := by
  induction calls generalizing tb with
  | nil => simp [TokenBucket.draws, lastTime, seconds]
  | cons call rest ih =>
    rw [TokenBucket.draws, List.map_cons, List.sum_cons, ih, allowN_snd, lastTime]
    simp only [TokenBucket.draw, seconds]
    push_cast
    ring

/-! ## Calls in order -/

theorem inOrder_cons {start : Int} {call : Call} {rest : List Call} :
    InOrder start (call :: rest) ↔ start ≤ call.now ∧ InOrder call.now rest := by
  constructor
  · intro h
    obtain ⟨hstart, hrest⟩ := List.pairwise_cons.mp h
    exact ⟨hstart call.now List.mem_cons_self, hrest⟩
  · intro h
    obtain ⟨hstart, hrest⟩ := h
    refine List.pairwise_cons.mpr ⟨?_, hrest⟩
    intro t ht
    rcases List.mem_cons.mp ht with rfl | ht
    · exact hstart
    · exact hstart.trans ((List.pairwise_cons.mp hrest).1 t ht)

theorem inOrder_append {start : Int} {xs ys : List Call} (h : InOrder start (xs ++ ys)) :
    InOrder start xs ∧ InOrder (lastTime start xs) ys := by
  induction xs generalizing start with
  | nil => exact ⟨List.pairwise_singleton _ _, h⟩
  | cons call xs ih =>
    obtain ⟨hstart, hrest⟩ := inOrder_cons.mp h
    obtain ⟨hxs, hys⟩ := ih hrest
    exact ⟨inOrder_cons.mpr ⟨hstart, hxs⟩, hys⟩

/-- A bucket whose tokens are within the burst. -/
structure TokenBucket.Sound (tb : TokenBucket) : Prop where
  rate_nonneg : 0 ≤ tb.rate
  tokens_nonneg : 0 ≤ tb.tokens
  tokens_le : tb.tokens ≤ tb.burst

theorem sound_new (rate burst : Nat) (now : Int) : (newTokenBucket rate burst now).Sound := by
  constructor
  · show (0 : ℚ) ≤ ((rate : Int) : ℚ)
    positivity
  · show (0 : ℚ) ≤ ((burst : Int) : ℚ)
    positivity
  · exact le_refl _

/-- The refill of a call in order is not negative, and within the burst. -/
theorem refilled_nonneg {tb : TokenBucket} (h : tb.Sound) {now : Int} (hnow : tb.lastCheck ≤ now) :
    0 ≤ tb.refilled now := by
  rw [refilled_eq]
  apply le_min (h.tokens_nonneg.trans h.tokens_le)
  exact add_nonneg h.tokens_nonneg (mul_nonneg (seconds_nonneg hnow) h.rate_nonneg)

theorem draw_covered {tb : TokenBucket} (h : tb.Sound) {call : Call}
    (hnow : tb.lastCheck ≤ call.now) :
    0 ≤ (tb.draw call).gain ∧ 0 ≤ (tb.draw call).spent ∧
      0 ≤ (tb.draw call).left (tb.burst : ℚ) tb.tokens := by
  refine ⟨mul_nonneg (seconds_nonneg hnow) h.rate_nonneg, ?_, ?_⟩
  · unfold TokenBucket.draw
    dsimp only
    split
    · positivity
    · exact le_refl _
  · unfold Draw.left TokenBucket.draw
    dsimp only
    rw [← refilled_eq]
    by_cases hgrant : (tb.allowN call.n call.now).1 = true
    · rw [if_pos hgrant]
      have hn := (allowN_fst_iff tb call.n call.now).mp hgrant
      exact sub_nonneg.mpr (by exact_mod_cast hn)
    · rw [if_neg hgrant, sub_zero]
      exact refilled_nonneg h hnow

theorem sound_allowN {tb : TokenBucket} (h : tb.Sound) {call : Call}
    (hnow : tb.lastCheck ≤ call.now) : (tb.allowN call.n call.now).2.Sound := by
  obtain ⟨-, hspent, hleft⟩ := draw_covered h hnow
  rw [allowN_snd]
  exact ⟨h.rate_nonneg, hleft, Draw.left_le_cap hspent⟩

theorem draws_covered {tb : TokenBucket} (h : tb.Sound) {calls : List Call}
    (horder : InOrder tb.lastCheck calls) : Covered (tb.burst : ℚ) tb.tokens (tb.draws calls) := by
  induction calls generalizing tb with
  | nil => trivial
  | cons call rest ih =>
    obtain ⟨hnow, hrest⟩ := inOrder_cons.mp horder
    obtain ⟨hgain, hspent, hleft⟩ := draw_covered h hnow
    have hafter := ih (sound_allowN h hnow) (by rw [allowN_snd]; exact hrest)
    rw [allowN_snd] at hafter
    rw [TokenBucket.draws, allowN_snd]
    exact ⟨hgain, hspent, hleft, hafter⟩

theorem sound_after {tb : TokenBucket} (h : tb.Sound) {calls : List Call}
    (horder : InOrder tb.lastCheck calls) : (tb.after calls).Sound := by
  obtain ⟨hlow, hhigh⟩ := left_bounds (draws_covered h horder) h.tokens_nonneg h.tokens_le
  rw [after_eq]
  exact ⟨h.rate_nonneg, hlow, hhigh⟩

/-! ## The bounds -/

/-- The tokens granted in a window of calls. -/
theorem granted_le {tb : TokenBucket} (h : tb.Sound) {first : Call} {rest : List Call}
    (horder : InOrder tb.lastCheck (first :: rest)) :
    (tb.granted (first :: rest) : ℚ) ≤
      tb.burst + tb.rate * seconds first.now (lastTime first.now rest) := by
  have hwindow := window_spent_le (draws_covered h horder)
  have hgain := gain_draws (tb.allowN first.n first.now).2 rest
  rw [← spent_draws]
  refine hwindow.trans (le_of_eq ?_)
  rw [hgain, allowN_snd]

/-- A call that the time since the last one has paid for is granted. -/
theorem allowN_paid {tb : TokenBucket} (h : tb.Sound) (hrate : 0 < tb.rate) {n : Nat} {now : Int}
    (hn : (n : ℚ) ≤ tb.burst) (hpaid : (n : ℚ) / tb.rate ≤ seconds tb.lastCheck now) :
    (tb.allowN n now).1 = true := by
  have hgain : (n : ℚ) ≤ seconds tb.lastCheck now * tb.rate := (div_le_iff₀ hrate).mp hpaid
  have hcast : ((n : Int) : ℚ) = (n : ℚ) := Int.cast_natCast n
  rw [allowN_fst_iff, refilled_eq, hcast]
  exact le_min hn (hgain.trans (le_add_of_nonneg_left h.tokens_nonneg))

/-- For every rate, burst and list of calls in order of time: the tokens stay between zero and
the burst; in every window of calls the tokens granted are at most the burst and the rate times
the time from its first to its last call; and a call for at most the burst is granted when the
time since the call before it, or since the start, is worth its tokens. -/
theorem tokenBucket_bounds (rate burst : Nat) (start : Int) {calls : List Call}
    (h : InOrder start calls) :
    (∀ taken, taken <+: calls →
      0 ≤ ((newTokenBucket rate burst start).after taken).tokens ∧
        ((newTokenBucket rate burst start).after taken).tokens ≤ burst) ∧
    (∀ before first rest later, calls = before ++ (first :: rest) ++ later →
      (((newTokenBucket rate burst start).after before).granted (first :: rest) : ℚ) ≤
        burst + rate * seconds first.now (lastTime first.now rest)) ∧
    ∀ before call later, calls = before ++ call :: later → call.n ≤ burst → 0 < rate →
      (call.n : ℚ) / rate ≤ seconds (lastTime start before) call.now →
      (((newTokenBucket rate burst start).after before).allowN call.n call.now).1 = true := by
  have hsound := sound_new rate burst start
  have hburst : ((burst : Int) : ℚ) = (burst : ℚ) := Int.cast_natCast burst
  have hrateCast : ((rate : Int) : ℚ) = (rate : ℚ) := Int.cast_natCast rate
  refine ⟨?_, ?_, ?_⟩
  · intro taken htaken
    obtain ⟨later, rfl⟩ := htaken
    have hafter := sound_after hsound (inOrder_append h).1
    have hle := hafter.tokens_le
    rw [after_eq] at hle ⊢
    rw [after_eq] at hafter
    exact ⟨hafter.tokens_nonneg, hburst ▸ hle⟩
  · intro before first rest later heq
    rw [heq] at h
    obtain ⟨hfront, -⟩ := inOrder_append h
    obtain ⟨hbefore, hwindow⟩ := inOrder_append hfront
    have hafter := sound_after hsound hbefore
    have hlast : ((newTokenBucket rate burst start).after before).lastCheck =
        lastTime start before := by
      rw [after_eq]
      rfl
    have hgranted := granted_le hafter (hlast ▸ hwindow)
    have hparts : ((newTokenBucket rate burst start).after before).burst = burst ∧
        ((newTokenBucket rate burst start).after before).rate = rate := by
      rw [after_eq]
      exact ⟨rfl, hrateCast⟩
    rw [hparts.1, hparts.2, hburst] at hgranted
    exact hgranted
  · intro before call later heq hn hrate hpaid
    rw [heq] at h
    have hafter := sound_after hsound (inOrder_append h).1
    rw [after_eq] at hafter ⊢
    apply allowN_paid hafter
    · show (0 : ℚ) < ((rate : Int) : ℚ)
      rw [hrateCast]
      exact_mod_cast hrate
    · show (call.n : ℚ) ≤ ((burst : Int) : ℚ)
      rw [hburst]
      exact_mod_cast hn
    · show (call.n : ℚ) / ((rate : Int) : ℚ) ≤ seconds (lastTime start before) call.now
      rw [hrateCast]
      exact hpaid

/-- The burst at once, one call too many, and one call after a fifth of a second. -/
def burstAndWait : List Call := [⟨5, 0⟩, ⟨1, 0⟩, ⟨1, 200000000⟩]

theorem tokenBucket_bounds_burstAndWait :
    InOrder 0 burstAndWait ∧
      ((newTokenBucket 10 5 0).granted burstAndWait : ℚ) ≤ 5 + 10 * seconds 0 200000000 ∧
      (((newTokenBucket 10 5 0).after [⟨5, 0⟩, ⟨1, 0⟩]).allowN 1 200000000).1 = true := by
  have horder : InOrder 0 burstAndWait := by
    unfold InOrder burstAndWait
    decide
  obtain ⟨-, hwindow, hpaid⟩ := tokenBucket_bounds 10 5 0 horder
  refine ⟨horder, ?_, ?_⟩
  · exact_mod_cast hwindow [] ⟨5, 0⟩ [⟨1, 0⟩, ⟨1, 200000000⟩] [] rfl
  · refine hpaid [⟨5, 0⟩, ⟨1, 0⟩] ⟨1, 200000000⟩ [] rfl (by decide) (by decide) ?_
    norm_num [seconds, lastTime]

end VRGram.RateLimit
