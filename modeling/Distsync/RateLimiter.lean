import Distsync.RateLimit.Retry
import Distsync.RWMutex

/-!
# Distsync.RateLimiter

The client side of the rate limiters (`ratelimiter.go`): which limiters
`Client.RateLimiter` makes, which requests `Allow` sends, and the loop of
`Acquire`, which sleeps for as long as it is told.

A limiter that was made has a refill period within the range of a
`time.Duration`.  That is the most a rejected caller is told to wait, so the
time never overflows, and is never the nonsense that `Acquire` guards against
(`RateLimiter.wait_exact`).  A caller that nobody competes with is admitted when
it has slept once, or, by a sliding window, once for each unit in the log at
most (`RateLimiter.acquire_alone`).  `Reset` deletes one key, which for a fixed
window is not all of them, and yet gives back the whole budget
(`RateLimiter.reset_restores`).
-/

namespace Distsync

open Redis Trans

/-! ## Making a limiter -/

/-- A `float64`.  Arithmetic on finite ones is exact here. -/
inductive GoFloat where
  | finite (q : ℚ)
  | nan
  | inf (negative : Bool)
deriving DecidableEq

inductive Algorithm where
  | tokenBucket
  | fixedWindow
  | slidingWindow
  | leakyBucket
deriving DecidableEq

/-- `Rate`. -/
structure Rate where
  perSecond : GoFloat
  capacity : GoFloat

/-- `math.MaxInt64/int64(time.Millisecond)`. -/
def maxPeriodMs : Int := 9223372036854

/-- `rl.window().Milliseconds()`, which the source computes from capacity and rate
with the rounding of a `float64`. -/
structure WindowMs where
  ms : Int
  one_le : 1 ≤ ms
  le_max : ms ≤ maxPeriodMs

/-- A `RateLimiter`, by its algorithm, with what the constructor has checked. -/
inductive RateLimiter where
  | tokenBucket (b : BucketLimit) (h : b.capacity / b.rate * 1000 ≤ maxPeriodMs)
  | fixedWindow (f : FixedLimit) (h : f.windowMs ≤ maxPeriodMs)
  | slidingWindow (w : WindowLimit) (h : w.windowMs ≤ maxPeriodMs)
  | leakyBucket (b : BucketLimit) (h : b.capacity / b.rate * 1000 ≤ maxPeriodMs)

/-- How `Client.RateLimiter` panics. -/
inductive LimiterPanic where
  | notPositive
  | period
  | windowed
deriving DecidableEq

/-- `Client.RateLimiter` for the key `key`; of the options the last one counts.
The checks are made in exact arithmetic. -/
def Client.rateLimiter (key : List UInt8) (rate : Rate) (window : WindowMs)
    (opts : List Algorithm) : Except LimiterPanic RateLimiter :=
  match rate.perSecond, rate.capacity with
  | .finite r, .finite c =>
      if hpos : 0 < r ∧ 0 < c then
        if hperiod : c / r * 1000 ≤ maxPeriodMs then
          let windowed (make : 1 ≤ c ∧ c ≤ 2 ^ 53 - 1 → RateLimiter) :=
            if h : 1 ≤ c / r * 1000 ∧ 1 ≤ c ∧ c ≤ 2 ^ 53 - 1 then .ok (make h.2)
            else .error .windowed
          match opts.getLastD .tokenBucket with
          | .tokenBucket => .ok (.tokenBucket ⟨c, r, hpos.2, hpos.1⟩ hperiod)
          | .leakyBucket => .ok (.leakyBucket ⟨c, r, hpos.2, hpos.1⟩ hperiod)
          | .fixedWindow => windowed fun h =>
              .fixedWindow ⟨key, c, window.ms, h.1, h.2, window.one_le⟩ window.le_max
          | .slidingWindow => windowed fun h =>
              .slidingWindow ⟨c, window.ms, h.1, window.one_le⟩ window.le_max
        else .error .period
      else .error .notPositive
  | _, _ => .error .notPositive

/-! ## Requests -/

/-- The errors of `Allow`. -/
inductive AllowErr where
  /-- The count is negative or not finite. -/
  | count
  /-- It exceeds the capacity. -/
  | exceeds
  /-- Of the script, or on the way. -/
  | script
deriving DecidableEq

/-- The checks of `Allow`.  Zero is admitted with nothing sent; any other count
is rounded, and compared with the capacity, by `accept`. -/
def checkCount (accept : (q : ℚ) → 0 < q → Option α) : GoFloat → Except AllowErr (Option α)
  | .finite q =>
      if q = 0 then .ok none
      else if h : 0 < q then
        match accept q h with
        | some a => .ok (some a)
        | none => .error .exceeds
      else .error .count
  | .nan | .inf _ => .error .count

/-- Whether the answer of a script comes back. -/
inductive Answer where
  | back
  /-- It does not, and the script was executed or not. -/
  | lost (executed : Bool)
deriving DecidableEq

/-- A call of `Allow`: the client's time in nanoseconds, the server's when the
script is executed, and the token that names the units in a sliding window. -/
structure AllowCall where
  clock : Int
  time : Int
  memberPrefix : String
  answer : Answer

def AllowCall.now (a : AllowCall) : Int := unixMilli a.clock

theorem one_le_ceil {q : ℚ} (h : 0 < q) : 1 ≤ ⌈q⌉.toNat := by
  have hpos := Int.ceil_pos.mpr h
  omega

namespace RateLimiter

/-- The counts that a limiter sends. -/
def Count : RateLimiter → Type
  | tokenBucket b _ | leakyBucket b _ => { q : ℚ // 0 < q ∧ q ≤ b.capacity }
  | fixedWindow f _ => { k : Nat // 1 ≤ k ∧ (k : ℚ) ≤ f.capacity }
  | slidingWindow w _ => { k : Nat // 1 ≤ k ∧ (k : ℚ) ≤ w.limit }

instance : (rl : RateLimiter) → DecidableEq rl.Count
  | tokenBucket _ _ | leakyBucket _ _ | fixedWindow _ _ | slidingWindow _ _ =>
      inferInstanceAs (DecidableEq (Subtype _))

/-- The keys of a limiter. -/
def Store : RateLimiter → Type
  | tokenBucket _ _ => Slot TokenBucket
  | fixedWindow _ _ => FixedLimit.Counters
  | slidingWindow _ _ => Slot WindowLog
  | leakyBucket _ _ => Slot LeakyBucket

/-- No key exists. -/
def empty : (rl : RateLimiter) → rl.Store
  | tokenBucket _ _ | slidingWindow _ _ | leakyBucket _ _ => .absent
  | fixedWindow _ _ => FixedLimit.noCounters

/-- Executed calls of its script. -/
def Sent : RateLimiter → Type
  | tokenBucket b _ | leakyBucket b _ => BucketCall b
  | fixedWindow f _ => FixedCall f
  | slidingWindow w _ => WindowCall w

/-- The timestamp of a call. -/
def sentNow : (rl : RateLimiter) → rl.Sent → Int
  | tokenBucket _ _ | leakyBucket _ _ => BucketCall.now
  | fixedWindow _ _ => FixedCall.now
  | slidingWindow _ _ => WindowCall.now

/-- The script of a limiter on its keys. -/
def script : (rl : RateLimiter) → Machine rl.Store rl.Sent (Option LimitReply)
  | tokenBucket b _ => fun c k => ((b.token c k).1, some (b.token c k).2)
  | fixedWindow f _ => f.fixed
  | slidingWindow w _ => fun c k => ((w.sliding c k).1, some (w.sliding c k).2)
  | leakyBucket b _ => fun c k => ((b.leaky c k).1, some (b.leaky c k).2)

def check : (rl : RateLimiter) → GoFloat → Except AllowErr (Option rl.Count)
  | tokenBucket b _ | leakyBucket b _ => checkCount fun q h =>
      if hle : q ≤ b.capacity then some ⟨q, h, hle⟩ else none
  | fixedWindow f _ => checkCount fun q h =>
      if hle : (⌈q⌉.toNat : ℚ) ≤ f.capacity then some ⟨⌈q⌉.toNat, one_le_ceil h, hle⟩ else none
  | slidingWindow w _ => checkCount fun q h =>
      if hle : (⌈q⌉.toNat : ℚ) ≤ w.limit then some ⟨⌈q⌉.toNat, one_le_ceil h, hle⟩ else none

/-- What `Allow` sends. -/
def send : (rl : RateLimiter) → AllowCall → rl.Count → rl.Sent
  | tokenBucket _ _, a, q | leakyBucket _ _, a, q => ⟨a.time, a.now, q.1, q.2.1, q.2.2⟩
  | fixedWindow _ _, a, k => ⟨a.time, a.now, k.1, k.2.1, k.2.2⟩
  | slidingWindow _ _, a, k => ⟨a.time, a.now, k.1, a.memberPrefix, k.2.1, k.2.2⟩

/-- `time.Duration(ms) * time.Millisecond`, which wraps around. -/
def duration (ms : Int) : Int := (ms * 1000000).bmod (2 ^ 64)

/-- `Allow`: whether the request is admitted, and how long to wait. -/
def allow (rl : RateLimiter) (a : AllowCall) (n : GoFloat) (s : rl.Store) :
    rl.Store × Except AllowErr (Bool × Int) :=
  match rl.check n with
  | .error e => (s, .error e)
  | .ok none => (s, .ok (true, 0))
  | .ok (some q) =>
      let r := rl.script (rl.send a q) s
      match a.answer, r.2 with
      | .lost false, _ => (s, .error .script)
      | .lost true, _ | .back, none => (r.1, .error .script)
      | .back, some reply => (r.1, .ok (reply.allowed, duration reply.retryAfterMs))

/-! ## The loop of `Acquire` -/

/-- How `Acquire` ends. -/
inductive AcquireEnd where
  | ok
  | err (e : AllowErr)
  /-- The error of the context. -/
  | context
deriving DecidableEq

/-- What happens in one iteration: the calls of others before it, its own, and
what it finds if it is rejected. -/
structure Poll (rl : RateLimiter) where
  others : List rl.Sent
  call : AllowCall
  pause : Pause

/-- How long `Acquire` sleeps. -/
def sleep (retryAfter : Int) : Int := if retryAfter ≤ 0 then 10000000 else retryAfter

/-- `Acquire`, with the answers it gets. -/
def acquire (rl : RateLimiter) (n : GoFloat) :
    List (Poll rl) → rl.Store → rl.Store × List (Bool × Int) × Option AcquireEnd
  | [], s => (s, [], none)
  | p :: ps, s =>
      match rl.allow p.call n (rl.script.final p.others s) with
      | (s, .error e) => (s, [], some (.err e))
      | (s, .ok (true, retryAfter)) => (s, [(true, retryAfter)], some .ok)
      | (s, .ok (false, retryAfter)) =>
          match p.pause with
          | .err | .done => (s, [(false, retryAfter)], some .context)
          | .elapsed =>
              let x := acquire rl n ps s
              (x.1, (false, retryAfter) :: x.2.1, x.2.2)

end RateLimiter

/-! ## How long a caller waits -/

/-- A bucket is never more than empty, and full after its refill period. -/
theorem BucketLimit.token_retry_le {b : BucketLimit} {earlier : List (BucketCall b)}
    {c : BucketCall b} (hord : (earlier ++ [c]).Pairwise fun c c' => c.now ≤ c'.now)
    (hrej : (b.token c (b.token.final earlier .absent)).2.decision = (false, retry)) :
    retry ≤ ⌈b.capacity / b.rate * 1000⌉ := by
  obtain ⟨since, hsince, hsolvent⟩ := solvent_run hord
  have hfound : 0 ≤ found c (b.token.final earlier .absent) :=
    (hsolvent.evict c.time).refilled_nonneg hsince
  have hverdict := (token_cases c _).1.symm.trans hrej
  rw [verdict] at hverdict
  split at hverdict
  · cases congrArg Prod.fst hverdict
  · cases hverdict
    have hrate := b.rate_pos
    have hmissing : c.requested - found c (b.token.final earlier .absent) ≤ b.capacity := by
      have hle := c.requested_le
      linarith
    exact Int.ceil_mono (by gcongr)

/-- No unit of a log is stamped later than the call that counts it. -/
theorem WindowLimit.Past.retry_le {w : WindowLimit} {c : WindowCall w} {k : Slot WindowLog}
    (hpast : Past since k) (hsince : since ≤ c.now)
    (hrej : (w.sliding c k).2.decision = (false, retry)) : 0 < retry ∧ retry ≤ w.windowMs := by
  obtain ⟨oldest, hhead, hend, hpos, -, -, -⟩ := rejected_spec hrej
  have hscore := ZSet.score_eq_some_iff.mpr (List.mem_of_head? hhead)
  rw [counted, ZSet.score_remUpTo, Option.filter_eq_some_iff] at hscore
  have hle := hpast.evict c.time _ _ hscore.1
  omega

namespace RateLimiter

theorem final_tokenBucket (b : BucketLimit) (h)
    (earlier : List (tokenBucket b h).Sent) :
    (tokenBucket b h).script.final earlier (tokenBucket b h).empty =
      b.token.final earlier .absent :=
  Machine.final_congr (M := (tokenBucket b h).script) (N := b.token) (fun _ _ => rfl) ..

theorem final_leakyBucket (b : BucketLimit) (h)
    (earlier : List (leakyBucket b h).Sent) :
    (leakyBucket b h).script.final earlier (leakyBucket b h).empty =
      b.leaky.final earlier .absent :=
  Machine.final_congr (M := (leakyBucket b h).script) (N := b.leaky) (fun _ _ => rfl) ..

theorem final_slidingWindow (w : WindowLimit) (h)
    (earlier : List (slidingWindow w h).Sent) :
    (slidingWindow w h).script.final earlier (slidingWindow w h).empty =
      w.sliding.final earlier .absent :=
  Machine.final_congr (M := (slidingWindow w h).script) (N := w.sliding) (fun _ _ => rfl) ..

theorem wait_bounds (rl : RateLimiter) {earlier : List rl.Sent} {c : rl.Sent}
    (hord : (earlier ++ [c]).Pairwise fun c c' => rl.sentNow c ≤ rl.sentNow c')
    (hnow : 0 ≤ rl.sentNow c)
    (hreply : (rl.script c (rl.script.final earlier rl.empty)).2 = some reply)
    (hrej : reply.allowed = false) : 0 < reply.retryAfterMs ∧ reply.retryAfterMs ≤ maxPeriodMs := by
  have hdecision : reply.decision = (false, reply.retryAfterMs) := by rw [LimitReply.decision, hrej]
  cases rl with
  | tokenBucket b h =>
      rw [final_tokenBucket] at hreply
      obtain rfl := Option.some.inj hreply
      exact ⟨(BucketLimit.token_retry hord hdecision).1,
        (BucketLimit.token_retry_le hord hdecision).trans (Int.ceil_le.mpr h)⟩
  | leakyBucket b h =>
      rw [final_leakyBucket] at hreply
      obtain rfl := Option.some.inj hreply
      have htoken := ((b.mirrors_run earlier).1.call c).2.trans hdecision
      exact ⟨(BucketLimit.leaky_retry hord hdecision).1,
        (BucketLimit.token_retry_le hord htoken).trans (Int.ceil_le.mpr h)⟩
  | fixedWindow f h =>
      have hrejected : (f.fixed c (f.fixed.final earlier FixedLimit.noCounters)).2.map
          LimitReply.decision = some (false, reply.retryAfterMs) :=
        (congrArg (Option.map LimitReply.decision) hreply).trans (congrArg some hdecision)
      obtain ⟨since, -, hwithin⟩ := FixedLimit.within_run hord
      have hretry := (hwithin.rejected hrejected).1
      obtain ⟨hpos, hle, -⟩ := FixedLimit.retryMs_spec (f := f) hnow
      rw [hretry]
      exact ⟨hpos, hle.trans h⟩
  | slidingWindow w h =>
      rw [final_slidingWindow] at hreply
      obtain rfl := Option.some.inj hreply
      obtain ⟨since, hsince, hpast⟩ := WindowLimit.past_run hord
      obtain ⟨hpos, hle⟩ := hpast.retry_le hsince hdecision
      exact ⟨hpos, hle.trans h⟩

/-- Times up to the longest period fit. -/
theorem duration_eq (hpos : 0 < ms) (hle : ms ≤ maxPeriodMs) : duration ms = ms * 1000000 := by
  have hle : ms ≤ 9223372036854 := hle
  exact Int.bmod_eq_of_le (by omega) (by omega)

theorem sentNow_send (rl : RateLimiter) (a : AllowCall) (q : rl.Count) :
    rl.sentNow (rl.send a q) = a.now := by
  cases rl <;> rfl

/-- What `Allow` makes of an answer. -/
theorem allow_eq {rl : RateLimiter} {s : rl.Store} {q : rl.Count} (hcheck : rl.check n = .ok (some q))
    (hback : a.answer = .back) (hreply : (rl.script (rl.send a q) s).2 = some reply) :
    rl.allow a n s =
      ((rl.script (rl.send a q) s).1, .ok (reply.allowed, duration reply.retryAfterMs)) := by
  rw [allow, hcheck]
  dsimp only
  rw [hback, hreply]

/-- A rejection is an answer of the script. -/
theorem allow_rejected {rl : RateLimiter} {s : rl.Store}
    (h : (rl.allow a n s).2 = .ok (false, retryAfter)) :
    ∃ q reply, rl.check n = .ok (some q) ∧ (rl.script (rl.send a q) s).2 = some reply ∧
      reply.allowed = false ∧ retryAfter = duration reply.retryAfterMs := by
  rw [allow] at h
  split at h
  · cases h
  · cases h
  · next q hcheck =>
    dsimp only at h
    split at h
    · cases h
    · cases h
    · cases h
    · next reply hback hreply =>
      obtain ⟨hallowed, hretry⟩ := Prod.mk.inj (Except.ok.inj h)
      exact ⟨q, reply, hcheck, hreply, hallowed, hretry.symm⟩

/-- After calls in the order of their timestamps. -/
def Ordered (rl : RateLimiter) (earlier : List rl.Sent) (now : Int) : Prop :=
  (earlier.map rl.sentNow ++ [now]).Pairwise (· ≤ ·)

instance (rl : RateLimiter) (earlier : List rl.Sent) (now : Int) :
    Decidable (rl.Ordered earlier now) :=
  inferInstanceAs (Decidable (List.Pairwise _ _))

theorem Ordered.pairwise {rl : RateLimiter} {earlier : List rl.Sent} (h : rl.Ordered earlier a.now)
    (q : rl.Count) :
    (earlier ++ [rl.send a q]).Pairwise fun c c' => rl.sentNow c ≤ rl.sentNow c' := by
  rw [Ordered, ← sentNow_send rl a q] at h
  exact List.pairwise_map.mp (by simpa using h)

/-- **The time to wait is exact**: whatever limiter `Client.RateLimiter` has
made, and after any calls in the order of their timestamps, a rejected caller is
told the positive time that the script has answered, in nanoseconds and without
overflow, and `Acquire` sleeps for exactly that time. -/
theorem wait_exact (rl : RateLimiter) {earlier : List rl.Sent} (hord : rl.Ordered earlier a.now)
    (hnow : 0 ≤ a.now)
    (hrej : (rl.allow a n (rl.script.final earlier rl.empty)).2 = .ok (false, retryAfter)) :
    ∃ q reply, rl.check n = .ok (some q) ∧
      (rl.script (rl.send a q) (rl.script.final earlier rl.empty)).2 = some reply ∧
      retryAfter = reply.retryAfterMs * 1000000 ∧ 0 < retryAfter ∧ retryAfter < 2 ^ 63 ∧
      sleep retryAfter = retryAfter := by
  obtain ⟨q, reply, hcheck, hreply, hallowed, rfl⟩ := allow_rejected hrej
  obtain ⟨hpos, hle⟩ := rl.wait_bounds (hord.pairwise q) (by rwa [sentNow_send]) hreply hallowed
  have hmax : reply.retryAfterMs ≤ 9223372036854 := hle
  refine ⟨q, reply, hcheck, hreply, duration_eq hpos hle, ?_⟩
  rw [duration_eq hpos hle, sleep, if_neg (by omega)]
  omega

/-- Three tokens, one per second. -/
def threeTokens : RateLimiter := .tokenBucket ⟨3, 1, by decide, by decide⟩ (by decide +kernel)

theorem rateLimiter_threeTokens :
    Client.rateLimiter [] ⟨.finite 1, .finite 3⟩ ⟨3000, by decide, by decide⟩ [] =
      .ok threeTokens := by
  norm_num [Client.rateLimiter, threeTokens, maxPeriodMs]

/-- All tokens are taken at the start, and a call for two comes after a second
and a half. -/
theorem wait_exact_threeTokens :
    let earlier : List threeTokens.Sent := [threeTokens.send ⟨0, 0, "", .back⟩ ⟨3, by decide⟩]
    let a : AllowCall := ⟨1500000000, 1500, "", .back⟩
    Client.rateLimiter [] ⟨.finite 1, .finite 3⟩ ⟨3000, by decide, by decide⟩ [] =
        .ok threeTokens ∧
      (threeTokens.allow a (.finite 2) (threeTokens.script.final earlier threeTokens.empty)).2 =
        .ok (false, 500000000) ∧
      sleep 500000000 = 500000000 := by
  intro earlier a
  have hrej : (threeTokens.allow a (.finite 2)
      (threeTokens.script.final earlier threeTokens.empty)).2 = .ok (false, 500000000) := by
    decide +kernel
  have hord : threeTokens.Ordered earlier a.now := by decide +kernel
  obtain ⟨-, -, -, -, -, -, -, hsleep⟩ := threeTokens.wait_exact hord (by decide) hrej
  exact ⟨rateLimiter_threeTokens, hrej, hsleep⟩

/-! ## A caller that nobody competes with -/

/-- By how much the server's clock may gain on the timestamps. -/
def slack : RateLimiter → Int
  | tokenBucket _ _ | leakyBucket _ _ => 1000
  | fixedWindow f _ => f.windowMs
  | slidingWindow w _ => w.windowMs

/-- The next call is made when the timer has fired. -/
structure Follows (rl : RateLimiter) (n : GoFloat) (s : rl.Store) (a a' : AllowCall) : Prop where
  clock_le : a.clock ≤ a'.clock
  slept : ∀ retryAfter, (rl.allow a n s).2 = .ok (false, retryAfter) →
    a.clock + sleep retryAfter ≤ a'.clock
  time_le : a'.time - a.time ≤ a'.now - a.now + rl.slack

/-- Nobody else calls, every answer comes back, and the context lasts. -/
def Alone (rl : RateLimiter) (n : GoFloat) : List (Poll rl) → rl.Store → Prop
  | [], _ => True
  | p :: ps, s => (p.others = [] ∧ p.call.answer = .back ∧ p.pause = .elapsed) ∧
      (∀ p' ∈ ps.head?, rl.Follows n s p.call p'.call) ∧ Alone rl n ps (rl.allow p.call n s).1

/-- How many calls are enough: two, or one more than there are units in a
log. -/
def patience : (rl : RateLimiter) → rl.Store → Nat
  | tokenBucket _ _, _ | leakyBucket _ _, _ | fixedWindow _ _, _ => 2
  | slidingWindow _ _, k => (Slot.contents k : WindowLog).card + 1

/-- A caller of a bucket or of a fixed window that has waited is admitted. -/
theorem admitted_again (rl : RateLimiter) (hrl : ∀ w h, rl ≠ slidingWindow w h)
    {earlier : List rl.Sent} (hord : rl.Ordered earlier a.now) (hnow : 0 ≤ a.now) (q : rl.Count)
    (hreply : (rl.script (rl.send a q) (rl.script.final earlier rl.empty)).2 = some reply)
    (hrej : reply.allowed = false) (hwait : a.now + reply.retryAfterMs ≤ a'.now)
    (htime : a'.time - a.time ≤ a'.now - a.now + rl.slack) :
    ∃ reply', (rl.script (rl.send a' q)
      (rl.script (rl.send a q) (rl.script.final earlier rl.empty)).1).2 = some reply' ∧
        reply'.allowed = true := by
  have hdecision : reply.decision = (false, reply.retryAfterMs) := by rw [LimitReply.decision, hrej]
  have hpos := (rl.wait_bounds (hord.pairwise q) (by rwa [sentNow_send]) hreply hrej).1
  have hle : a.now ≤ a'.now := by omega
  have hcalls := hord.pairwise q
  cases rl with
  | tokenBucket b h =>
      rw [final_tokenBucket] at hreply ⊢
      obtain rfl := Option.some.inj hreply
      exact ⟨_, rfl, ((BucketLimit.token_retry hcalls hdecision).2
        (send (tokenBucket b h) a' q) ⟨rfl, hle, htime⟩).mpr hwait⟩
  | leakyBucket b h =>
      rw [final_leakyBucket] at hreply ⊢
      obtain rfl := Option.some.inj hreply
      exact ⟨_, rfl, ((BucketLimit.leaky_retry hcalls hdecision).2
        (send (leakyBucket b h) a' q) ⟨rfl, hle, htime⟩).mpr hwait⟩
  | fixedWindow f h =>
      have hrejected : (f.fixed (send (fixedWindow f h) a q) (f.fixed.final earlier
          FixedLimit.noCounters)).2.map LimitReply.decision = some (false, reply.retryAfterMs) :=
        (congrArg (Option.map LimitReply.decision) hreply).trans (congrArg some hdecision)
      have hany := ((FixedLimit.fixed_retry hcalls hnow hrejected).2
        (send (fixedWindow f h) a' q) ⟨rfl, hle, htime⟩).mpr hwait
      exact (Option.any_eq_true _ _).mp hany
  | slidingWindow w h => exact absurd rfl (hrl w h)

/-- One iteration of the loop. -/
theorem acquire_cons {rl : RateLimiter} {p : Poll rl} {s : rl.Store} {q : rl.Count}
    (hcheck : rl.check n = .ok (some q))
    (halone : p.others = [] ∧ p.call.answer = .back ∧ p.pause = .elapsed)
    (hreply : (rl.script (rl.send p.call q) s).2 = some reply) (ps : List (Poll rl)) :
    (rl.acquire n (p :: ps) s).2.2 = if reply.allowed then some .ok
      else (rl.acquire n ps (rl.script (rl.send p.call q) s).1).2.2 := by
  obtain ⟨hothers, hback, hpause⟩ := halone
  have hfinal : rl.script.final p.others s = s := by rw [hothers, Machine.final_nil]
  rw [acquire, hfinal, allow_eq hcheck hback hreply]
  cases reply.allowed with
  | true => rfl
  | false => simp [hpause]

/-- What the timer has to do with the timestamps. -/
theorem Follows.wait_le {rl : RateLimiter} {s : rl.Store} {q : rl.Count}
    (h : rl.Follows n s a a') (hcheck : rl.check n = .ok (some q)) (hback : a.answer = .back)
    (hreply : (rl.script (rl.send a q) s).2 = some reply) (hrej : reply.allowed = false)
    (hpos : 0 < reply.retryAfterMs) (hle : reply.retryAfterMs ≤ maxPeriodMs) :
    a.now + reply.retryAfterMs ≤ a'.now := by
  have hslept := h.slept (duration reply.retryAfterMs) (by rw [allow_eq hcheck hback hreply, hrej])
  rw [duration_eq hpos hle, sleep, if_neg (by omega)] at hslept
  rw [AllowCall.now, AllowCall.now, unixMilli, unixMilli]
  omega

end RateLimiter

namespace WindowLimit

/-- What is counted is in the log. -/
theorem card_counted_le {w : WindowLimit} (c : WindowCall w) (k : Slot WindowLog) :
    (counted c k).card ≤ k.contents.card := by
  rw [counted]
  refine (ZSet.card_filter_le _ _).trans ?_
  rcases Slot.evict_eq c.time k with heq | heq
  · rw [heq]
  · rw [heq]
    exact Nat.zero_le _

/-- Each time that a caller has waited, the log it counts is shorter. -/
theorem card_counted_lt {w : WindowLimit} {c c' : WindowCall w} {k : Slot WindowLog}
    (hrej : (w.sliding c k).2.decision = (false, retry)) (hwait : c.now + retry ≤ c'.now) :
    (counted c' (w.sliding c k).1).card < (counted c k).card := by
  obtain ⟨oldest, hhead, hend, -, -, hcontents, -⟩ := rejected_spec hrej
  have hmem : oldest ∈ (counted c k).entries := List.mem_of_head? hhead
  rw [counted]
  rcases Slot.evict_eq c'.time (w.sliding c k).1 with heq | heq
  · rw [heq, hcontents, ZSet.card, ZSet.card, ZSet.remUpTo, ZSet.filter]
    refine List.length_filter_lt_length_iff_exists.mpr ⟨oldest, hmem, ?_⟩
    rw [decide_eq_true_eq]
    omega
  · rw [heq, Slot.contents_absent]
    exact List.length_pos_of_mem hmem

end WindowLimit

namespace RateLimiter

theorem acquire_sliding {w : WindowLimit} {h : w.windowMs ≤ maxPeriodMs}
    {q : (slidingWindow w h).Count} (hcheck : (slidingWindow w h).check n = .ok (some q))
    {ps : List (Poll (slidingWindow w h))} {k : Slot WindowLog} (hpast : WindowLimit.Past since k)
    (hsince : ∀ p ∈ ps.head?, since ≤ p.call.now) (halone : (slidingWindow w h).Alone n ps k)
    (hne : ps ≠ []) (hlen : ∀ p ∈ ps.head?,
      (WindowLimit.counted ((slidingWindow w h).send p.call q) k).card < ps.length) :
    ((slidingWindow w h).acquire n ps k).2.2 = some .ok := by
  -- what the next call counts shrinks with each wait, and the calls do not run out before
  induction ps generalizing since k with
  | nil => contradiction
  | cons p ps ih =>
      obtain ⟨hself, hfollows, hrest⟩ := halone
      let c : WindowCall w := (slidingWindow w h).send p.call q
      have hreply : ((slidingWindow w h).script c k).2 = some (w.sliding c k).2 := rfl
      rw [acquire_cons hcheck hself hreply]
      split
      · rfl
      · next hrej =>
        have hrej : (w.sliding c k).2.allowed = false := by simpa using hrej
        have hdecision : (w.sliding c k).2.decision = (false, (w.sliding c k).2.retryAfterMs) := by
          rw [LimitReply.decision, hrej]
        have hnow : since ≤ c.now := hsince p rfl
        obtain ⟨hpos, hle⟩ := hpast.retry_le hnow hdecision
        have hcard := hlen p rfl
        obtain ⟨oldest, hhead, -⟩ := WindowLimit.rejected_spec hdecision
        have hsome : 0 < (WindowLimit.counted c k).card := List.length_pos_of_mem (List.mem_of_head? hhead)
        cases ps with
        | nil =>
            have hcard : (WindowLimit.counted c k).card < 1 := hcard
            omega
        | cons p' ps =>
            have hnext := hfollows p' rfl
            rw [allow_eq hcheck hself.2.1 hreply] at hrest
            refine ih ((hpast.evict c.time).call hnow) ?_ hrest (List.cons_ne_nil p' ps) ?_
            · rintro _ ⟨⟩
              exact unixMilli_mono hnext.clock_le
            · rintro _ ⟨⟩
              have hwait := hnext.wait_le hcheck hself.2.1 hreply hrej hpos (hle.trans h)
              have hlt : (WindowLimit.counted ((slidingWindow w h).send p'.call q)
                  (w.sliding c k).1).card < (WindowLimit.counted c k).card :=
                WindowLimit.card_counted_lt hdecision hwait
              have hcard : (WindowLimit.counted c k).card < ps.length + 1 + 1 := hcard
              rw [List.length_cons]
              exact hlt.trans_le (Nat.le_of_lt_succ hcard)

/-- A script that is given calls in order does not fail. -/
theorem exists_reply (rl : RateLimiter) {earlier : List rl.Sent} (hord : rl.Ordered earlier a.now)
    (q : rl.Count) :
    ∃ reply, (rl.script (rl.send a q) (rl.script.final earlier rl.empty)).2 = some reply := by
  have hcalls := hord.pairwise q
  cases rl with
  | tokenBucket | leakyBucket | slidingWindow => exact ⟨_, rfl⟩
  | fixedWindow f h =>
      obtain ⟨since, -, hwithin⟩ := FixedLimit.within_run hcalls
      obtain ⟨v, reply, -, -, heq, -⟩ := hwithin.fixed_eq _
      exact ⟨reply, congrArg Prod.snd heq⟩

theorem acquire_twice (rl : RateLimiter) (hrl : ∀ w h, rl ≠ slidingWindow w h)
    {earlier : List rl.Sent} {q : rl.Count} (hcheck : rl.check n = .ok (some q)) {p p' : Poll rl}
    {ps : List (Poll rl)} (hord : rl.Ordered earlier p.call.now) (hnow : 0 ≤ p.call.now)
    (halone : rl.Alone n (p :: p' :: ps) (rl.script.final earlier rl.empty)) :
    (rl.acquire n (p :: p' :: ps) (rl.script.final earlier rl.empty)).2.2 = some .ok := by
  obtain ⟨hself, hfollows, hself', -⟩ := halone
  obtain ⟨reply, hreply⟩ := rl.exists_reply hord q
  rw [acquire_cons hcheck hself hreply]
  split
  · rfl
  · next hrej =>
    have hrej : reply.allowed = false := by simpa using hrej
    have hnext := hfollows p' rfl
    obtain ⟨hpos, hle⟩ := rl.wait_bounds (hord.pairwise q) (by rwa [sentNow_send]) hreply hrej
    have hwait := hnext.wait_le hcheck hself.2.1 hreply hrej hpos hle
    obtain ⟨reply', hreply', hallowed⟩ :=
      rl.admitted_again hrl hord hnow q hreply hrej hwait hnext.time_le
    rw [acquire_cons hcheck hself' hreply', if_pos hallowed]

/-- **`Acquire` alone**: after any calls in the order of their timestamps, a
caller that nobody competes with is admitted.  It sleeps once at most, or, by a
sliding window, once for each unit in the log at most. -/
theorem acquire_alone (rl : RateLimiter) {earlier : List rl.Sent} {q : rl.Count}
    (hcheck : rl.check n = .ok (some q)) {ps : List (Poll rl)}
    (hord : ∀ p ∈ ps.head?, rl.Ordered earlier p.call.now ∧ 0 ≤ p.call.now)
    (halone : rl.Alone n ps (rl.script.final earlier rl.empty))
    (hlen : rl.patience (rl.script.final earlier rl.empty) ≤ ps.length) :
    (rl.acquire n ps (rl.script.final earlier rl.empty)).2.2 = some .ok := by
  have htwo (hrl : ∀ w h, rl ≠ slidingWindow w h) (hlen : 2 ≤ ps.length) :
      (rl.acquire n ps (rl.script.final earlier rl.empty)).2.2 = some .ok := by
    obtain ⟨p, p', ps, rfl⟩ : ∃ p p' ps', ps = p :: p' :: ps' := by
      match ps, hlen with
      | p :: p' :: ps, _ => exact ⟨p, p', ps, rfl⟩
    obtain ⟨hordered, hnow⟩ := hord p rfl
    exact rl.acquire_twice hrl hcheck hordered hnow halone
  cases rl with
  | tokenBucket b h => exact htwo nofun hlen
  | leakyBucket b h => exact htwo nofun hlen
  | fixedWindow f h => exact htwo nofun hlen
  | slidingWindow w h =>
      cases ps with
      | nil => exact absurd hlen (Nat.not_succ_le_zero _)
      | cons p ps =>
          obtain ⟨since, hsince, hpast⟩ := WindowLimit.past_run ((hord p rfl).1.pairwise q)
          rw [final_slidingWindow] at halone hlen ⊢
          refine acquire_sliding hcheck hpast ?_ halone nofun ?_
          · rintro _ ⟨⟩
            exact hsince
          · rintro _ ⟨⟩
            have hcounted := WindowLimit.card_counted_le ((slidingWindow w h).send p.call q)
              (w.sliding.final earlier .absent)
            exact Nat.lt_of_lt_of_le (Nat.lt_succ_of_le hcounted) hlen

/-- The call for two sleeps for half a second and is admitted. -/
theorem acquire_alone_threeTokens :
    let earlier : List threeTokens.Sent := [threeTokens.send ⟨0, 0, "", .back⟩ ⟨3, by decide⟩]
    let ps : List (Poll threeTokens) :=
      [⟨[], ⟨1500000000, 1500, "", .back⟩, .elapsed⟩, ⟨[], ⟨2000000000, 2000, "", .back⟩, .elapsed⟩]
    Client.rateLimiter [] ⟨.finite 1, .finite 3⟩ ⟨3000, by decide, by decide⟩ [] =
        .ok threeTokens ∧
      (threeTokens.acquire (.finite 2) ps (threeTokens.script.final earlier threeTokens.empty)).2 =
        ([(false, 500000000), (true, 0)], some .ok) := by
  intro earlier ps
  have hcheck : threeTokens.check (.finite 2) = .ok (some ⟨2, by decide⟩) := by decide +kernel
  have hord : ∀ p ∈ ps.head?, threeTokens.Ordered earlier p.call.now ∧ 0 ≤ p.call.now := by
    rintro _ ⟨⟩
    decide +kernel
  have hrej : (threeTokens.allow ⟨1500000000, 1500, "", .back⟩ (.finite 2)
      (threeTokens.script.final earlier threeTokens.empty)).2 = .ok (false, 500000000) := by
    decide +kernel
  have halone : threeTokens.Alone (.finite 2) ps
      (threeTokens.script.final earlier threeTokens.empty) := by
    refine ⟨⟨rfl, rfl, rfl⟩, ?_, ⟨rfl, rfl, rfl⟩, nofun, trivial⟩
    rintro _ ⟨⟩
    refine ⟨by decide, fun retryAfter hretry => ?_, by decide⟩
    cases hrej.symm.trans hretry
    decide
  have hok := threeTokens.acquire_alone hcheck hord halone (by decide)
  refine ⟨rateLimiter_threeTokens, Prod.ext ?_ hok⟩
  decide +kernel

/-! ## Reset -/

/-- `Reset` at time `now`: of a fixed window, only the current counter is
deleted. -/
def reset : (rl : RateLimiter) → Int → rl.Store → rl.Store
  | tokenBucket _ _, _, _ | slidingWindow _ _, _, _ | leakyBucket _ _, _, _ => .absent
  | fixedWindow f _, now, s => Function.update s (f.keyAt now) .absent

end RateLimiter

namespace FixedLimit

variable {f : FixedLimit}

/-- The counters of the window of `since` and of later ones are the same. -/
def AgreeFrom (f : FixedLimit) (since : Int) (s s' : Counters) : Prop :=
  ∀ w, since.tdiv f.windowMs ≤ w → s (f.windowKey w) = s' (f.windowKey w)

theorem tdiv_le_tdiv (f : FixedLimit) {now now' : Int} (h : now ≤ now') :
    now.tdiv f.windowMs ≤ now'.tdiv f.windowMs :=
  Int.tdiv_le_tdiv (Int.lt_of_lt_of_le Int.zero_lt_one f.one_le_windowMs) h

/-- Counters that agree answer calls alike, and go on agreeing. -/
theorem AgreeFrom.call (h : f.AgreeFrom since s s') {c : FixedCall f} (hc : since ≤ c.now) :
    f.AgreeFrom since (f.fixed c s).1 (f.fixed c s').1 ∧ (f.fixed c s).2 = (f.fixed c s').2 := by
  have hown : s (f.keyAt c.now) = s' (f.keyAt c.now) := h _ (f.tdiv_le_tdiv hc)
  refine ⟨fun w hw => ?_, by rw [fixed, fixed, hown]⟩
  rw [fixed, fixed, hown]
  by_cases hkey : f.windowKey w = f.keyAt c.now
  · simp [hkey]
  · simpa [hkey] using h w hw

theorem AgreeFrom.trace (h : f.AgreeFrom since s s') {later : List (FixedCall f)}
    (hlater : ∀ c ∈ later, since ≤ c.now) : f.fixed.trace later s = f.fixed.trace later s' := by
  induction later generalizing s s' with
  | nil => rfl
  | cons c later ih =>
      obtain ⟨hc, hrest⟩ := List.forall_mem_cons.mp hlater
      obtain ⟨hnext, hanswer⟩ := h.call hc
      rw [Machine.trace, Machine.trace, hanswer, ih hnext hrest]

/-- No call has a counter in a window later than its timestamp. -/
theorem absent_of_lt {earlier : List (FixedCall f)} (hearlier : ∀ c ∈ earlier, c.now ≤ now)
    (hw : now.tdiv f.windowMs < w) (hs : s (f.windowKey w) = .absent) :
    f.fixed.final earlier s (f.windowKey w) = .absent := by
  induction earlier generalizing s with
  | nil => exact hs
  | cons c earlier ih =>
      obtain ⟨hc, hrest⟩ := List.forall_mem_cons.mp hearlier
      refine ih hrest ?_
      have hle := f.tdiv_le_tdiv hc
      have hne : f.windowKey w ≠ f.keyAt c.now := fun heq => by
        have hindex := fixedWindowKey_inj.mp heq
        omega
      exact (Function.update_of_ne hne ..).trans hs

end FixedLimit

namespace RateLimiter

/-- **Reset restores the budget**: if no call was stamped later than the reset,
the calls that are stamped from then on get the answers of a new limiter. -/
theorem reset_restores (rl : RateLimiter) {earlier later : List rl.Sent} {now : Int}
    (hearlier : ∀ c ∈ earlier, rl.sentNow c ≤ now) (hlater : ∀ c ∈ later, now ≤ rl.sentNow c) :
    rl.script.trace later (rl.reset now (rl.script.final earlier rl.empty)) =
      rl.script.trace later rl.empty := by
  cases rl with
  | tokenBucket | leakyBucket | slidingWindow => rfl
  | fixedWindow f h =>
      have hagree : f.AgreeFrom now
          (Function.update (f.fixed.final earlier FixedLimit.noCounters) (f.keyAt now) .absent)
          FixedLimit.noCounters := by
        intro w hw
        by_cases hkey : f.windowKey w = f.keyAt now
        · rw [hkey, Function.update_self]
          rfl
        · have hlt : now.tdiv f.windowMs < w :=
            lt_of_le_of_ne hw fun heq => hkey (heq ▸ rfl)
          rw [Function.update_of_ne hkey, FixedLimit.absent_of_lt hearlier hlt rfl]
          rfl
      exact hagree.trace hlater

/-- Two requests in a second. -/
def twoRequests : RateLimiter :=
  fixedWindow ⟨ascii "k", 2, 1000, by norm_num, by norm_num, by norm_num⟩ (by decide)

theorem rateLimiter_twoRequests :
    Client.rateLimiter (ascii "k") ⟨.finite 2, .finite 2⟩ ⟨1000, by decide, by decide⟩
      [.fixedWindow] = .ok twoRequests := by
  norm_num [Client.rateLimiter, twoRequests, maxPeriodMs]

/-- A third request in the same second is rejected, and admitted after a
reset. -/
theorem reset_restores_twoRequests :
    let earlier : List twoRequests.Sent :=
      [twoRequests.send ⟨1100000000, 1100, "", .back⟩ ⟨2, by decide⟩]
    let later : List twoRequests.Sent :=
      [twoRequests.send ⟨1700000000, 1700, "", .back⟩ ⟨1, by decide⟩]
    let full := twoRequests.script.final earlier twoRequests.empty
    Client.rateLimiter (ascii "k") ⟨.finite 2, .finite 2⟩ ⟨1000, by decide, by decide⟩
        [.fixedWindow] = .ok twoRequests ∧
      (twoRequests.script.observe (Option.map LimitReply.allowed) later full).map Prod.snd =
        [some false] ∧
      ((twoRequests.script.trace later (twoRequests.reset 1600 full)).map fun e =>
        e.2.map LimitReply.allowed) = [some true] := by
  intro earlier later full
  have hrestored : twoRequests.script.trace later (twoRequests.reset 1600 full) =
      twoRequests.script.trace later twoRequests.empty :=
    twoRequests.reset_restores (by decide) (by decide)
  rw [hrestored]
  exact ⟨rateLimiter_twoRequests, by decide +kernel, by decide +kernel⟩

end RateLimiter

end Distsync
