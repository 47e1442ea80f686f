import Distsync.Lua.RateLimit
import Distsync.Trans.Machine
import Mathlib.Algebra.Order.Field.Basic
import Mathlib.Tactic.Linarith
import Mathlib.Tactic.Positivity
import Mathlib.Tactic.Ring

/-!
# Distsync.RateLimit.Bucket

The token bucket and the leaky bucket over whole runs.

Timestamps are read from the clients' clocks and are not assumed to agree or
to advance.  A clock that steps back takes tokens out of the bucket, below
zero if need be, and they come back as it catches up: what is left after a
call never exceeds what was left after an earlier one, plus the flow between
the two timestamps, less what was admitted (`balance_le`).  From this the
admission bound (`admitted_le`).

The leaky bucket holds what the token bucket lacks, and the two scripts make
the same decisions (`leaky_mirrors_token`).
-/

namespace Distsync

open Redis Trans

/-- A bucket as `Client.RateLimiter` makes it. -/
structure BucketLimit where
  capacity : ℚ
  rate : ℚ
  capacity_pos : 0 < capacity
  rate_pos : 0 < rate

/-- A call as `Allow` sends it, executed at server time `time`. -/
structure BucketCall (b : BucketLimit) where
  time : Int
  now : Int
  requested : ℚ
  requested_pos : 0 < requested
  requested_le : requested ≤ b.capacity
deriving DecidableEq

/-- What an answered call took. -/
def BucketCall.admitted {b : BucketLimit} (e : BucketCall b × LimitReply) : ℚ :=
  if e.2.allowed then e.1.requested else 0

/-- The call finds the key as it was left. -/
def BucketCall.Unexpired {b : BucketLimit} (c : BucketCall b) (k : Slot α) : Prop :=
  k.evict c.time = k

namespace BucketLimit

variable (b : BucketLimit)

/-- `ratelimit.lua` on one key. -/
def token : Machine (Slot TokenBucket) (BucketCall b) LimitReply := fun c k =>
  ratelimit c.time b.capacity b.rate c.now c.requested (k.evict c.time)

/-- `ratelimit_leaky.lua` on one key. -/
def leaky : Machine (Slot LeakyBucket) (BucketCall b) LimitReply := fun c k =>
  ratelimitLeaky c.time b.capacity b.rate c.now c.requested (k.evict c.time)

/-- `ratelimit.lua` on one key that never expires. -/
def tokenKept : Machine (Slot TokenBucket) (BucketCall b) LimitReply := fun c k =>
  ratelimit c.time b.capacity b.rate c.now c.requested k

/-- `ratelimit_leaky.lua` on one key that never expires. -/
def leakyKept : Machine (Slot LeakyBucket) (BucketCall b) LimitReply := fun c k =>
  ratelimitLeaky c.time b.capacity b.rate c.now c.requested k

/-! ## One call -/

theorem bucketTtl_pos : 0 < bucketTtl b.capacity b.rate := by
  have hpos : 0 < b.capacity / b.rate * 1000 := by
    have := div_pos b.capacity_pos b.rate_pos
    positivity
  have hceil : 0 < ⌈b.capacity / b.rate * 1000⌉ := Int.ceil_pos.mpr hpos
  rw [bucketTtl]
  omega

theorem pexpire_hset (v : α) (k : Slot α) (t : Int) :
    (hset v k).pexpire t (bucketTtl b.capacity b.rate) =
      .present v (some (t + bucketTtl b.capacity b.rate)) :=
  if_neg (not_le_of_gt b.bucketTtl_pos)

theorem refilled_absent (now : Int) : refilled b.capacity b.rate now .absent = b.capacity := by
  simp [refilled, flow]

theorem refilled_present (now : Int) (v : TokenBucket) (d : Option Int) :
    refilled b.capacity b.rate now (.present v d) =
      min b.capacity (v.tokens + flow b.rate v.ts now) := by
  change (if v.tokens + flow b.rate v.ts now > b.capacity then b.capacity
    else v.tokens + flow b.rate v.ts now) = _
  rcases lt_or_ge b.capacity (v.tokens + flow b.rate v.ts now) with h | h
  · rw [if_pos h, min_eq_left h.le]
  · rw [if_neg (not_lt.mpr h), min_eq_right h]

theorem refilled_le (now : Int) (k : Slot TokenBucket) :
    refilled b.capacity b.rate now k ≤ b.capacity := by
  cases k with
  | absent => exact (b.refilled_absent now).le
  | present v d =>
      rw [refilled_present]
      exact min_le_left ..

variable {b}

/-- The decision on a call that finds `found` tokens. -/
def verdict (c : BucketCall b) (found : ℚ) : Bool × Int :=
  if found ≥ c.requested then (true, 0) else (false, ⌈(c.requested - found) / b.rate * 1000⌉)

/-- What such a call leaves. -/
def remaining (c : BucketCall b) (found : ℚ) : ℚ :=
  if found ≥ c.requested then found - c.requested else found

/-- What the script does to a bucket, by what the call finds. -/
theorem tokenKept_cases (c : BucketCall b) (k : Slot TokenBucket) :
    let found := refilled b.capacity b.rate c.now k
    (b.tokenKept c k).2.decision = verdict c found ∧
      (b.tokenKept c k).1 =
        .present ⟨remaining c found, c.now⟩ (some (c.time + bucketTtl b.capacity b.rate)) := by
  intro found
  refine ⟨?_, b.pexpire_hset _ k c.time⟩
  rw [tokenKept, ratelimit, verdict]
  split <;> rfl

/-- The tokens that a call finds. -/
def found (c : BucketCall b) (k : Slot TokenBucket) : ℚ :=
  refilled b.capacity b.rate c.now (k.evict c.time)

theorem token_cases (c : BucketCall b) (k : Slot TokenBucket) :
    (b.token c k).2.decision = verdict c (found c k) ∧
      (b.token c k).1 =
        .present ⟨remaining c (found c k), c.now⟩ (some (c.time + bucketTtl b.capacity b.rate)) :=
  tokenKept_cases c (k.evict c.time)

theorem token_allowed_iff (c : BucketCall b) (k : Slot TokenBucket) :
    (b.token c k).2.allowed = true ↔ c.requested ≤ found c k := by
  have hallowed : (b.token c k).2.allowed = (verdict c (found c k)).1 :=
    congrArg Prod.fst (token_cases c k).1
  rw [hallowed, verdict]
  by_cases h : c.requested ≤ found c k <;> simp [h]

/-- A call leaves what it finds, less what it takes. -/
theorem token_fst (c : BucketCall b) (k : Slot TokenBucket) :
    (b.token c k).1 = .present ⟨found c k - BucketCall.admitted (c, (b.token c k).2), c.now⟩
      (some (c.time + bucketTtl b.capacity b.rate)) := by
  have hadm : remaining c (found c k) = found c k - BucketCall.admitted (c, (b.token c k).2) := by
    rw [remaining, BucketCall.admitted]
    by_cases h : c.requested ≤ found c k
    · rw [if_pos h, if_pos ((token_allowed_iff c k).mpr h)]
    · rw [if_neg h, if_neg (mt (token_allowed_iff c k).mp h), sub_zero]
  rw [← hadm]
  exact (token_cases c k).2

/-! ## Whole runs -/

theorem flow_add (rate : ℚ) (x y z : Int) : flow rate x y + flow rate y z = flow rate x z := by
  simp only [flow]
  push_cast
  ring

/-- The timestamp of the last call, or `ts` if there is none. -/
def lastNow (ts : Int) : List (BucketCall b) → Int
  | [] => ts
  | c :: cs => lastNow c.now cs

theorem lastNow_concat (ts : Int) (cs : List (BucketCall b)) (c : BucketCall b) :
    lastNow ts (cs ++ [c]) = c.now := by
  induction cs generalizing ts with
  | nil => rfl
  | cons x cs ih => exact ih x.now

/-- What is left after a run, and what it took, came from the start and from
the flow between the timestamps. -/
theorem balance_le {calls : List (BucketCall b)} {v : TokenBucket} {d : Option Int}
    (hlive : b.token.Along BucketCall.Unexpired calls (.present v d)) :
    ∃ left d', b.token.final calls (.present v d) = .present ⟨left, lastNow v.ts calls⟩ d' ∧
      left + ((b.token.trace calls (.present v d)).map BucketCall.admitted).sum ≤
        v.tokens + flow b.rate v.ts (lastNow v.ts calls) := by
  induction calls generalizing v d with
  | nil => exact ⟨v.tokens, d, rfl, by simp [lastNow, flow]⟩
  | cons c cs ih =>
      obtain ⟨hc, hcs⟩ := hlive
      rw [token_fst] at hcs
      obtain ⟨left, d', hfinal, hle⟩ := ih hcs
      refine ⟨left, d', ?_, ?_⟩
      · rw [Machine.final, token_fst, hfinal, lastNow]
      · have hfound : found c (.present v d) ≤ v.tokens + flow b.rate v.ts c.now := by
          rw [found, hc, refilled_present]
          exact min_le_right ..
        have hflow := flow_add b.rate v.ts c.now (lastNow c.now cs)
        rw [Machine.trace, List.map_cons, List.sum_cons, token_fst, lastNow]
        linarith

/-- The same from a call that finds anything: it finds at most the capacity. -/
theorem balance_le_capacity {c : BucketCall b} {cs : List (BucketCall b)} {k : Slot TokenBucket}
    (hlive : b.token.Along BucketCall.Unexpired cs (b.token c k).1) :
    ∃ left d', b.token.final (c :: cs) k = .present ⟨left, lastNow c.now cs⟩ d' ∧
      left + ((b.token.trace (c :: cs) k).map BucketCall.admitted).sum ≤
        b.capacity + flow b.rate c.now (lastNow c.now cs) := by
  rw [token_fst] at hlive
  obtain ⟨left, d', hfinal, hle⟩ := balance_le hlive
  refine ⟨left, d', ?_, ?_⟩
  · rw [Machine.final, token_fst, hfinal]
  · have hfound : found c k ≤ b.capacity := refilled_le ..
    rw [Machine.trace, List.map_cons, List.sum_cons, token_fst]
    linarith

/-- A run whose last call is admitted leaves no debt. -/
theorem sum_admitted_le {c : BucketCall b} {cs : List (BucketCall b)} {k : Slot TokenBucket}
    (hlive : b.token.Along BucketCall.Unexpired cs (b.token c k).1)
    {init : List (BucketCall b)} {last : BucketCall b} (hlast : c :: cs = init ++ [last])
    (hadm : (b.token last (b.token.final init k)).2.allowed = true) :
    ((b.token.trace (c :: cs) k).map BucketCall.admitted).sum ≤
      b.capacity + flow b.rate c.now last.now := by
  obtain ⟨left, d', hfinal, hle⟩ := balance_le_capacity hlive
  have hnow : lastNow c.now cs = last.now := by
    rw [← lastNow_concat c.now init last, ← hlast]
    rfl
  rw [hlast, Machine.final_append, Machine.final, Machine.final, token_fst] at hfinal
  have hleft : found last (b.token.final init k) - last.requested = left := by
    have hv := congrArg TokenBucket.tokens (Slot.present.inj hfinal).1
    rwa [BucketCall.admitted, if_pos hadm] at hv
  have hnonneg : 0 ≤ left := by
    rw [← hleft, sub_nonneg]
    exact (token_allowed_iff last _).mp hadm
  rw [hnow] at hle
  linarith

/-- **Admission bound**: for any timestamps, what the calls from the `i`-th to
an admitted `j`-th take is within the capacity and the flow between the two
timestamps. -/
theorem admitted_le {calls : List (BucketCall b)} {k : Slot TokenBucket}
    (hlive : b.token.Along BucketCall.Unexpired calls k) {i j : Nat} (hij : i ≤ j)
    (hi : (b.token.trace calls k)[i]? = some (cᵢ, rᵢ))
    (hj : (b.token.trace calls k)[j]? = some (cⱼ, rⱼ)) (hadm : rⱼ.allowed = true) :
    ((((b.token.trace calls k).drop i).take (j + 1 - i)).map BucketCall.admitted).sum ≤
      b.capacity + b.rate * ((cⱼ.now - cᵢ.now : Int) : ℚ) / 1000 := by
  rw [Machine.trace_getElem?, Option.map_eq_some_iff] at hi hj
  obtain ⟨c, hci, he⟩ := hi
  obtain ⟨c', hcj, he'⟩ := hj
  cases he
  cases he'
  -- the calls from `i` to `j` begin with the one and end with the other
  have hdrop : calls.drop i = cᵢ :: calls.drop (i + 1) := by
    obtain ⟨hlt, hget⟩ := List.getElem?_eq_some_iff.mp hci
    rw [List.drop_eq_getElem_cons hlt, hget]
  have hfirst : (calls.drop i).take (j + 1 - i) = cᵢ :: (calls.drop (i + 1)).take (j - i) := by
    rw [hdrop, show j + 1 - i = j - i + 1 by omega, List.take_succ_cons]
  have hlast : (calls.drop i).take (j + 1 - i) = (calls.drop i).take (j - i) ++ [cⱼ] := by
    rw [show j + 1 - i = j - i + 1 by omega, List.take_add_one, List.getElem?_drop,
      show i + (j - i) = j by omega, hcj]
    rfl
  have hinit : b.token.final ((calls.drop i).take (j - i)) (b.token.final (calls.take i) k) =
      b.token.final (calls.take j) k := by
    rw [← Machine.final_append, ← List.take_add, show i + (j - i) = j by omega]
  rw [Machine.trace_extract, hfirst]
  rw [← List.take_append_drop i calls, Machine.along_append, hdrop] at hlive
  have hrest := hlive.2.2
  rw [← List.take_append_drop (j - i) (calls.drop (i + 1)), Machine.along_append] at hrest
  have hle := sum_admitted_le hrest.1 (hfirst.symm.trans hlast) (hinit ▸ hadm)
  rw [flow] at hle
  linarith

/-- Two tokens, one per second, and a clock that steps back four seconds: the
second call finds a debt of three tokens and is rejected, the third finds one
token again. -/
theorem admitted_le_clock_steps_back :
    let b : BucketLimit := ⟨2, 1, by decide, by decide⟩
    let call (time now : Int) : BucketCall b := ⟨time, now, 1, by decide, by decide⟩
    let calls := [call 0 5000, call 1 1000, call 2 5000]
    (b.token.trace calls .absent).map (fun e => e.2.allowed) = [true, false, true] ∧
      ((((b.token.trace calls .absent).drop 0).take (2 + 1 - 0)).map BucketCall.admitted).sum ≤
        b.capacity + b.rate * (((call 2 5000).now - (call 0 5000).now : Int) : ℚ) / 1000 := by
  intro b call calls
  have hlive : b.token.Along BucketCall.Unexpired calls .absent := by
    refine ⟨rfl, ?_, ?_, trivial⟩ <;> (rw [BucketCall.Unexpired]; decide +kernel)
  have hi : (b.token.trace calls .absent)[0]? = some (call 0 5000, ⟨true, 1, 0⟩) := by
    decide +kernel
  have hj : (b.token.trace calls .absent)[2]? = some (call 2 5000, ⟨true, 0, 0⟩) := by
    decide +kernel
  exact ⟨by decide +kernel, admitted_le hlive (by decide) hi hj rfl⟩

/-! ## The leaky bucket -/

variable (b) in
/-- The level of one bucket is what the other lacks. -/
inductive Mirrors : Slot TokenBucket → Slot LeakyBucket → Prop
  | absent : Mirrors .absent .absent
  | present (tokens : ℚ) (ts : Int) (d : Option Int) :
      Mirrors (.present ⟨tokens, ts⟩ d) (.present ⟨b.capacity - tokens, ts⟩ d)

theorem exists_mirrors (b : BucketLimit) (l : Slot LeakyBucket) : ∃ k, b.Mirrors k l := by
  cases l with
  | absent => exact ⟨.absent, .absent⟩
  | present v d =>
      refine ⟨.present ⟨b.capacity - v.level, v.ts⟩ d, ?_⟩
      have h := Mirrors.present (b := b) (b.capacity - v.level) v.ts d
      rwa [sub_sub_cancel] at h

theorem Mirrors.evict (h : b.Mirrors k l) (t : Int) : b.Mirrors (k.evict t) (l.evict t) := by
  cases h with
  | absent => exact .absent
  | present tokens ts d =>
      cases d with
      | none => exact .present tokens ts none
      | some d =>
          by_cases hd : d < t
          · simp only [Slot.evict, if_pos hd]
            exact .absent
          · simp only [Slot.evict, if_neg hd]
            exact .present tokens ts (some d)

/-- One drains as the other refills, and they are clipped together. -/
theorem Mirrors.drained_eq (h : b.Mirrors k l) (now : Int) :
    drained b.rate now l = b.capacity - refilled b.capacity b.rate now k := by
  have hclip (x : ℚ) : (if b.capacity - x < 0 then 0 else b.capacity - x) =
      b.capacity - (if x > b.capacity then b.capacity else x) := by
    by_cases hx : x > b.capacity
    · rw [if_pos (by linarith), if_pos hx, sub_self]
    · rw [if_neg (by linarith), if_neg hx]
  cases h with
  | absent =>
      simp [drained, refilled, flow]
  | present tokens ts d =>
      rw [drained, refilled, ← hclip]
      simp only [Slot.get_present, Option.map_some, Option.getD_some, sub_sub]
      rfl

/-- The scripts keep the buckets mirrored and make the same decision. -/
theorem Mirrors.kept (h : b.Mirrors k l) (c : BucketCall b) :
    b.Mirrors (b.tokenKept c k).1 (b.leakyKept c l).1 ∧
      (b.tokenKept c k).2.decision = (b.leakyKept c l).2.decision := by
  have hdrained := h.drained_eq c.now
  rw [tokenKept, leakyKept, ratelimit, ratelimitLeaky, hdrained, pexpire_hset, pexpire_hset]
  generalize refilled b.capacity b.rate c.now k = found
  have hiff : b.capacity - found + c.requested ≤ b.capacity ↔ found ≥ c.requested := by
    constructor <;> intro hle <;> linarith
  have hretry : b.capacity - found + c.requested - b.capacity = c.requested - found := by ring
  by_cases hadm : found ≥ c.requested
  · simp only [if_pos hadm, if_pos (hiff.mpr hadm), LimitReply.decision, and_true]
    rw [show b.capacity - found + c.requested = b.capacity - (found - c.requested) by ring]
    exact .present _ _ _
  · simp only [if_neg hadm, if_neg (mt hiff.mp hadm), hretry, LimitReply.decision, and_true]
    exact .present _ _ _

theorem Mirrors.call (h : b.Mirrors k l) (c : BucketCall b) :
    b.Mirrors (b.token c k).1 (b.leaky c l).1 ∧
      (b.token c k).2.decision = (b.leaky c l).2.decision :=
  (h.evict c.time).kept c

/-- Runs from absent keys keep their buckets mirrored and look the same. -/
theorem mirrors_run (b : BucketLimit) (calls : List (BucketCall b)) :
    b.Mirrors (b.token.final calls .absent) (b.leaky.final calls .absent) ∧
      b.token.observe LimitReply.decision calls .absent =
        b.leaky.observe LimitReply.decision calls .absent :=
  Machine.simulate (fun c _ _ h => h.call c) .absent calls

theorem Mirrors.observe_kept (h : b.Mirrors k l) (calls : List (BucketCall b)) :
    b.tokenKept.observe LimitReply.decision calls k =
      b.leakyKept.observe LimitReply.decision calls l :=
  (Machine.simulate (R := b.Mirrors) (fun c _ _ h => h.kept c) h calls).2

/-- **Same decisions**: the two scripts, executed on the same calls from absent
keys, keep their buckets mirrored, with equal timestamps and equal expiry, and
answer every call with the same decision and the same time to wait. -/
theorem leaky_mirrors_token (b : BucketLimit) (calls : List (BucketCall b)) :
    b.Mirrors (b.token.final calls .absent) (b.leaky.final calls .absent) ∧
      (b.token.trace calls .absent).map (fun e => e.2.decision) =
        (b.leaky.trace calls .absent).map (fun e => e.2.decision) := by
  obtain ⟨hfinal, hobs⟩ := b.mirrors_run calls
  refine ⟨hfinal, ?_⟩
  rw [← Machine.map_snd_observe, ← Machine.map_snd_observe, hobs]

end BucketLimit

end Distsync
