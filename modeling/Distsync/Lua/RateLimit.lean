import Distsync.Redis.Slot
import Distsync.Redis.Reply
import Distsync.Redis.ZSet
import Distsync.Redis.Member
import Mathlib.Data.Rat.Floor

/-!
# Distsync.Lua.RateLimit

The scripts of the rate limiters: `ratelimit.lua` (token bucket),
`ratelimit_leaky.lua` (leaky bucket), `ratelimit_fixed.lua` (fixed window) and
`ratelimit_sliding.lua` (sliding window log).

Lua numbers that count tokens are rationals here, without the rounding of a
double, and whole numbers integers.
The counter of a fixed window is a Redis integer, and the script that compares
it with the limit sees the nearest double.
-/

namespace Distsync

open Redis

/-- `{ allowed, remaining, retry_after_ms }`. -/
structure LimitReply where
  allowed : Bool
  remaining : Int
  retryAfterMs : Int
deriving DecidableEq

/-- What `allow` makes of an answer. -/
def LimitReply.decision (r : LimitReply) : Bool × Int := (r.allowed, r.retryAfterMs)

/-- How Redis returns a Lua number: without its fraction. -/
def truncate (q : ℚ) : Int := q.num.tdiv q.den

/-- `HSET` of all fields of a hash; the TTL stays. -/
def hset (fields : α) (k : Slot α) : Slot α := .present fields k.deadline

/-! ## Buckets -/

/-- The hash of `ratelimit.lua`. -/
structure TokenBucket where
  tokens : ℚ
  ts : Int
deriving DecidableEq

/-- The hash of `ratelimit_leaky.lua`. -/
structure LeakyBucket where
  level : ℚ
  ts : Int
deriving DecidableEq

/-- How long an idle bucket is kept. -/
def bucketTtl (capacity rate : ℚ) : Int := ⌈capacity / rate * 1000⌉ + 1000

/-- What a bucket gains or loses in the time between two timestamps. -/
def flow (rate : ℚ) (ts now : Int) : ℚ := ((now - ts : Int) : ℚ) / 1000 * rate

/-- The tokens that a call finds. -/
def refilled (capacity rate : ℚ) (now : Int) (k : Slot TokenBucket) : ℚ :=
  let tokens := (k.get.map TokenBucket.tokens).getD capacity
  let ts := (k.get.map TokenBucket.ts).getD now
  let refilled := tokens + flow rate ts now
  if refilled > capacity then capacity else refilled

/-- `ratelimit.lua`. -/
def ratelimit (t : Int) (capacity rate : ℚ) (now : Int) (requested : ℚ) (k : Slot TokenBucket) :
    Slot TokenBucket × LimitReply :=
  let refilled := refilled capacity rate now k
  let remaining := if refilled ≥ requested then refilled - requested else refilled
  let reply :=
    if refilled ≥ requested then ⟨true, truncate remaining, 0⟩
    else ⟨false, truncate remaining, ⌈(requested - refilled) / rate * 1000⌉⟩
  ((hset ⟨remaining, now⟩ k).pexpire t (bucketTtl capacity rate), reply)

/-- The level that a call finds. -/
def drained (rate : ℚ) (now : Int) (k : Slot LeakyBucket) : ℚ :=
  let level := (k.get.map LeakyBucket.level).getD 0
  let ts := (k.get.map LeakyBucket.ts).getD now
  let drained := level - flow rate ts now
  if drained < 0 then 0 else drained

/-- `ratelimit_leaky.lua`. -/
def ratelimitLeaky (t : Int) (capacity rate : ℚ) (now : Int) (requested : ℚ)
    (k : Slot LeakyBucket) : Slot LeakyBucket × LimitReply :=
  let drained := drained rate now k
  let newLevel := drained + requested
  -- rejected work never enters the bucket
  let level := if newLevel ≤ capacity then newLevel else drained
  let reply :=
    if newLevel ≤ capacity then ⟨true, 0, 0⟩
    else ⟨false, 0, ⌈(newLevel - capacity) / rate * 1000⌉⟩
  ((hset ⟨level, now⟩ k).pexpire t (bucketTtl capacity rate), reply)

/-! ## Fixed window -/

/-- `ratelimit_fixed.lua`; an error of `INCRBY` or `DECRBY` ends it. -/
def ratelimitFixed (t : Int) (limit : ℚ) (windowMs now : Int) (requested : Nat) (k : Slot Int) :
    Slot Int × Option LimitReply :=
  let w := ⌊(now : ℚ) / windowMs⌋
  match k.incrBy requested with
  | none => (k, none)
  | some (k, count) =>
      let k := k.pexpire t (windowMs * 2)
      let retryMs := (w + 1) * windowMs - now
      if (intToDouble count : ℚ) > limit then
        -- rejected requests are rolled back
        match k.incrBy (-requested) with
        | none => (k, none)
        | some (k, _) => (k, some ⟨false, 0, retryMs⟩)
      else (k, some ⟨true, truncate (limit - intToDouble count), retryMs⟩)

/-! ## Sliding window -/

/-- The request timestamps of a window. -/
abbrev WindowLog := ZSet String Int

/-- The entry of one unit of a call. -/
def windowMember (memberPrefix : String) (i : Nat) : String := memberPrefix ++ ":" ++ toString i

/-- `ratelimit_sliding.lua`. -/
def ratelimitSliding (t : Int) (limit : ℚ) (windowMs now : Int) (requested : Nat)
    (memberPrefix : String) (k : Slot WindowLog) : Slot WindowLog × LimitReply :=
  let k := k.modify (·.remUpTo (now - windowMs))
  let used := k.contents.card
  if (used : ℚ) + requested > limit then
    let retryMs :=
      match k.contents.entries.head? with
      | some oldest => windowMs - (now - oldest.2)
      | none => windowMs
    (k.pexpire t (windowMs * 2), ⟨false, 0, retryMs⟩)
  else
    let members := (List.range requested).map (windowMember memberPrefix)
    ((k.modify (·.addAll members now)).pexpire t (windowMs * 2),
      ⟨true, truncate (limit - used - requested), 0⟩)

end Distsync
