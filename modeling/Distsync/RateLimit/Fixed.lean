import Distsync.Keys
import Distsync.Lua.RateLimit
import Distsync.Trans.Machine
import Mathlib.Algebra.BigOperators.Group.List.Basic
import Mathlib.Algebra.Order.Field.Rat
import Mathlib.Tactic.Linarith
import Mathlib.Tactic.Ring

/-!
# Distsync.RateLimit.Fixed

The fixed window over whole runs.

There is one counter for each window, under a key that Go makes of the window's
index; Lua computes the index once more for the time to wait.  A call adds its
count first and takes it back if the counter has passed the capacity, so the
counter may be off by one call while the script runs, and is exact before and
after (`fixed_accounting`).

With a capacity below `2 ^ 53` the sum of a counter and a call stays far below
the largest Redis integer, and rounding it to a double does not move it across
the capacity.
-/

namespace Distsync

open Redis Trans

/-- A fixed window as `Client.RateLimiter` makes it. -/
structure FixedLimit where
  key : List UInt8
  capacity : ℚ
  windowMs : Int
  one_le_capacity : 1 ≤ capacity
  capacity_le : capacity ≤ 2 ^ 53 - 1
  one_le_windowMs : 1 ≤ windowMs

/-- A call as `Allow` sends it, executed at server time `time`. -/
structure FixedCall (f : FixedLimit) where
  time : Int
  now : Int
  requested : Nat
  one_le_requested : 1 ≤ requested
  requested_le : (requested : ℚ) ≤ f.capacity

/-- The call is executed at most a window after its timestamp, by one clock. -/
structure FixedCall.Prompt {f : FixedLimit} (c : FixedCall f) : Prop where
  now_nonneg : 0 ≤ c.now
  now_le_time : c.now ≤ c.time
  time_le : c.time ≤ c.now + f.windowMs

namespace FixedLimit

/-- Counters by their keys. -/
abbrev Counters := List UInt8 → Slot Int

/-- No key exists. -/
def noCounters : Counters := fun _ => .absent

variable (f : FixedLimit)

/-- The key of a window. -/
def windowKey (w : Int) : List UInt8 := fixedWindowKey f.key w

/-- `fixedWindowKey` of a timestamp. -/
def keyAt (now : Int) : List UInt8 := f.windowKey (now.tdiv f.windowMs)

/-- The script on the counter of a call. -/
def count (c : FixedCall f) (k : Slot Int) : Slot Int × Option LimitReply :=
  ratelimitFixed c.time f.capacity f.windowMs c.now c.requested k

/-- `ratelimit_fixed.lua` on the keys of one limiter. -/
def fixed : Machine Counters (FixedCall f) (Option LimitReply) := fun c s =>
  let r := f.count c ((s (f.keyAt c.now)).evict c.time)
  (Function.update s (f.keyAt c.now) r.1, r.2)

/-- `ratelimit_fixed.lua` on keys that never expire. -/
def fixedKept : Machine Counters (FixedCall f) (Option LimitReply) := fun c s =>
  let r := f.count c (s (f.keyAt c.now))
  (Function.update s (f.keyAt c.now) r.1, r.2)

/-- Calls with their answers, in the order of execution. -/
abbrev History := List (FixedCall f × Option LimitReply)

/-- The count admitted with timestamps in window `w`. -/
def admitted (w : Int) (h : f.History) : Nat :=
  ((h.filter fun e => e.2.map LimitReply.allowed = some true ∧ w * f.windowMs ≤ e.1.now ∧
    e.1.now < (w + 1) * f.windowMs).map fun e => e.1.requested).sum

/-- The time to wait that a call is told. -/
def retryMs (c : FixedCall f) : Int := (⌊(c.now : ℚ) / f.windowMs⌋ + 1) * f.windowMs - c.now

variable {f}

/-! ## One call -/

/-- What the script does to a counter, by the counter's value. -/
theorem count_eq (c : FixedCall f) (k : Slot Int) :
    f.count c k =
      let v := k.get.getD 0
      let d := some (c.time + f.windowMs * 2)
      if Slot.Int64 (v + c.requested) then
        if (intToDouble (v + c.requested) : ℚ) > f.capacity then
          if Slot.Int64 v then (.present v d, some ⟨false, 0, f.retryMs c⟩)
          else (.present (v + c.requested) d, none)
        else
          (.present (v + c.requested) d,
            some ⟨true, truncate (f.capacity - intToDouble (v + c.requested)), f.retryMs c⟩)
      else (k, none) := by
  have hw := f.one_le_windowMs
  have hback : k.get.getD 0 + c.requested + -(c.requested : Int) = k.get.getD 0 := by omega
  simp only [count, ratelimitFixed, Slot.incrBy]
  by_cases hfits : Slot.Int64 (k.get.getD 0 + c.requested)
  · simp only [if_pos hfits, Slot.pexpire, if_neg (show ¬f.windowMs * 2 ≤ 0 by omega)]
    by_cases hover : (intToDouble (k.get.getD 0 + c.requested) : ℚ) > f.capacity
    · simp only [if_pos hover, Slot.get_present, Option.getD_some, Slot.deadline_present, hback]
      by_cases hv : Slot.Int64 (k.get.getD 0)
      · simp only [if_pos hv]
        rfl
      · simp only [if_neg hv]
    · simp only [if_neg hover]
      rfl
  · simp only [if_neg hfits]

/-- Rounding does not move a count across the capacity. -/
theorem intToDouble_gt_iff (h : 0 ≤ n) : (intToDouble n : ℚ) > f.capacity ↔ (n : ℚ) > f.capacity := by
  have hcap := f.capacity_le
  rcases intToDouble_cases h with heq | ⟨hle, hle'⟩
  · rw [heq]
  · have hn : ((2 ^ 53 : Int) : ℚ) ≤ n := Int.cast_le.mpr hle
    have hn' : ((2 ^ 53 : Int) : ℚ) ≤ intToDouble n := Int.cast_le.mpr hle'
    push_cast at hn hn'
    constructor <;> intro _ <;> linarith

/-- On a counter within the capacity there is no overflow, and the decision is
the exact one. -/
theorem count_of_le (c : FixedCall f) {k : Slot Int} {v : Nat} (hk : k.get.getD 0 = v)
    (hv : (v : ℚ) ≤ f.capacity) :
    ∃ r, f.count c k = (.present (if r.allowed then v + c.requested else v : Nat)
        (some (c.time + f.windowMs * 2)), some r) ∧
      (r.allowed = true ↔ (v : ℚ) + c.requested ≤ f.capacity) ∧ r.retryAfterMs = f.retryMs c := by
  have hcap := f.capacity_le
  have hreq := c.requested_le
  have hsum : (v : Int) + c.requested < 2 ^ 63 := by
    have hsum : ((v : Int) + c.requested : ℚ) < ((2 ^ 63 : Int) : ℚ) := by
      push_cast
      linarith
    exact_mod_cast hsum
  have hfits : Slot.Int64 ((v : Int) + c.requested) := ⟨by omega, hsum⟩
  have hfits' : Slot.Int64 v := ⟨by omega, by omega⟩
  have hover := intToDouble_gt_iff (f := f) (n := (v : Int) + c.requested) (by omega)
  push_cast at hover
  rw [count_eq, hk]
  simp only [if_pos hfits, if_pos hfits']
  by_cases hroom : (v : ℚ) + c.requested > f.capacity
  · rw [if_pos (hover.mpr hroom)]
    exact ⟨⟨false, 0, f.retryMs c⟩, rfl, by simpa using hroom, rfl⟩
  · rw [if_neg (mt hover.mp hroom)]
    exact ⟨⟨true, _, f.retryMs c⟩, rfl, by simpa using hroom, rfl⟩

/-! ## Windows -/

/-- The window of a timestamp, as Go and as Lua compute its index. -/
theorem window_iff (hnow : 0 ≤ now) :
    (w * f.windowMs ≤ now ∧ now < (w + 1) * f.windowMs) ↔ now.tdiv f.windowMs = w := by
  have hw := f.one_le_windowMs
  rw [Int.tdiv_eq_ediv_of_nonneg hnow, ← Int.le_ediv_iff_mul_le (by omega),
    ← Int.ediv_lt_iff_lt_mul (by omega)]
  omega

theorem floor_div_eq {now : Int} (hnow : 0 ≤ now) : ⌊(now : ℚ) / f.windowMs⌋ = now.tdiv f.windowMs := by
  have hw := f.one_le_windowMs
  obtain ⟨hle, hlt⟩ := (window_iff (f := f) hnow).mpr rfl
  have hpos : (0 : ℚ) < f.windowMs := by exact_mod_cast hw
  rw [Int.floor_eq_iff, le_div_iff₀ hpos, div_lt_iff₀ hpos]
  exact ⟨by exact_mod_cast hle, by exact_mod_cast hlt⟩

theorem admitted_append (w : Int) (h h' : f.History) :
    f.admitted w (h ++ h') = f.admitted w h + f.admitted w h' := by
  simp [admitted]

theorem admitted_singleton {c : FixedCall f} (hnow : 0 ≤ c.now) (w : Int) (r : LimitReply) :
    f.admitted w [(c, some r)] =
      if r.allowed = true ∧ c.now.tdiv f.windowMs = w then c.requested else 0 := by
  simp only [admitted, List.filter_cons, List.filter_nil, Option.map_some, Option.some_inj,
    window_iff hnow, decide_eq_true_eq]
  split <;> simp

/-! ## Whole runs -/

/-- Every counter holds what its window has admitted, which is within the
capacity, and outlives the calls of its window. -/
structure Accounted (h : f.History) (s : Counters) : Prop where
  counter : ∀ w, (s (f.windowKey w)).get.getD 0 = f.admitted w h
  le_capacity : ∀ w, (f.admitted w h : ℚ) ≤ f.capacity
  lasting : ∀ w now t, w * f.windowMs ≤ now → now < (w + 1) * f.windowMs →
    t ≤ now + f.windowMs → (s (f.windowKey w)).evict t = s (f.windowKey w)

theorem accounted_nil : Accounted (f := f) [] noCounters := by
  refine ⟨fun w => rfl, fun w => ?_, fun _ _ _ _ _ _ => rfl⟩
  have hcap := f.one_le_capacity
  simp only [admitted, List.filter_nil, List.map_nil, List.sum_nil, Nat.cast_zero]
  linarith

namespace Accounted

variable {h : f.History} {s : Counters} {c : FixedCall f}

/-- A call finds its counter. -/
theorem unexpired (ha : Accounted h s) (hc : c.Prompt) :
    (s (f.keyAt c.now)).evict c.time = s (f.keyAt c.now) := by
  obtain ⟨hle, hlt⟩ := (window_iff (f := f) hc.now_nonneg).mpr rfl
  exact ha.lasting _ c.now c.time hle hlt hc.time_le

/-- What a call does, by what its window has admitted. -/
theorem fixed_eq (ha : Accounted h s) (hc : c.Prompt) :
    let v := f.admitted (c.now.tdiv f.windowMs) h
    ∃ r, f.fixed c s = (Function.update s (f.keyAt c.now)
        (.present (if r.allowed then v + c.requested else v : Nat)
          (some (c.time + f.windowMs * 2))), some r) ∧
      (r.allowed = true ↔ (v : ℚ) + c.requested ≤ f.capacity) ∧ r.retryAfterMs = f.retryMs c := by
  obtain ⟨r, hr, hiff, hretry⟩ := count_of_le c (ha.counter _) (ha.le_capacity _)
  refine ⟨r, ?_, hiff, hretry⟩
  rw [fixed, ha.unexpired hc, keyAt, hr]

/-- A call extends the account. -/
theorem call (ha : Accounted h s) (hc : c.Prompt) :
    Accounted (h ++ [(c, (f.fixed c s).2)]) (f.fixed c s).1 := by
  have hw := f.one_le_windowMs
  obtain ⟨r, hr, hiff, -⟩ := ha.fixed_eq hc
  have hsum (w : Int) : f.admitted w (h ++ [(c, some r)]) = f.admitted w h +
      if r.allowed = true ∧ c.now.tdiv f.windowMs = w then c.requested else 0 := by
    rw [admitted_append, admitted_singleton hc.now_nonneg]
  have hother {w : Int} (hne : c.now.tdiv f.windowMs ≠ w) : f.windowKey w ≠ f.keyAt c.now :=
    fun he => hne (fixedWindowKey_inj.mp he).symm
  rw [hr]
  refine ⟨fun w => ?_, fun w => ?_, fun w now t hle hlt ht => ?_⟩
  · rw [hsum]
    by_cases hi : c.now.tdiv f.windowMs = w
    · subst hi
      cases r.allowed <;> simp [keyAt]
    · simp [Function.update_of_ne (hother hi), ha.counter w, hi]
  · rw [hsum]
    by_cases hi : r.allowed = true ∧ c.now.tdiv f.windowMs = w
    · obtain ⟨hadm, rfl⟩ := hi
      simpa [hadm] using hiff.mp hadm
    · simpa [hi] using ha.le_capacity w
  · by_cases hi : c.now.tdiv f.windowMs = w
    · -- the key was touched no earlier than its window began
      obtain ⟨hle', -⟩ := (window_iff (f := f) hc.now_nonneg).mpr hi
      have htime := hc.now_le_time
      have hlive : ¬c.time + f.windowMs * 2 < t := by
        rw [Int.add_mul] at hlt
        omega
      subst hi
      simp [keyAt, Slot.evict, hlive]
    · simp only [Function.update_of_ne (hother hi)]
      exact ha.lasting w now t hle hlt ht

end Accounted

theorem accounted_run {calls : List (FixedCall f)} (hprompt : ∀ c ∈ calls, c.Prompt) :
    Accounted (f.fixed.trace calls noCounters) (f.fixed.final calls noCounters) :=
  f.fixed.trace_invariant accounted_nil (fun _ _ _ ha hc => ha.call hc) hprompt

theorem retryMs_spec {c : FixedCall f} (hnow : 0 ≤ c.now) :
    0 < f.retryMs c ∧ f.retryMs c ≤ f.windowMs ∧
      c.now + f.retryMs c = (c.now.tdiv f.windowMs + 1) * f.windowMs := by
  obtain ⟨hle, hlt⟩ := (window_iff (f := f) hnow).mpr rfl
  rw [retryMs, floor_div_eq hnow]
  rw [Int.add_mul] at hlt ⊢
  omega

/-- **Accounting**: in a run of prompt calls, in any order,

* no call overflows its counter, which has not expired; a call is admitted
  exactly when the counter and its count are within the capacity; a rejected
  call leaves the counter as it was; and the time to wait is positive, at most
  a window, and ends where the window of its key ends;
* every counter holds what was admitted with timestamps in its window, at most
  the capacity, and does not expire while a call with such a timestamp can
  still be executed. -/
theorem fixed_accounting {calls : List (FixedCall f)} (hprompt : ∀ c ∈ calls, c.Prompt) :
    (∀ earlier c later, calls = earlier ++ c :: later →
      let s := f.fixed.final earlier noCounters
      let key := f.keyAt c.now
      (s key).evict c.time = s key ∧
      ∃ r, (f.fixed c s).2 = some r ∧
        (r.allowed = true ↔ ((s key).get.getD 0 : ℚ) + c.requested ≤ f.capacity) ∧
        (r.allowed = false → ((f.fixed c s).1 key).get.getD 0 = (s key).get.getD 0) ∧
        0 < r.retryAfterMs ∧ r.retryAfterMs ≤ f.windowMs ∧
        c.now + r.retryAfterMs = (c.now.tdiv f.windowMs + 1) * f.windowMs) ∧
    ∀ w, let k := f.fixed.final calls noCounters (f.windowKey w)
      let total := f.admitted w (f.fixed.trace calls noCounters)
      k.get.getD 0 = total ∧ (total : ℚ) ≤ f.capacity ∧
        ∀ now t, w * f.windowMs ≤ now → now < (w + 1) * f.windowMs → t ≤ now + f.windowMs →
          k.evict t = k := by
  refine ⟨?_, fun w => ?_⟩
  · rintro earlier c later rfl s key
    have hc : c.Prompt := hprompt c (by simp)
    have ha := accounted_run (f := f) fun e he => hprompt e (List.mem_append_left _ he)
    have hcounter : (s key).get.getD 0 = _ := ha.counter _
    obtain ⟨r, hr, hiff, hretry⟩ := ha.fixed_eq hc
    refine ⟨ha.unexpired hc, r, congrArg Prod.snd hr, ?_, ?_, ?_⟩
    · rw [hcounter, hiff]
      simp
    · intro hrej
      rw [hr, hcounter]
      simp [key, hrej]
    · rw [hretry]
      exact retryMs_spec hc.now_nonneg
  · have ha := accounted_run hprompt
    exact ⟨ha.counter w, ha.le_capacity w, ha.lasting w⟩

/-- The largest capacity, used up by one call.  The counter passes `2 ^ 53`
while the second is rejected, by an odd sum that is no double. -/
theorem fixed_accounting_overshoot :
    let f : FixedLimit := ⟨[], 2 ^ 53 - 1, 1000, by decide +kernel, by decide +kernel, by decide⟩
    let calls : List (FixedCall f) :=
      [⟨0, 0, 2 ^ 53 - 1, by decide, by decide +kernel⟩,
        ⟨5, 3, 2 ^ 53 - 2, by decide, by decide +kernel⟩,
        ⟨1700, 1000, 1, by decide, by decide +kernel⟩]
    (f.fixed.trace calls noCounters).map (fun e => e.2.map LimitReply.decision) =
        [some (true, 1000), some (false, 997), some (true, 1000)] ∧
      (f.fixed.final calls noCounters (f.windowKey 0)).get.getD 0 =
        f.admitted 0 (f.fixed.trace calls noCounters) := by
  intro f calls
  have hprompt : ∀ c ∈ calls, c.Prompt := by
    simp only [calls, List.forall_mem_cons]
    refine ⟨⟨?_, ?_, ?_⟩, ⟨?_, ?_, ?_⟩, ⟨?_, ?_, ?_⟩, by simp⟩ <;> decide
  exact ⟨by decide +kernel, ((fixed_accounting hprompt).2 0).1⟩

end FixedLimit

end Distsync
