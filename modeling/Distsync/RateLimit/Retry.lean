import Distsync.RateLimit.Kept

/-!
# Distsync.RateLimit.Retry

What a rejected caller is told to wait, against when the same request would be
admitted if nobody else calls in the meantime.  `RateLimiter.Acquire` sleeps
exactly that long.

The buckets and the fixed window tell the truth (`retry_after_exact`).  The
sliding window looks at its oldest unit only: the time is right if the units
stamped later leave room for the request (`retry_after_sliding`).
-/

namespace Distsync

open Redis Trans

/-- `c'` is the request of `c` made again.  In between the server's clock has
gained at most `slack` on the timestamps. -/
structure Again (now time : ι → Int) (requested : ι → α) (slack : Int) (c c' : ι) : Prop where
  same : requested c' = requested c
  now_le : now c ≤ now c'
  time_le : time c' - time c ≤ now c' - now c + slack

/-- A caller that was told to wait for `retry` is admitted exactly from then on
if it makes its request again. -/
def RetryExact (M : Machine σ ι ο) (allowed : ο → Bool) (now : ι → Int) (Again : ι → ι → Prop)
    (c : ι) (s : σ) (retry : Int) : Prop :=
  0 < retry ∧ ∀ c', Again c c' → (allowed (M c' (M c s).1).2 = true ↔ now c + retry ≤ now c')

/-! ## Buckets -/

namespace BucketLimit

variable {b : BucketLimit}

/-- What is missing flows in within the time to wait, and not before. -/
theorem le_add_flow_iff (b : BucketLimit) (requested found : ℚ) (ts now : Int) :
    requested ≤ found + flow b.rate ts now ↔
      ts + ⌈(requested - found) / b.rate * 1000⌉ ≤ now := by
  have hrate := b.rate_pos
  rw [← le_sub_iff_add_le', Int.ceil_le, ← le_div_iff₀ (by norm_num), div_le_iff₀ hrate,
    sub_le_iff_le_add', flow]

/-- A bucket that a rejected call has left admits the call again when the time
to wait is over. -/
theorem again_iff {c c' : BucketCall b} {k : Slot TokenBucket} {found : ℚ}
    (hk : k = .present ⟨found, c.now⟩ (some (c.time + bucketTtl b.capacity b.rate)))
    (hnonneg : 0 ≤ found)
    (hagain : Again BucketCall.now BucketCall.time BucketCall.requested 1000 c c') :
    (b.token c' k).2.allowed = true ↔
      c.now + ⌈(c.requested - found) / b.rate * 1000⌉ ≤ c'.now := by
  have hlast := hagain.time_le
  have hreq := c.requested_le
  rw [token_allowed_iff, BucketLimit.found, hk, hagain.same, ← le_add_flow_iff]
  rcases Slot.evict_eq c'.time (.present (⟨found, c.now⟩ : TokenBucket)
    (some (c.time + bucketTtl b.capacity b.rate))) with heq | heq
  · rw [heq, refilled_present, le_min_iff]
    exact and_iff_right hreq
  · -- the key is gone, so the bucket is full
    obtain ⟨e, he, hlt⟩ := Slot.evict_eq_absent_iff.mp heq
    cases he
    have hfull : b.capacity ≤ flow b.rate c.now c'.now := capacity_le_flow (by omega)
    rw [heq, refilled_absent]
    exact iff_of_true hreq (by linarith)

/-- The same request, for a bucket. -/
abbrev Repeats : BucketCall b → BucketCall b → Prop :=
  Again BucketCall.now BucketCall.time BucketCall.requested 1000

theorem solvent_run {earlier : List (BucketCall b)} {c : BucketCall b}
    (hord : (earlier ++ [c]).Pairwise fun c c' => c.now ≤ c'.now) :
    ∃ since, since ≤ c.now ∧ Solvent since (b.token.final earlier .absent) := by
  obtain ⟨since, hsince⟩ := Machine.exists_le_of_ordered hord
  have hinit : Solvent since .absent := trivial
  exact Machine.final_ordered (fun _ c _ h hc => (h.evict c.time).call hc) hinit hsince hord

theorem token_retry {earlier : List (BucketCall b)} {c : BucketCall b}
    (hord : (earlier ++ [c]).Pairwise fun c c' => c.now ≤ c'.now)
    (hrej : (b.token c (b.token.final earlier .absent)).2.decision = (false, retry)) :
    RetryExact b.token LimitReply.allowed BucketCall.now Repeats c
      (b.token.final earlier .absent) retry := by
  obtain ⟨since, hsince, hsolvent⟩ := solvent_run hord
  generalize b.token.final earlier .absent = k at hrej hsolvent ⊢
  obtain ⟨hdecision, hleft⟩ := tokenKept_cases c (k.evict c.time)
  have hnonneg : 0 ≤ refilled b.capacity b.rate c.now (k.evict c.time) :=
    (hsolvent.evict c.time).refilled_nonneg hsince
  have hverdict := hdecision.symm.trans hrej
  rw [verdict] at hverdict
  split at hverdict
  · cases congrArg Prod.fst hverdict
  · next hlow =>
    cases hverdict
    rw [remaining, if_neg hlow] at hleft
    refine ⟨?_, fun c' hagain => again_iff hleft hnonneg hagain⟩
    have hrate := b.rate_pos
    have hmissing : 0 < c.requested - refilled b.capacity b.rate c.now (k.evict c.time) :=
      sub_pos.mpr (not_le.mp hlow)
    exact Int.ceil_pos.mpr (by positivity)

theorem leaky_retry {earlier : List (BucketCall b)} {c : BucketCall b}
    (hord : (earlier ++ [c]).Pairwise fun c c' => c.now ≤ c'.now)
    (hrej : (b.leaky c (b.leaky.final earlier .absent)).2.decision = (false, retry)) :
    RetryExact b.leaky LimitReply.allowed BucketCall.now Repeats c
      (b.leaky.final earlier .absent) retry := by
  obtain ⟨hnext, hdecision⟩ := (b.mirrors_run earlier).1.call c
  obtain ⟨hpos, hexact⟩ := token_retry hord (hdecision.trans hrej)
  refine ⟨hpos, fun c' hagain => ?_⟩
  have hallowed : (b.token c' _).2.allowed = (b.leaky c' _).2.allowed :=
    congrArg Prod.fst (hnext.call c').2
  rw [← hallowed]
  exact hexact c' hagain

end BucketLimit

/-! ## Fixed window -/

namespace FixedLimit

variable {f : FixedLimit}

/-- Counters are within the capacity, and no window later than that of `since`
has one. -/
structure Within (f : FixedLimit) (since : Int) (s : Counters) : Prop where
  le_capacity : ∀ key, ∃ v : Nat, (s key).get.getD 0 = v ∧ (v : ℚ) ≤ f.capacity
  untouched : ∀ w, since.tdiv f.windowMs < w → s (f.windowKey w) = .absent

/-- What a call does, by what it finds. -/
theorem Within.fixed_eq (h : f.Within since s) (c : FixedCall f) :
    ∃ (v : Nat) (r : LimitReply), (v : ℚ) ≤ f.capacity ∧
      ((s (f.keyAt c.now)).evict c.time).get.getD 0 = v ∧
      f.fixed c s = (Function.update s (f.keyAt c.now)
        (.present (if r.allowed then v + c.requested else v : Nat)
          (some (c.time + f.windowMs * 2))), some r) ∧
      (r.allowed = true ↔ (v : ℚ) + c.requested ≤ f.capacity) ∧ r.retryAfterMs = f.retryMs c := by
  have hcap := f.one_le_capacity
  have hfound : ∃ v : Nat, ((s (f.keyAt c.now)).evict c.time).get.getD 0 = v ∧
      (v : ℚ) ≤ f.capacity := by
    rcases Slot.evict_eq c.time (s (f.keyAt c.now)) with heq | heq
    · rw [heq]
      exact h.le_capacity _
    · rw [heq]
      exact ⟨0, rfl, by push_cast; linarith⟩
  obtain ⟨v, hv, hle⟩ := hfound
  obtain ⟨r, hr, hiff, hretry⟩ := count_of_le c hv hle
  exact ⟨v, r, hle, hv, by rw [fixed, hr], hiff, hretry⟩

theorem Within.call (h : f.Within since s) {c : FixedCall f} (hc : since ≤ c.now) :
    f.Within c.now (f.fixed c s).1 := by
  have hw := f.one_le_windowMs
  obtain ⟨v, r, hle, -, hr, hiff, -⟩ := h.fixed_eq c
  rw [hr]
  refine ⟨fun key => ?_, fun w hlt => ?_⟩
  · by_cases hkey : key = f.keyAt c.now
    · subst hkey
      refine ⟨if r.allowed then v + c.requested else v, by simp, ?_⟩
      split
      · next hadm => exact_mod_cast hiff.mp hadm
      · exact hle
    · simpa [hkey] using h.le_capacity key
  · have hne : f.windowKey w ≠ f.keyAt c.now := fun he => by
      have := fixedWindowKey_inj.mp he
      omega
    have hle := Int.tdiv_le_tdiv (show 0 < f.windowMs by omega) hc
    simpa [hne] using h.untouched w (by omega)

theorem within_run {earlier : List (FixedCall f)} {c : FixedCall f}
    (hord : (earlier ++ [c]).Pairwise fun c c' => c.now ≤ c'.now) :
    ∃ since, since ≤ c.now ∧ f.Within since (f.fixed.final earlier noCounters) := by
  have hcap := f.one_le_capacity
  obtain ⟨since, hsince⟩ := Machine.exists_le_of_ordered hord
  have hinit : f.Within since noCounters :=
    ⟨fun _ => ⟨0, rfl, by push_cast; linarith⟩, fun _ _ => rfl⟩
  exact Machine.final_ordered (fun _ _ _ h hc => h.call hc) hinit hsince hord

/-- The time to wait ends where the window of the key ends. -/
theorem retry_le_iff {c : FixedCall f} (hnow : 0 ≤ c.now) (hle : c.now ≤ now) :
    c.now + f.retryMs c ≤ now ↔ c.now.tdiv f.windowMs ≠ now.tdiv f.windowMs := by
  have hw := f.one_le_windowMs
  have hmono := Int.tdiv_le_tdiv (show 0 < f.windowMs by omega) hle
  obtain ⟨hstart, hend⟩ := (window_iff (f := f) (hnow.trans hle)).mpr rfl
  rw [(retryMs_spec hnow).2.2]
  constructor
  · intro hover heq
    rw [heq] at hover
    omega
  · intro hne
    have hnext : c.now.tdiv f.windowMs + 1 ≤ now.tdiv f.windowMs := by omega
    exact (Int.mul_le_mul_of_nonneg_right hnext (by omega)).trans hstart

/-- The same request, for a fixed window. -/
abbrev Repeats : FixedCall f → FixedCall f → Prop :=
  Again FixedCall.now FixedCall.time FixedCall.requested f.windowMs

/-- A rejected call leaves its counter, which has no room for it. -/
theorem Within.rejected (h : f.Within since s) {c : FixedCall f}
    (hrej : (f.fixed c s).2.map LimitReply.decision = some (false, retry)) :
    retry = f.retryMs c ∧ ∃ v : Nat, ¬(v : ℚ) + c.requested ≤ f.capacity ∧
      (f.fixed c s).1 (f.keyAt c.now) = .present (v : Int) (some (c.time + f.windowMs * 2)) := by
  obtain ⟨v, r, -, -, hr, hiff, hretry⟩ := h.fixed_eq c
  rw [hr, Option.map_some, Option.some_inj, LimitReply.decision, Prod.mk.injEq] at hrej
  obtain ⟨hrej, rfl⟩ := hrej
  refine ⟨hretry, v, mt hiff.mpr (by simp [hrej]), ?_⟩
  simp [hr, hrej]

theorem fixed_retry {earlier : List (FixedCall f)} {c : FixedCall f}
    (hord : (earlier ++ [c]).Pairwise fun c c' => c.now ≤ c'.now) (hnow : 0 ≤ c.now)
    (hrej : (f.fixed c (f.fixed.final earlier noCounters)).2.map LimitReply.decision =
      some (false, retry)) :
    RetryExact f.fixed (Option.any LimitReply.allowed) FixedCall.now Repeats c
      (f.fixed.final earlier noCounters) retry := by
  obtain ⟨since, hsince, hwithin⟩ := within_run hord
  obtain ⟨rfl, v, hfull, hcounter⟩ := hwithin.rejected hrej
  have hnext := hwithin.call hsince
  refine ⟨(retryMs_spec hnow).1, fun c' hagain => ?_⟩
  generalize (f.fixed c (f.fixed.final earlier noCounters)).1 = s at hcounter hnext ⊢
  obtain ⟨v', r', -, hv', hr', hiff', -⟩ := hnext.fixed_eq c'
  rw [hr', retry_le_iff hnow hagain.now_le]
  change r'.allowed = true ↔ _
  rw [hiff', hagain.same]
  by_cases hsame : c.now.tdiv f.windowMs = c'.now.tdiv f.windowMs
  · -- the key has not expired, and its counter is as it was
    have hspan : c'.now < c.now + f.windowMs := by
      have hend := mt (retry_le_iff hnow hagain.now_le).mp (not_not.mpr hsame)
      have := (retryMs_spec hnow).2.1
      omega
    have hlast := hagain.time_le
    have hlive : ¬c.time + f.windowMs * 2 < c'.time := by omega
    have hkey : f.keyAt c'.now = f.keyAt c.now := by rw [keyAt, keyAt, hsame]
    rw [hkey, hcounter, Slot.evict, if_neg hlive] at hv'
    obtain rfl : v = v' := by simpa using hv'
    exact iff_of_false hfull (not_not.mpr hsame)
  · have hmono := Int.tdiv_le_tdiv (show 0 < f.windowMs by have := f.one_le_windowMs; omega)
      hagain.now_le
    have habsent : s (f.keyAt c'.now) = .absent := hnext.untouched _ (by omega)
    rw [habsent] at hv'
    obtain rfl : v' = 0 := Int.ofNat_eq_zero.mp hv'.symm
    refine iff_of_true ?_ hsame
    simpa using c.requested_le

end FixedLimit

/-- **Exact waits**: after any calls in the order of their timestamps, a call
that a bucket or a fixed window rejects is told a positive time; made again, it
is admitted when that time is over, and at no earlier time. -/
theorem retry_after_exact :
    (∀ (b : BucketLimit) (earlier : List (BucketCall b)) (c : BucketCall b) (retry : Int),
      (earlier ++ [c]).Pairwise (fun c c' => c.now ≤ c'.now) →
      let k := b.token.final earlier .absent
      (b.token c k).2.decision = (false, retry) →
        RetryExact b.token LimitReply.allowed BucketCall.now BucketLimit.Repeats c k retry) ∧
    (∀ (b : BucketLimit) (earlier : List (BucketCall b)) (c : BucketCall b) (retry : Int),
      (earlier ++ [c]).Pairwise (fun c c' => c.now ≤ c'.now) →
      let k := b.leaky.final earlier .absent
      (b.leaky c k).2.decision = (false, retry) →
        RetryExact b.leaky LimitReply.allowed BucketCall.now BucketLimit.Repeats c k retry) ∧
    (∀ (f : FixedLimit) (earlier : List (FixedCall f)) (c : FixedCall f) (retry : Int),
      (earlier ++ [c]).Pairwise (fun c c' => c.now ≤ c'.now) → 0 ≤ c.now →
      let s := f.fixed.final earlier FixedLimit.noCounters
      (f.fixed c s).2.map LimitReply.decision = some (false, retry) →
        RetryExact f.fixed (Option.any LimitReply.allowed) FixedCall.now FixedLimit.Repeats c s
          retry) :=
  ⟨fun _ _ _ _ hord hrej => BucketLimit.token_retry hord hrej,
    fun _ _ _ _ hord hrej => BucketLimit.leaky_retry hord hrej,
    fun _ _ _ _ hord hnow hrej => FixedLimit.fixed_retry hord hnow hrej⟩

/-- A bucket of three tokens, one per second, lacks half a token; a window of a
second ends after three hundred milliseconds. -/
theorem retry_after_exact_half_token :
    let b : BucketLimit := ⟨3, 1, by decide, by decide⟩
    let c : BucketCall b := ⟨1500, 1500, 2, by decide, by decide⟩
    let earlier : List (BucketCall b) := [⟨0, 0, 3, by decide, by decide⟩]
    let f : FixedLimit := ⟨[], 2, 1000, by decide, by decide +kernel, by decide⟩
    let c' : FixedCall f := ⟨5700, 5700, 1, by decide, by decide⟩
    let earlier' : List (FixedCall f) := [⟨5600, 5600, 2, by decide, by decide⟩]
    RetryExact b.token LimitReply.allowed BucketCall.now BucketLimit.Repeats c
        (b.token.final earlier .absent) 500 ∧
      RetryExact b.leaky LimitReply.allowed BucketCall.now BucketLimit.Repeats c
        (b.leaky.final earlier .absent) 500 ∧
      RetryExact f.fixed (Option.any LimitReply.allowed) FixedCall.now FixedLimit.Repeats c'
        (f.fixed.final earlier' FixedLimit.noCounters) 300 := by
  intro b c earlier f c' earlier'
  exact ⟨retry_after_exact.1 b earlier c 500 (by decide) (by decide +kernel),
    retry_after_exact.2.1 b earlier c 500 (by decide) (by decide +kernel),
    retry_after_exact.2.2 f earlier' c' 300 (by decide) (by decide) (by decide +kernel)⟩

/-! ## Sliding window -/

namespace WindowLimit

variable {w : WindowLimit}

/-- The same request, for a sliding window. -/
abbrev Repeats : WindowCall w → WindowCall w → Prop :=
  Again WindowCall.now WindowCall.time WindowCall.requested w.windowMs

/-- A call can be made again at any later time. -/
theorem exists_repeats (c : WindowCall w) (h : 0 ≤ wait) :
    ∃ c', Repeats c c' ∧ c'.now = c.now + wait := by
  have hpos := w.one_le_windowMs
  refine ⟨{ c with now := c.now + wait, time := c.time + wait }, ⟨rfl, ?_, ?_⟩, rfl⟩
  · change c.now ≤ c.now + wait
    omega
  · change c.time + wait - c.time ≤ c.now + wait - c.now + w.windowMs
    omega

/-- The units of a log that are stamped later than its oldest. -/
def younger (z : WindowLog) : Nat :=
  match z.entries.head? with
  | some oldest => z.countAbove oldest.2
  | none => 0

theorem past_run {earlier : List (WindowCall w)} {c : WindowCall w}
    (hord : (earlier ++ [c]).Pairwise fun c c' => c.now ≤ c'.now) :
    ∃ since, since ≤ c.now ∧ Past since (w.sliding.final earlier .absent) := by
  obtain ⟨since, hsince⟩ := Machine.exists_le_of_ordered hord
  exact Machine.final_ordered (fun _ c _ h hc => (h.evict c.time).call hc) (past_absent since)
    hsince hord

/-- A rejected call counts some unit, waits for the oldest to leave, and leaves
the log that it counted. -/
theorem rejected_spec {c : WindowCall w} {k : Slot WindowLog}
    (hrej : (w.sliding c k).2.decision = (false, retry)) :
    ∃ oldest, (counted c k).entries.head? = some oldest ∧ c.now + retry = oldest.2 + w.windowMs ∧
      c.now < c.now + retry ∧ w.limit < (counted c k).card + c.requested ∧
      (w.sliding c k).1.contents = counted c k ∧
      (w.sliding c k).1.deadline = some (c.time + w.windowMs * 2) := by
  obtain ⟨hdecision, hcontents, hdeadline⟩ := slidingKept_cases c (k.evict c.time)
  have hverdict : verdict c (counted c k) = (false, retry) := hdecision.symm.trans hrej
  have hlogged : (w.sliding c k).1.contents = counted c k := by
    refine hcontents.trans ?_
    change logged c (counted c k) = _
    simp [logged, hverdict]
  rw [verdict] at hverdict
  split at hverdict
  · next hfull =>
    obtain rfl : retryMs c (counted c k) = retry := congrArg Prod.snd hverdict
    cases hhead : (counted c k).entries.head? with
    | none =>
        -- an empty log has room for any call
        have hreq := c.requested_le
        rw [ZSet.card, List.head?_eq_none_iff.mp hhead] at hfull
        simp only [List.length_nil, Nat.cast_zero, zero_add] at hfull
        linarith
    | some oldest =>
        have hrecent : c.now - w.windowMs < oldest.2 :=
          (ZSet.mem_filter.mp (List.mem_of_head? hhead)).2
        have hretry : retryMs c (counted c k) = w.windowMs - (c.now - oldest.2) := by
          rw [retryMs, hhead]
        refine ⟨oldest, rfl, by omega, by omega, hfull, hlogged, hdeadline.resolve_left ?_⟩
        intro habsent
        rw [show (w.sliding c k).1 = .absent from habsent, Slot.contents_absent] at hlogged
        rw [← hlogged] at hhead
        contradiction
  · cases congrArg Prod.fst hverdict

/-- The call made again counts what is left of the log by then. -/
theorem again_iff {c c' : WindowCall w} {k : Slot WindowLog} (hpast : Past c.now k)
    (hdeadline : k.deadline = some (c.time + w.windowMs * 2)) (hagain : Repeats c c') :
    (w.sliding c' k).2.allowed = true ↔
      (k.contents.countAbove (c'.now - w.windowMs) : ℚ) + c.requested ≤ w.limit := by
  have hcounted := hpast.remUpTo_evict c' fun v e hk hlt => by
    have hlast := hagain.time_le
    rw [hk] at hdeadline
    have he := Option.some_inj.mp hdeadline
    omega
  rw [(sliding_cases c' k).1, counted, hcounted, ZSet.card_remUpTo, hagain.same]

/-- **Waiting for the oldest**: after any calls in the order of their
timestamps, the time that a rejected call is told is exact if and only if the
units stamped later than the oldest leave room for it.  If they do not, the
call is rejected once more when that time is over. -/
theorem retry_after_sliding {earlier : List (WindowCall w)} {c : WindowCall w}
    (hord : (earlier ++ [c]).Pairwise fun c c' => c.now ≤ c'.now)
    (hrej : (w.sliding c (w.sliding.final earlier .absent)).2.decision = (false, retry)) :
    let k := w.sliding.final earlier .absent
    (RetryExact w.sliding LimitReply.allowed WindowCall.now Repeats c k retry ↔
        (younger (counted c k) : ℚ) + c.requested ≤ w.limit) ∧
      ∀ c', Repeats c c' → c'.now = c.now + retry →
        ((w.sliding c' (w.sliding c k).1).2.allowed = true ↔
          (younger (counted c k) : ℚ) + c.requested ≤ w.limit) := by
  intro k
  obtain ⟨since, hsince, hpast⟩ := past_run hord
  obtain ⟨oldest, hhead, hend, hpos, hfull, hcontents, hdeadline⟩ := rejected_spec hrej
  have hleft : Past c.now (w.sliding c k).1 := (hpast.evict c.time).call hsince
  have hagain {c' : WindowCall w} (h : Repeats c c') :
      (w.sliding c' (w.sliding c k).1).2.allowed = true ↔
        ((counted c k).countAbove (c'.now - w.windowMs) : ℚ) + c.requested ≤ w.limit := by
    rw [again_iff hleft hdeadline h, hcontents]
  have hyounger : younger (counted c k) = (counted c k).countAbove oldest.2 := by
    rw [younger, hhead]
  have hthen {c' : WindowCall w} (h : Repeats c c') (hnow : c'.now = c.now + retry) :
      (w.sliding c' (w.sliding c k).1).2.allowed = true ↔
        (younger (counted c k) : ℚ) + c.requested ≤ w.limit := by
    rw [hagain h, hyounger, show c'.now - w.windowMs = oldest.2 by omega]
  refine ⟨⟨fun hexact => ?_, fun hroom => ⟨by omega, fun c' h => ?_⟩⟩, fun c' h => hthen h⟩
  · obtain ⟨c', h, hnow⟩ := exists_repeats c (by omega : 0 ≤ retry)
    exact (hthen h hnow).mp ((hexact.2 c' h).mpr hnow.ge)
  · rw [hagain h]
    constructor
    · -- before the oldest unit leaves, there is no room
      intro hroom'
      by_contra hearly
      have hall : (counted c k).countAbove (c'.now - w.windowMs) = (counted c k).card :=
        ZSet.countAbove_eq_card fun e he => by
          have := ZSet.le_of_entries_head? hhead he
          omega
      rw [hall] at hroom'
      linarith
    · intro hlate
      have hanti : (counted c k).countAbove (c'.now - w.windowMs) ≤ younger (counted c k) := by
        rw [hyounger]
        exact ZSet.countAbove_anti _ (by omega)
      have hcast : ((counted c k).countAbove (c'.now - w.windowMs) : ℚ) ≤ younger (counted c k) := by
        exact_mod_cast hanti
      linarith

/-- Two units in a second.  One is stamped 0 and one 500, and a call for two at
600 is told to wait until the first leaves. -/
theorem retry_after_sliding_too_short :
    let w : WindowLimit := ⟨2, 1000, by decide, by decide⟩
    let earlier : List (WindowCall w) :=
      [⟨0, 0, 1, "a", by decide, by decide⟩, ⟨500, 500, 1, "b", by decide, by decide⟩]
    let c : WindowCall w := ⟨600, 600, 2, "c", by decide, by decide⟩
    let c' : WindowCall w := ⟨1000, 1000, 2, "d", by decide, by decide⟩
    let k := w.sliding.final earlier .absent
    (earlier ++ [c]).Pairwise (fun c c' => c.now ≤ c'.now) ∧
      (w.sliding c k).2.decision = (false, 400) ∧
      c'.now = c.now + 400 ∧ c'.time = c.time + 400 ∧ c'.requested = c.requested ∧
      (w.sliding c' (w.sliding c k).1).2.decision = (false, 500) := by
  decide +kernel

/-- A single unit is told the right time. -/
theorem retry_after_sliding_one_unit :
    let w : WindowLimit := ⟨2, 1000, by decide, by decide⟩
    let earlier : List (WindowCall w) :=
      [⟨0, 0, 1, "a", by decide, by decide⟩, ⟨500, 500, 1, "b", by decide, by decide⟩]
    let c : WindowCall w := ⟨600, 600, 1, "c", by decide, by decide⟩
    RetryExact w.sliding LimitReply.allowed WindowCall.now Repeats c
      (w.sliding.final earlier .absent) 400 := by
  intro w earlier c
  have hrej : (w.sliding c (w.sliding.final earlier .absent)).2.decision = (false, 400) := by
    decide +kernel
  have hroom : (younger (counted c (w.sliding.final earlier .absent)) : ℚ) + c.requested ≤
      w.limit := by
    decide +kernel
  exact (retry_after_sliding (by decide) hrej).1.mpr hroom

end WindowLimit

end Distsync
