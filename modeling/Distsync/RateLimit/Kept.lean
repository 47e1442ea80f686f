import Distsync.RateLimit.Bucket
import Distsync.RateLimit.Sliding
import Distsync.RateLimit.Fixed

/-!
# Distsync.RateLimit.Kept

What the limiters write and nobody can see.

Every script writes when it rejects: a bucket is brought up to date, a counter
is touched, a log is purged.  Later calls with later timestamps would have done
the same, so rejected calls can be left out of a run (`rejections_invisible`).

Every script also gives its key a TTL.  A bucket that is gone reads as full and
a log that is gone as empty, which is what they would have become by then if
calls do not take too long (`expiry_unobservable`).
-/

namespace Distsync

open Redis Trans

/-- Calls that are answered `rejected` can be left out of a run: if the calls
come in the order of their timestamps, the others are answered as before. -/
def Invisible (rejected : α → Prop) (M : Machine σ ι ο) (f : ο → α) (now : ι → Int) (s : σ) :
    Prop :=
  ∀ calls : List ι, (calls.Pairwise fun c c' => now c ≤ now c') →
    ∀ kept, Machine.Omits (fun e => rejected e.2) (M.observe f calls s) kept →
      M.observe f (kept.map Prod.fst) s = kept

theorem Invisible.of_alike {rejected : α → Prop} {M : Machine σ ι ο} {f : ο → α} {now : ι → Int}
    {R : Int → σ → σ → Prop}
    (hcall : ∀ since c s t, R since s t → since ≤ now c →
      R (now c) (M c s).1 (M c t).1 ∧ f (M c s).2 = f (M c t).2)
    (hrejected : ∀ since c s t, R since s t → since ≤ now c → rejected (f (M c s).2) →
      R (now c) (M c s).1 t)
    (hrefl : ∀ since, R since s s) : Invisible rejected M f now s := by
  intro calls hord kept hkept
  obtain ⟨since, hsince⟩ := Machine.exists_le_of_ordered hord
  exact Machine.observe_omits hcall hrejected (hrefl since) hsince hord hkept

/-! ## Buckets -/

namespace BucketLimit

variable {b : BucketLimit}

theorem flow_nonneg (b : BucketLimit) (h : ts ≤ now) : 0 ≤ flow b.rate ts now := by
  have hspan : (0 : ℚ) ≤ (now - ts : Int) := by exact_mod_cast Int.sub_nonneg_of_le h
  have hrate := b.rate_pos
  unfold flow
  positivity

/-- A bucket that was brought up to date refills to the same. -/
theorem refilled_rebase (b : BucketLimit) (h : now ≤ now') (k : Slot TokenBucket)
    (d : Option Int) :
    refilled b.capacity b.rate now' (.present ⟨refilled b.capacity b.rate now k, now⟩ d) =
      refilled b.capacity b.rate now' k := by
  have hflow := b.flow_nonneg h
  rw [refilled_present]
  cases k with
  | absent =>
      rw [refilled_absent, refilled_absent]
      exact min_eq_left (by linarith)
  | present v e =>
      have hadd := flow_add b.rate v.ts now now'
      rw [refilled_present, refilled_present]
      rcases le_total b.capacity (v.tokens + flow b.rate v.ts now) with hfull | hfull
      · rw [min_eq_left hfull, min_eq_left (by linarith), min_eq_left (by linarith)]
      · rw [min_eq_right hfull, add_assoc, hadd]

/-- No later call can tell the two buckets apart. -/
def Alike (b : BucketLimit) (since : Int) (k k' : Slot TokenBucket) : Prop :=
  ∀ now, since ≤ now → refilled b.capacity b.rate now k = refilled b.capacity b.rate now k'

theorem Alike.call (h : b.Alike since k k') {c : BucketCall b} (hc : since ≤ c.now) :
    b.Alike c.now (b.tokenKept c k).1 (b.tokenKept c k').1 ∧
      (b.tokenKept c k).2.decision = (b.tokenKept c k').2.decision := by
  obtain ⟨hdecision, hleft⟩ := tokenKept_cases c k
  obtain ⟨hdecision', hleft'⟩ := tokenKept_cases c k'
  rw [hdecision, hdecision', hleft, hleft', h c.now hc]
  exact ⟨fun _ _ => rfl, rfl⟩

/-- A rejected call only brings the bucket up to date. -/
theorem Alike.rejected (h : b.Alike since k k') {c : BucketCall b} (hc : since ≤ c.now)
    (hrej : (b.tokenKept c k).2.decision.1 = false) : b.Alike c.now (b.tokenKept c k).1 k' := by
  obtain ⟨hdecision, hleft⟩ := tokenKept_cases c k
  intro now hnow
  rw [hdecision, verdict] at hrej
  rw [hleft, remaining]
  split at hrej
  · contradiction
  · next hlow => rw [if_neg hlow, refilled_rebase b hnow, h now (hc.trans hnow)]

theorem token_invisible (b : BucketLimit) (k : Slot TokenBucket) :
    Invisible (·.1 = false) b.tokenKept LimitReply.decision BucketCall.now k :=
  .of_alike (R := b.Alike) (fun _ _ _ _ h hc => h.call hc)
    (fun _ _ _ _ h hc hrej => h.rejected hc hrej) fun _ _ _ => rfl

theorem leaky_invisible (b : BucketLimit) (l : Slot LeakyBucket) :
    Invisible (·.1 = false) b.leakyKept LimitReply.decision BucketCall.now l := by
  obtain ⟨k, hk⟩ := b.exists_mirrors l
  intro calls hord kept hkept
  rw [← hk.observe_kept] at hkept ⊢
  exact b.token_invisible k calls hord kept hkept

end BucketLimit

/-! ## Sliding window -/

namespace WindowLimit

variable {w : WindowLimit}

/-- No later call can tell the two logs apart. -/
def Alike (w : WindowLimit) (since : Int) (k k' : Slot WindowLog) : Prop :=
  ∀ b, since - w.windowMs ≤ b → k.contents.remUpTo b = k'.contents.remUpTo b

theorem Alike.call (h : w.Alike since k k') {c : WindowCall w} (hc : since ≤ c.now) :
    w.Alike c.now (w.slidingKept c k).1 (w.slidingKept c k').1 ∧
      (w.slidingKept c k).2.decision = (w.slidingKept c k').2.decision := by
  obtain ⟨hdecision, hleft, -⟩ := slidingKept_cases c k
  obtain ⟨hdecision', hleft', -⟩ := slidingKept_cases c k'
  rw [hdecision, hdecision', Alike, hleft, hleft', h _ (by omega)]
  exact ⟨fun _ _ => rfl, rfl⟩

/-- A rejected call only drops what later calls would drop. -/
theorem Alike.rejected (h : w.Alike since k k') {c : WindowCall w} (hc : since ≤ c.now)
    (hrej : (w.slidingKept c k).2.decision.1 = false) :
    w.Alike c.now (w.slidingKept c k).1 k' := by
  obtain ⟨hdecision, hleft, -⟩ := slidingKept_cases c k
  intro b hb
  rw [hdecision] at hrej
  rw [hleft, logged, hrej, if_neg (by simp), ZSet.remUpTo_remUpTo _ hb, h b (by omega)]

theorem sliding_invisible (w : WindowLimit) (k : Slot WindowLog) :
    Invisible (·.1 = false) w.slidingKept LimitReply.decision WindowCall.now k :=
  .of_alike (R := w.Alike) (fun _ _ _ _ h hc => h.call hc)
    (fun _ _ _ _ h hc hrej => h.rejected hc hrej) fun _ _ _ => rfl

end WindowLimit

/-! ## Fixed window -/

namespace FixedLimit

variable {f : FixedLimit}

/-- The counters read the same. -/
def Alike (s s' : Counters) : Prop := ∀ key, (s key).get.getD 0 = (s' key).get.getD 0

theorem Alike.update (h : Alike s s') (hk : k.get.getD 0 = k'.get.getD 0) (key : List UInt8) :
    Alike (Function.update s key k) (Function.update s' key k') := by
  intro key'
  by_cases hkey : key' = key
  · subst hkey
    simpa using hk
  · simpa [hkey] using h key'

/-- A counter is read, and what is added to it depends on its value alone. -/
theorem count_alike (c : FixedCall f) (hk : k.get.getD 0 = k'.get.getD 0) :
    (f.count c k).1.get.getD 0 = (f.count c k').1.get.getD 0 ∧
      (f.count c k).2 = (f.count c k').2 := by
  rw [count_eq, count_eq, hk]
  dsimp only
  split
  · split
    · split <;> exact ⟨rfl, rfl⟩
    · exact ⟨rfl, rfl⟩
  · exact ⟨hk, rfl⟩

/-- A rejected call takes back what it added. -/
theorem count_rejected {c : FixedCall f} {r : LimitReply} (hr : (f.count c k).2 = some r)
    (hrej : r.allowed = false) : (f.count c k).1.get.getD 0 = k.get.getD 0 := by
  rw [count_eq] at hr ⊢
  dsimp only at hr ⊢
  split at hr
  · next hfits =>
    split at hr
    · next hover =>
      split at hr
      · next hv => rw [if_pos hfits, if_pos hover, if_pos hv]; rfl
      · contradiction
    · cases hr
      contradiction
  · contradiction

theorem Alike.call (h : Alike s s') (c : FixedCall f) :
    Alike (f.fixedKept c s).1 (f.fixedKept c s').1 ∧ (f.fixedKept c s).2 = (f.fixedKept c s').2 := by
  obtain ⟨hcount, hans⟩ := count_alike c (h (f.keyAt c.now))
  exact ⟨h.update hcount _, hans⟩

theorem Alike.rejected (h : Alike s s') {c : FixedCall f} {r : LimitReply}
    (hr : (f.fixedKept c s).2 = some r) (hrej : r.allowed = false) :
    Alike (f.fixedKept c s).1 s' := by
  have hcount := (count_rejected hr hrej).trans (h (f.keyAt c.now))
  have hnext := h.update hcount (f.keyAt c.now)
  rwa [Function.update_eq_self] at hnext

theorem fixed_invisible (f : FixedLimit) (s : Counters) :
    Invisible (fun d => d.map Prod.fst = some false) f.fixedKept (Option.map LimitReply.decision)
      FixedCall.now s := by
  refine .of_alike (R := fun _ => Alike) (fun _ c _ _ h _ => ?_) ?_ fun _ _ => rfl
  · obtain ⟨hnext, hans⟩ := h.call c
    exact ⟨hnext, by rw [hans]⟩
  · intro _ c s s' h _ hrej
    cases hr : (f.fixedKept c s).2 with
    | none =>
        rw [hr] at hrej
        contradiction
    | some r =>
        rw [hr] at hrej
        exact h.rejected hr (Option.some_inj.mp hrej)

end FixedLimit

/-- **Rejections are invisible**: for each of the four scripts, on keys that
never expire and from any state, any of the rejected calls can be left out of a
run with ordered timestamps.  The sizes are those that `Allow` sends, which is in
the types of the calls. -/
theorem rejections_invisible :
    (∀ (b : BucketLimit) k,
      Invisible (·.1 = false) b.tokenKept LimitReply.decision BucketCall.now k) ∧
    (∀ (b : BucketLimit) l,
      Invisible (·.1 = false) b.leakyKept LimitReply.decision BucketCall.now l) ∧
    (∀ (f : FixedLimit) s,
      Invisible (fun d => d.map Prod.fst = some false) f.fixedKept
        (Option.map LimitReply.decision) FixedCall.now s) ∧
    (∀ (w : WindowLimit) k,
      Invisible (·.1 = false) w.slidingKept LimitReply.decision WindowCall.now k) :=
  ⟨BucketLimit.token_invisible, BucketLimit.leaky_invisible, FixedLimit.fixed_invisible,
    WindowLimit.sliding_invisible⟩

/-- A bucket of three tokens is emptied, a call for two is rejected a second
later, and left out, and a call for one is admitted after another half. -/
theorem rejections_invisible_bucket :
    let b : BucketLimit := ⟨3, 1, by decide, by decide⟩
    let all : BucketCall b := ⟨0, 0, 3, by decide, by decide⟩
    let two : BucketCall b := ⟨1000, 1000, 2, by decide, by decide⟩
    let one : BucketCall b := ⟨1500, 1500, 1, by decide, by decide⟩
    b.tokenKept.observe LimitReply.decision [all, two, one] .absent =
        [(all, true, 0), (two, false, 1000), (one, true, 0)] ∧
      b.tokenKept.observe LimitReply.decision [all, one] .absent =
        [(all, true, 0), (one, true, 0)] := by
  intro b all two one
  have hrun : b.tokenKept.observe LimitReply.decision [all, two, one] .absent =
      [(all, true, 0), (two, false, 1000), (one, true, 0)] := by decide +kernel
  have hord : [all, two, one].Pairwise fun c c' => c.now ≤ c'.now := by decide
  refine ⟨hrun, rejections_invisible.1 b .absent _ hord [(all, true, 0), (one, true, 0)] ?_⟩
  rw [hrun]
  exact .keep _ (.drop rfl (.keep _ .nil))

/-! ## Expiry -/

/-- Calls in the order of their timestamps, each executed at most `delay` after
its timestamp by one clock. -/
structure OnTime (now time : ι → Int) (delay : Int) (calls : List ι) : Prop where
  ordered : calls.Pairwise fun c c' => now c ≤ now c'
  prompt : ∀ c ∈ calls, now c ≤ time c ∧ time c ≤ now c + delay

namespace BucketLimit

variable {b : BucketLimit}

/-- The bucket owes nothing at `since` or later. -/
def Solvent (since : Int) : Slot TokenBucket → Prop
  | .absent => True
  | .present v _ => 0 ≤ v.tokens ∧ v.ts ≤ since

/-- The key lasts until the bucket is full, and a second more. -/
def Lasting (b : BucketLimit) : Slot TokenBucket → Prop
  | .absent => True
  | .present v d => ∃ e, d = some e ∧ v.ts + bucketTtl b.capacity b.rate ≤ e

theorem Solvent.evict (h : Solvent since k) (t : Int) : Solvent since (k.evict t) := by
  rcases Slot.evict_eq t k with heq | heq
  · rwa [heq]
  · rw [heq]
    trivial

theorem Solvent.refilled_nonneg (h : Solvent since k) (hnow : since ≤ now) :
    0 ≤ refilled b.capacity b.rate now k := by
  have hcap := b.capacity_pos
  cases k with
  | absent =>
      rw [refilled_absent]
      exact hcap.le
  | present v d =>
      have hflow := b.flow_nonneg (h.2.trans hnow)
      rw [refilled_present]
      exact le_min hcap.le (add_nonneg h.1 hflow)

theorem Solvent.call (h : Solvent since k) {c : BucketCall b} (hc : since ≤ c.now) :
    Solvent c.now (b.tokenKept c k).1 := by
  rw [(tokenKept_cases c k).2, remaining]
  refine ⟨?_, le_refl _⟩
  split
  · next hroom => exact sub_nonneg.mpr hroom
  · exact h.refilled_nonneg hc

theorem lasting_call (c : BucketCall b) (hc : c.now ≤ c.time) (k : Slot TokenBucket) :
    b.Lasting (b.tokenKept c k).1 := by
  rw [(tokenKept_cases c k).2]
  refine ⟨_, rfl, ?_⟩
  change c.now + bucketTtl b.capacity b.rate ≤ c.time + bucketTtl b.capacity b.rate
  omega

/-- By the end of its TTL less a second a bucket is full. -/
theorem capacity_le_flow (h : ts + bucketTtl b.capacity b.rate < now + 1000) :
    b.capacity ≤ flow b.rate ts now := by
  have hrate := b.rate_pos
  have hceil := Int.le_ceil (b.capacity / b.rate * 1000)
  have hspan : (⌈b.capacity / b.rate * 1000⌉ : ℚ) ≤ (now - ts : Int) := by
    rw [bucketTtl] at h
    exact_mod_cast (by omega : ⌈b.capacity / b.rate * 1000⌉ ≤ now - ts)
  rw [flow, ← div_le_iff₀ hrate, le_div_iff₀ (by norm_num)]
  exact hceil.trans hspan

/-- A key that is gone held a full bucket. -/
theorem Solvent.refilled_evict (h : Solvent since k) (hk : b.Lasting k)
    (ht : t ≤ now + 1000) :
    refilled b.capacity b.rate now (k.evict t) = refilled b.capacity b.rate now k := by
  rcases Slot.evict_eq t k with heq | heq
  · rw [heq]
  · cases k with
    | absent => rfl
    | present v d =>
        obtain ⟨e, rfl, hlt⟩ := Slot.evict_eq_absent_iff.mp heq
        obtain ⟨e', he, hle⟩ := hk
        cases he
        have hfull : b.capacity ≤ flow b.rate v.ts now := capacity_le_flow (by omega)
        rw [heq, refilled_absent, refilled_present, min_eq_left (hfull.trans _)]
        linarith [h.1]

theorem token_expiry {calls : List (BucketCall b)}
    (h : OnTime BucketCall.now BucketCall.time 1000 calls) :
    b.token.observe LimitReply.decision calls .absent =
      b.tokenKept.observe LimitReply.decision calls .absent := by
  obtain ⟨since, hsince⟩ := Machine.exists_le_of_ordered h.ordered
  have hinit : Solvent since .absent ∧ b.Lasting .absent := ⟨trivial, trivial⟩
  refine Machine.simulate_ordered (R := fun since k k' => k = k' ∧ Solvent since k ∧ b.Lasting k)
    ?_ ⟨rfl, hinit⟩ hsince h.ordered h.prompt
  rintro since c k k' ⟨rfl, hsolvent, hlasting⟩ hc ⟨hnow, htime⟩
  have hfound := hsolvent.refilled_evict hlasting htime
  obtain ⟨hdecision, hleft⟩ := tokenKept_cases c (k.evict c.time)
  obtain ⟨hdecision', hleft'⟩ := tokenKept_cases c k
  refine ⟨⟨?_, (hsolvent.evict c.time).call hc, lasting_call c hnow _⟩, ?_⟩
  · exact hleft.trans (by rw [hfound, hleft'])
  · exact hdecision.trans (by rw [hfound, hdecision'])

theorem leaky_expiry {calls : List (BucketCall b)}
    (h : OnTime BucketCall.now BucketCall.time 1000 calls) :
    b.leaky.observe LimitReply.decision calls .absent =
      b.leakyKept.observe LimitReply.decision calls .absent := by
  rw [← (b.mirrors_run calls).2, token_expiry h]
  exact Mirrors.observe_kept .absent calls

end BucketLimit

namespace WindowLimit

variable {w : WindowLimit}

/-- Nothing in the log is later than `since`. -/
def Past (since : Int) (k : Slot WindowLog) : Prop :=
  ∀ m sc, k.contents.score m = some sc → sc ≤ since

/-- The key lasts for two windows after `since`. -/
def Lasting (w : WindowLimit) (since : Int) (k : Slot WindowLog) : Prop :=
  ∀ v e, k = .present v (some e) → since + w.windowMs * 2 ≤ e

theorem past_absent (since : Int) : Past since .absent := fun _ _ h => by simp at h

theorem Past.evict (h : Past since k) (t : Int) : Past since (k.evict t) := by
  rcases Slot.evict_eq t k with heq | heq
  · rwa [heq]
  · rw [heq]
    exact past_absent since

theorem Past.call (h : Past since k) {c : WindowCall w} (hc : since ≤ c.now) :
    Past c.now (w.slidingKept c k).1 := by
  obtain ⟨-, hleft, -⟩ := slidingKept_cases c k
  have hcounted (m : String) (sc : Int)
      (hsc : (k.contents.remUpTo (c.now - w.windowMs)).score m = some sc) : sc ≤ c.now := by
    rw [ZSet.score_remUpTo, Option.filter_eq_some_iff] at hsc
    exact (h m sc hsc.1).trans hc
  intro m sc hsc
  rw [hleft, logged] at hsc
  split at hsc
  · rw [ZSet.score_addAll] at hsc
    split at hsc
    · exact (Option.some_inj.mp hsc).ge
    · exact hcounted m sc hsc
  · exact hcounted m sc hsc

theorem lasting_call (c : WindowCall w) (hc : c.now ≤ c.time) (k : Slot WindowLog) :
    w.Lasting c.now (w.slidingKept c k).1 := by
  obtain ⟨-, -, hdeadline⟩ := slidingKept_cases c k
  intro v e hk
  rw [hk] at hdeadline
  have he := Option.some_inj.mp (hdeadline.resolve_left (by simp))
  omega

/-- A key that is gone by the time its log has left the window changes
nothing. -/
theorem Past.remUpTo_evict (h : Past since k) (c : WindowCall w)
    (hgone : ∀ v e, k = .present v (some e) → e < c.time → since ≤ c.now - w.windowMs) :
    (k.evict c.time).contents.remUpTo (c.now - w.windowMs) =
      k.contents.remUpTo (c.now - w.windowMs) := by
  rcases Slot.evict_eq c.time k with heq | heq
  · rw [heq]
  · cases k with
    | absent => rfl
    | present v d =>
        obtain ⟨e, rfl, hlt⟩ := Slot.evict_eq_absent_iff.mp heq
        have hleft := hgone v e rfl hlt
        have hempty : (Slot.present v (some e)).contents.remUpTo (c.now - w.windowMs) = ∅ := by
          rw [ZSet.eq_empty_iff]
          intro m
          rw [ZSet.score_remUpTo, Option.filter_eq_none_iff]
          intro sc hsc
          have := h m sc hsc
          simp only [decide_eq_true_eq]
          omega
        rw [heq, hempty]
        rfl

theorem sliding_expiry {calls : List (WindowCall w)}
    (h : OnTime WindowCall.now WindowCall.time w.windowMs calls) :
    w.sliding.observe LimitReply.decision calls .absent =
      w.slidingKept.observe LimitReply.decision calls .absent := by
  obtain ⟨since, hsince⟩ := Machine.exists_le_of_ordered h.ordered
  have hinit : Past since .absent ∧ w.Lasting since .absent := ⟨past_absent since, by simp [Lasting]⟩
  refine Machine.simulate_ordered
    (R := fun since k k' => k.contents = k'.contents ∧ Past since k ∧ w.Lasting since k)
    ?_ ⟨rfl, hinit⟩ hsince h.ordered h.prompt
  rintro since c k k' ⟨heq, hpast, hlasting⟩ hc ⟨hnow, htime⟩
  have hcounted := hpast.remUpTo_evict c fun v e hk hlt => by
    have := hlasting v e hk
    omega
  rw [heq] at hcounted
  obtain ⟨hdecision, hleft, -⟩ := slidingKept_cases c (k.evict c.time)
  obtain ⟨hdecision', hleft', -⟩ := slidingKept_cases c k'
  refine ⟨⟨?_, (hpast.evict c.time).call hc, lasting_call c hnow _⟩, ?_⟩
  · exact hleft.trans (by rw [hcounted, hleft'])
  · exact hdecision.trans (by rw [hcounted, hdecision'])

end WindowLimit

/-- **Expiry is unobservable**: calls that are executed within a second of their
timestamps, or for the sliding window within a window, are answered as if the
key never expired. -/
theorem expiry_unobservable :
    (∀ (b : BucketLimit) (calls : List (BucketCall b)),
      OnTime BucketCall.now BucketCall.time 1000 calls →
      b.token.observe LimitReply.decision calls .absent =
          b.tokenKept.observe LimitReply.decision calls .absent ∧
        b.leaky.observe LimitReply.decision calls .absent =
          b.leakyKept.observe LimitReply.decision calls .absent) ∧
    (∀ (w : WindowLimit) (calls : List (WindowCall w)),
      OnTime WindowCall.now WindowCall.time w.windowMs calls →
      w.sliding.observe LimitReply.decision calls .absent =
        w.slidingKept.observe LimitReply.decision calls .absent) :=
  ⟨fun _ _ h => ⟨BucketLimit.token_expiry h, BucketLimit.leaky_expiry h⟩,
    fun _ _ h => WindowLimit.sliding_expiry h⟩

/-- A bucket of two tokens that refills in two seconds, and a log of one unit:
the second call of each comes as late as it may, and finds no key. -/
theorem expiry_unobservable_key_gone :
    let b : BucketLimit := ⟨2, 1, by decide, by decide⟩
    let calls : List (BucketCall b) :=
      [⟨0, 0, 2, by decide, by decide⟩, ⟨3001, 2001, 2, by decide, by decide⟩]
    let w : WindowLimit := ⟨1, 1000, by decide, by decide⟩
    let calls' : List (WindowCall w) :=
      [⟨0, 0, 1, "a", by decide, by decide⟩, ⟨2001, 1001, 1, "b", by decide, by decide⟩]
    (b.token.final (calls.take 1) .absent).evict 3001 = .absent ∧
      b.token.observe LimitReply.decision calls .absent =
        b.tokenKept.observe LimitReply.decision calls .absent ∧
      (w.sliding.final (calls'.take 1) .absent).evict 2001 = .absent ∧
      w.sliding.observe LimitReply.decision calls' .absent =
        w.slidingKept.observe LimitReply.decision calls' .absent := by
  intro b calls w calls'
  have hcalls : OnTime BucketCall.now BucketCall.time 1000 calls := ⟨by decide, by decide⟩
  have hcalls' : OnTime WindowCall.now WindowCall.time w.windowMs calls' := ⟨by decide, by decide⟩
  exact ⟨by decide +kernel, (expiry_unobservable.1 b calls hcalls).1, by decide +kernel,
    expiry_unobservable.2 w calls' hcalls'⟩

end Distsync
