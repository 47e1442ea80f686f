import Distsync.Acquire
import Distsync.RWMutex.Backoff

/-!
# Distsync.Acquire.Progress

When a call is granted what it asks for.

Owners that crash neither release nor renew, so what they hold expires: a call
that keeps trying is granted at its first attempt after that, at most one delay
of its retry policy late (`Request.taken_over`).  `Semaphore.Available` also
counts what has expired, so as many permits as it says can be had at any clock
(`Semaphore.granted_of_available`).
-/

namespace Distsync

open Redis

/-! ## Delays -/

namespace RetryPolicy

/-- The longest delay. -/
def longest (p : RetryPolicy) : Int := 6 * p.resolvedMax / 5

theorem delay_le_longest (p : RetryPolicy) (attempt : Nat) (jitter : Jitter) :
    p.delay attempt jitter ≤ p.longest := by
  have hmax : (0 : ℚ) < p.resolvedMax := by exact_mod_cast p.resolvedMax_pos
  have hjitter : 0 < jitter.factor := lt_of_lt_of_le (by norm_num) jitter.le_factor
  have hclip (d : ℚ) : (if d > p.resolvedMax then (p.resolvedMax : ℚ) else d) ≤ p.resolvedMax := by
    split
    · exact le_refl _
    · next hle => exact not_lt.mp hle
  have hfloor : (p.delay attempt jitter : ℚ) ≤ p.resolvedMax * (6 / 5) :=
    calc (p.delay attempt jitter : ℚ) ≤ _ := Int.floor_le _
      _ ≤ p.resolvedMax * jitter.factor := mul_le_mul_of_nonneg_right (hclip _) hjitter.le
      _ ≤ p.resolvedMax * (6 / 5) := mul_le_mul_of_nonneg_left jitter.factor_lt.le hmax.le
  have hfive : 5 * p.delay attempt jitter ≤ 6 * p.resolvedMax := by
    have : 5 * (p.delay attempt jitter : ℚ) ≤ 6 * p.resolvedMax := by linarith
    exact_mod_cast this
  rw [longest]
  omega

/-- Attempts from number `i` on: each starts, within `latency`, after the delay
of the one before. -/
def Paced (p : RetryPolicy) (latency : Int) (start : α → Int) : Nat → List α → Prop
  | _, [] => True
  | i, r :: rs =>
      (∀ r', rs.head? = some r' → ∃ jitter, start r' ≤ start r + latency + p.delay i jitter) ∧
        Paced p latency start (i + 1) rs

theorem Paced.start_le {p : RetryPolicy} {start : α → Int}
    (h : p.Paced latency start i (r :: rs)) (hnext : rs.head? = some r') :
    start r' ≤ start r + latency + p.longest := by
  obtain ⟨jitter, hle⟩ := h.1 r' hnext
  have hdelay := p.delay_le_longest i jitter
  omega

/-- A policy that starts at its maximum can wait for as long every time. -/
theorem paced_of_flat {p : RetryPolicy} {start : α → Int} (hflat : p.resolvedMax ≤ p.resolvedBase)
    (h : rs.IsChain fun r r' => start r' ≤ start r + latency + p.resolvedMax) (i : Nat) :
    p.Paced latency start i rs := by
  have hdelay (i : Nat) : p.delay i ⟨1, by norm_num, by norm_num⟩ = p.resolvedMax := by
    have hmax : (p.resolvedMax : ℚ) ≤ p.resolvedBase := by exact_mod_cast hflat
    have hpos : (0 : ℚ) < p.resolvedBase := by exact_mod_cast p.resolvedBase_pos
    have hle : (p.resolvedMax : ℚ) ≤ p.resolvedBase * 2 ^ i :=
      hmax.trans (le_mul_of_one_le_right hpos.le (one_le_pow₀ (by norm_num)))
    rw [delay, mul_one]
    split
    · exact Int.floor_intCast _
    · next hgt => rw [le_antisymm (not_lt.mp hgt) hle, Int.floor_intCast]
  induction h generalizing i with
  | nil => exact trivial
  | singleton r => exact ⟨by simp, trivial⟩
  | cons_cons hle _ ih =>
      refine ⟨?_, ih (i + 1)⟩
      rintro r' ⟨⟩
      exact ⟨_, (hdelay i).symm ▸ hle⟩

end RetryPolicy

/-- A TTL that leaves time for an answer is one millisecond or more. -/
theorem milliseconds_pos_of_lt (h : 0 ≤ latency) (hlt : latency < requestExpiry 0 ttl) :
    0 < milliseconds ttl := by
  rw [requestExpiry] at hlt
  rw [milliseconds]
  rcases le_total 0 ttl with hpos | hneg
  · rw [Int.tdiv_eq_ediv_of_nonneg hpos] at hlt ⊢
    omega
  · obtain ⟨n, rfl⟩ : ∃ n, ttl = -n := ⟨-ttl, (neg_neg ttl).symm⟩
    rw [Int.neg_tdiv, Int.tdiv_eq_ediv_of_nonneg (by omega)] at hlt
    omega

/-! ## Keys that only lose -/

/-- A release leaves the key or deletes it. -/
theorem singleRelease_fst (token : String) (lock : Slot String) :
    (singleRelease token lock).1 = lock ∨ (singleRelease token lock).1 = .absent := by
  rcases singleRelease_cases token lock with ⟨-, heq⟩ | ⟨-, heq⟩ <;> rw [heq]
  · exact .inr rfl
  · exact .inl rfl

/-- A release adds no member. -/
theorem score_of_semRelease {z : Permits} (h : (semRelease tokens z).1.score m = some sc) :
    z.score m = some sc := by
  rw [semRelease_fst, ZSet.score_remAll] at h
  split at h
  · contradiction
  · exact h

/-- Every lock and every permit of `s'` is one of `s`. -/
structure Server.Below (s' s : Server) : Prop where
  lock : s'.single.lock = s.single.lock ∨ s'.single.lock = .absent
  permits : ∀ m sc, s'.permits.score m = some sc → s.permits.score m = some sc

/-- A command that grants nothing and extends nothing. -/
def OwnerCmd.Quiet (c : OwnerCmd) : Prop := c.acquires = false ∧ c.renews = false

namespace Server

theorem Below.refl (s : Server) : s.Below s := ⟨.inl rfl, fun _ _ => id⟩

theorem Below.trans {s₁ s₂ s₃ : Server} (h : s₁.Below s₂) (h' : s₂.Below s₃) : s₁.Below s₃ := by
  refine ⟨?_, fun m sc hsc => h'.permits m sc (h.permits m sc hsc)⟩
  rcases h.lock with heq | hnone
  · rw [heq]
    exact h'.lock
  · exact .inr hnone

theorem below_evict (t : Int) (s : Server) : (s.evict t).Below s :=
  ⟨Slot.evict_eq t s.single.lock, fun _ _ => id⟩

theorem below_remUpTo (now : Int) (s : Server) :
    Below { s with permits := s.permits.remUpTo now } s :=
  ⟨.inl rfl, fun _ _ hsc => (LeaseKind.score_remUpTo_eq_some.mp hsc).1⟩

theorem below_of_quiet {c : OwnerCmd} (hc : c.Quiet) (t : Int) (a : String) (s : Server) :
    (c.run t a s).1.Below s := by
  obtain ⟨hacq, hren⟩ := hc
  cases c with
  | singleAcquire | semAcquire | readLock | writeLock => contradiction
  | singleRenew | semRenew | readerRenew | writerRenew => contradiction
  | singleRelease => exact ⟨singleRelease_fst a s.single.lock, fun _ _ => id⟩
  | semRelease n => exact ⟨.inl rfl, fun _ _ => score_of_semRelease⟩
  | readerRelease | writerRelease | zrem | hdel => exact ⟨.inl rfl, fun _ _ => id⟩

end Server

theorem Foreign.below_runAll {es : List (Foreign a)} (h : ∀ e ∈ es, e.cmd.Quiet) (s : Server) :
    (Foreign.runAll es s).Below s := by
  induction es generalizing s with
  | nil => exact .refl s
  | cons e es ih =>
      obtain ⟨he, hes⟩ := List.forall_mem_cons.mp h
      exact (ih hes _).trans
        ((Server.below_of_quiet he e.time e.owner _).trans (s.below_evict e.time))

/-! ## Requests that are granted -/

namespace Request

/-- Whatever stands in the way of the request expires by `d`. -/
def Drains (q : Request) (d : Int) (s : Server) : Prop :=
  match q.wanted with
  | .owner _ => ∀ v deadline, s.single.lock = .present v deadline → ∃ e, deadline = some e ∧ e ≤ d
  | .permits .. => ∀ m sc, s.permits.score m = some sc → sc ≤ d

/-- The request can be granted at all. -/
def Fits (q : Request) : Prop :=
  match q.wanted with
  | .owner _ => True
  | .permits capacity n _ => n ≤ capacity

theorem Drains.of_below {q : Request} (h : q.Drains d s) (hb : s'.Below s) : q.Drains d s' := by
  rw [Drains] at h ⊢
  cases hq : q.wanted with
  | owner fencing =>
      rw [hq] at h
      intro v deadline hlock
      rcases hb.lock with heq | heq
      · exact h v deadline (heq.symm.trans hlock)
      · cases heq.symm.trans hlock
  | permits capacity n pos =>
      rw [hq] at h
      exact fun m sc hsc => h m sc (hb.permits m sc hsc)

/-- An execution grants, or it refuses and stores nothing. -/
theorem int_or_below (q : Request) (httl : 0 < milliseconds q.ttl) (start t : Int) (s : Server) :
    (∃ n, ((q.cmd start).run t q.id s).2 = .int n) ∨
      ((q.cmd start).run t q.id s).2 = .nil ∧ ((q.cmd start).run t q.id s).1.Below s := by
  cases hq : q.wanted with
  | owner fencing =>
      rw [cmd_owner hq, singleAcquire]
      by_cases hown : s.single.lock.get = some q.id
      · -- without the counter, the holder's own command is refused
        rw [if_pos hown]
        cases fencing with
        | false => exact .inl ⟨0, rfl⟩
        | true =>
            cases hcount : s.single.fencing with
            | none => exact .inr ⟨rfl, .refl s⟩
            | some c => exact .inl ⟨toDouble c, rfl⟩
      · rw [if_neg hown, if_neg (by omega)]
        cases hlock : s.single.lock with
        | present v deadline => exact .inr ⟨rfl, .refl s⟩
        | absent => cases fencing <;> exact .inl ⟨_, rfl⟩
  | permits capacity n pos =>
      rw [cmd_permits hq]
      rcases semAcquire_cases (unixMilli start) (milliseconds q.ttl) capacity (permitTokens q.id n)
        s.permits with ⟨-, heq⟩ | ⟨-, -, heq⟩ | ⟨-, -, heq⟩ <;> rw [heq]
      · exact .inl ⟨_, rfl⟩
      · exact .inr ⟨rfl, s.below_remUpTo _⟩
      · exact .inl ⟨_, rfl⟩

/-- When everything has expired, the execution grants. -/
theorem int_of_drained {q : Request} (hfits : q.Fits) (httl : 0 < milliseconds q.ttl)
    (h : q.Drains d s) (hstart : d < unixMilli start) (ht : unixMilli start ≤ t) :
    ∃ n, ((q.cmd start).run t q.id (s.evict t)).2 = .int n := by
  rw [Drains] at h
  rw [Fits] at hfits
  cases hq : q.wanted with
  | owner fencing =>
      rw [hq] at h
      have hfree : (s.evict t).single.lock = .absent := by
        show s.single.lock.evict t = .absent
        cases hlock : s.single.lock with
        | absent => rfl
        | present v deadline =>
            obtain ⟨e, rfl, he⟩ := h v deadline hlock
            exact if_pos (by omega)
      rw [cmd_owner hq, singleAcquire, hfree, if_neg (by simp), if_neg (by omega)]
      cases fencing <;> exact ⟨_, rfl⟩
  | permits capacity n pos =>
      rw [hq] at h hfits
      have hempty : (s.permits.remUpTo (unixMilli start)).card = 0 := by
        rw [ZSet.card_eq_zero_iff]
        intro m
        rw [Option.eq_none_iff_forall_ne_some]
        intro sc hsc
        obtain ⟨hstored, hlive⟩ := LeaseKind.score_remUpTo_eq_some.mp hsc
        have hle := h m sc hstored
        omega
      rw [cmd_permits hq]
      rcases semAcquire_cases (unixMilli start) (milliseconds q.ttl) capacity (permitTokens q.id n)
        s.permits with ⟨-, heq⟩ | ⟨-, hfull, -⟩ | ⟨-, -, heq⟩
      · exact ⟨_, congrArg Prod.snd heq⟩
      · rw [hempty, length_permitTokens] at hfull
        omega
      · exact ⟨_, congrArg Prod.snd heq⟩

/-! ## Calls that wait -/

/-- The command is executed once, among quiet commands of others, and its answer
is back within `latency`.  If it is refused, the call waits. -/
structure Try.Prompt {q : Request} (latency : Int) (r : q.Try) : Prop where
  once : r.unheard = [] ∧ r.stray = []
  quiet : ∀ e ∈ r.after, e.cmd.Quiet
  heard : ∃ x back, r.heard = some (x, back) ∧ (∀ e ∈ x.others, e.cmd.Quiet) ∧
    unixMilli r.start ≤ x.time ∧ back ≤ r.start + latency
  waits : r.pause = .elapsed

/-- A first attempt that is granted ends the call. -/
theorem call_of_granted {q : Request} {r : q.Try} {n : Nat}
    (h : (q.tryAcquire r s).2 = .granted n) (retries : Bool) (rs : List q.Try) :
    (q.call retries (r :: rs) s).2 = some (r, .guard n) := by
  cases retries with
  | false =>
      rw [call, if_neg (by decide), acquireOnce, h]
      rfl
  | true =>
      rw [call, if_pos rfl, acquireLoop]
      generalize q.tryAcquire r s = y at h
      obtain ⟨s', e⟩ := y
      cases h
      rfl

/-- An attempt whose command is executed once. -/
theorem tryAcquire_once {q : Request} {r : q.Try} {x : Turn q.id}
    (honce : r.unheard = [] ∧ r.stray = []) (hheard : r.heard = some (x, back)) (s : Server) :
    let y := q.answered r back (q.exec r.start x s).1 (q.exec r.start x s).2
    q.tryAcquire r s = (Foreign.runAll r.after y.1, y.2) := by
  rw [tryAcquire, commands, honce.1, honce.2, hheard]
  rfl

theorem answered_granted {q : Request} {r : q.Try} (htime : back < requestExpiry r.start q.ttl)
    (s : Server) (n : Nat) : q.answered r back s (.int n) = (s, .granted (q.fence (.int n))) := by
  rw [answered, acquireResult, if_pos htime]

theorem tryAcquire_prompt {q : Request} (hfits : q.Fits) (h0 : 0 ≤ latency)
    (hlat : latency < requestExpiry 0 q.ttl) {r : q.Try} (hr : r.Prompt latency)
    (h : q.Drains d s) :
    (∃ fence, (q.tryAcquire r s).2 = .granted fence) ∨
      (q.tryAcquire r s).2 = .errBusy ∧ q.Drains d (q.tryAcquire r s).1 ∧
        unixMilli r.start ≤ d := by
  have httl := milliseconds_pos_of_lt h0 hlat
  obtain ⟨x, back, hheard, hquiet, hsent, hback⟩ := hr.heard
  have hdrains := h.of_below (Foreign.below_runAll hquiet s)
  rw [tryAcquire_once hr.once hheard]
  dsimp only
  rcases q.int_or_below httl r.start x.time (x.found s) with ⟨n, hn⟩ | ⟨hnil, hlost⟩
  · have htime : back < requestExpiry r.start q.ttl := by
      rw [requestExpiry] at hlat ⊢
      omega
    rw [show (q.exec r.start x s).2 = .int n from hn, answered_granted htime]
    exact .inl ⟨_, rfl⟩
  · rw [show (q.exec r.start x s).2 = .nil from hnil]
    have hbelow := (hdrains.of_below (Server.below_evict x.time _)).of_below hlost
    refine .inr ⟨rfl, hbelow.of_below (Foreign.below_runAll hr.quiet _), ?_⟩
    by_contra hlt
    obtain ⟨n, hn⟩ := int_of_drained hfits httl hdrains (not_le.mp hlt) hsent
    cases hnil.symm.trans hn

/-- **Takeover**: what stands in the way of a call expires by `d`, and nobody
else acquires or renews, because those who did have crashed.  Then the call is
granted, and if not at once, then at an attempt that starts at most the longest
delay and the latency after `d` has passed. -/
theorem taken_over (q : Request) (p : RetryPolicy) {latency d : Int} {s : Server}
    {rs : List q.Try} (hfits : q.Fits) (h0 : 0 ≤ latency) (hlat : latency < requestExpiry 0 q.ttl)
    (hdrains : q.Drains d s) (hprompt : ∀ r ∈ rs, r.Prompt latency)
    (hpaced : p.Paced latency Try.start 0 rs)
    (hreach : ∃ r ∈ rs, (d + 1) * 1000000 ≤ r.start) :
    ∃ r fence, (q.call true rs s).2 = some (r, .guard fence) ∧
      (rs.head? = some r ∨ r.start < (d + 1) * 1000000 + latency + p.longest) := by
  rw [call, if_pos rfl]
  generalize 0 = i at hpaced
  induction rs generalizing s i with
  | nil => simp at hreach
  | cons r rs ih =>
      obtain ⟨hr, hrs⟩ := List.forall_mem_cons.mp hprompt
      have htry := tryAcquire_prompt hfits h0 hlat hr hdrains
      rw [acquireLoop]
      generalize q.tryAcquire r s = y at htry
      obtain ⟨s', e⟩ := y
      rcases htry with ⟨fence, rfl⟩ | ⟨rfl, hdrains', hearly⟩
      · exact ⟨r, fence, rfl, .inl rfl⟩
      · have hstart : r.start < (d + 1) * 1000000 := by
          rw [unixMilli] at hearly
          omega
        have hreach' : ∃ r' ∈ rs, (d + 1) * 1000000 ≤ r'.start :=
          (List.or_exists_of_exists_mem_cons hreach).resolve_left (not_le.mpr hstart)
        obtain ⟨r', fence, hret, hwhen⟩ := ih hdrains' hrs hreach' (i + 1) hpaced.2
        refine ⟨r', fence, ?_, .inr ?_⟩
        · dsimp only
          rw [hr.waits]
          exact hret
        · rcases hwhen with hhead | hbound
          · have hle := hpaced.start_le hhead
            omega
          · exact hbound

/-- `"b"` has the lock until 1000 ms and is not heard of again.  `"a"` tries
every 400 ms or so, and has the lock at its fourth attempt. -/
theorem taken_over_crashed :
    let q := Mutex.request "a" 1000000000
    let s := (OwnerCmd.run 0 "b" (.singleAcquire 1000 true) .init).1
    let tries : List q.Try := [0, 401, 802, 1203].map fun ms =>
      ⟨ms * 1000000, [], some (⟨[], ms⟩, (ms + 1) * 1000000), [], [], [], .elapsed⟩
    ∃ r fence, (Mutex.lock "a" 1000000000 tries s).2 = some (r, .guard fence) ∧
      (tries.head? = some r ∨ r.start < 1001 * 1000000 + 1000000 + 480000000) := by
  intro q s tries
  let p : RetryPolicy := ⟨400000000, 400000000⟩
  have hlock : s.single.lock = .present "b" (some 1000) := by decide +kernel
  have hdrains : q.Drains 1000 s := by
    intro v deadline h
    cases hlock.symm.trans h
    exact ⟨1000, rfl, le_refl _⟩
  have hprompt (r : q.Try) (h : r ∈ tries) : r.Prompt 1000000 := by
    obtain ⟨ms, -, rfl⟩ := List.mem_map.mp h
    refine ⟨⟨rfl, rfl⟩, nofun, ⟨_, _, rfl, nofun, ?_, ?_⟩, rfl⟩
    · dsimp only [unixMilli]
      omega
    · dsimp only
      omega
  have hpaced : p.Paced 1000000 Try.start 0 tries :=
    RetryPolicy.paced_of_flat (by decide) (by simp [tries]; decide) 0
  exact q.taken_over p trivial (by decide) (by decide) hdrains hprompt hpaced
    ⟨_, List.mem_of_getLast? rfl, by decide⟩

end Request

/-! ## Free permits -/

/-- `Semaphore.Available`. -/
def Semaphore.available (capacity : Nat) (s : Server) : Int :=
  let free : Int := capacity - s.permits.card
  if free < 0 then 0 else free

/-- Only attempts to acquire add permits. -/
theorem OwnerCmd.permits_of_not_acquires {c : OwnerCmd} (h : c.acquires = false) (t : Int)
    (a : String) {s : Server} (hm : (c.run t a s).1.permits.score m ≠ none) :
    s.permits.score m ≠ none := by
  cases c with
  | singleAcquire | semAcquire | readLock | writeLock => contradiction
  | semRenew now ttl n => exact fun hn => hm (semRenew_score_none now ttl (permitTokens a n) hn)
  | semRelease n =>
      obtain ⟨sc, hsc⟩ := Option.ne_none_iff_exists'.mp hm
      rw [score_of_semRelease hsc]
      exact Option.some_ne_none sc
  | singleRenew | singleRelease | readerRenew | readerRelease | writerRenew | writerRelease | zrem
  | hdel => exact hm

namespace Semaphore

/-- There is room for `tokens` beside everything that is stored, or they are all
live at `now`, or they have all expired by then and there is room beside the
rest. -/
def Ready (capacity : Nat) (tokens : List String) (now : Int) (z : Permits) : Prop :=
  z.card + tokens.length ≤ capacity ∨
    (∀ m ∈ tokens, ∃ sc, z.score m = some sc ∧ now < sc) ∨
    (∀ m ∈ tokens, ∀ sc, z.score m = some sc → sc ≤ now) ∧
      (z.remAll tokens).card + tokens.length ≤ capacity

namespace Ready

variable {capacity : Nat} {tokens : List String} {now : Int} {z : Permits}

/-- Then the tokens are not refused. -/
theorem int (h : Ready capacity tokens now z) (ttl : Int) :
    ∃ n, (semAcquire now ttl capacity tokens z).2 = .int n := by
  rcases semAcquire_cases now ttl capacity tokens z with
    ⟨-, heq⟩ | ⟨⟨m, hm, hmiss⟩, hfull, -⟩ | ⟨-, -, heq⟩
  · exact ⟨_, congrArg Prod.snd heq⟩
  · have hcard : (z.remUpTo now).card ≤ z.card := ZSet.card_filter_le ..
    rcases h with hroom | hlive | ⟨hdead, hroom⟩
    · omega
    · obtain ⟨sc, hsc, hlt⟩ := hlive m hm
      rw [LeaseKind.score_remUpTo_eq_some.mpr ⟨hsc, hlt⟩] at hmiss
      contradiction
    · -- what the reclamation leaves is not of `tokens`
      have hothers : (z.remUpTo now).card ≤ (z.remAll tokens).card := by
        refine ZSet.card_le_of_score fun m sc hsc => ?_
        obtain ⟨hstored, hlt⟩ := LeaseKind.score_remUpTo_eq_some.mp hsc
        have hnot : m ∉ tokens := fun hm => absurd (hdead m hm sc hstored) (not_le.mpr hlt)
        rw [ZSet.score_remAll, if_neg hnot, hstored]
        exact Option.some_ne_none sc
      omega
  · exact ⟨_, congrArg Prod.snd heq⟩

/-- And neither are they the next time. -/
theorem exec (h : Ready capacity tokens now z) (ttl : Int) :
    Ready capacity tokens now (semAcquire now ttl capacity tokens z).1 := by
  obtain ⟨n, hn⟩ := h.int ttl
  rcases semAcquire_cases now ttl capacity tokens z with
    ⟨hown, heq⟩ | ⟨-, -, heq⟩ | ⟨-, hroom, heq⟩
  · rw [heq]
    refine .inr (.inl fun m hm => ?_)
    obtain ⟨sc, hsc⟩ := hown m hm
    exact ⟨sc, hsc, (LeaseKind.score_remUpTo_eq_some.mp hsc).2⟩
  · rw [heq] at hn
    contradiction
  · rw [heq]
    have hadded (m : String) (hm : m ∈ tokens) :
        ((z.remUpTo now).addAll tokens (now + ttl)).score m = some (now + ttl) :=
      (ZSet.score_addAll ..).trans (if_pos hm)
    by_cases httl : 0 < ttl
    · exact .inr (.inl fun m hm => ⟨now + ttl, hadded m hm, by omega⟩)
    · refine .inr (.inr ⟨fun m hm sc hsc => ?_, ?_⟩)
      · cases (hadded m hm).symm.trans hsc
        omega
      · have hothers : (((z.remUpTo now).addAll tokens (now + ttl)).remAll tokens).card ≤
            (z.remUpTo now).card := by
          refine ZSet.card_le_of_score fun m sc hsc => ?_
          rw [ZSet.score_remAll, ZSet.score_addAll] at hsc
          split at hsc
          · contradiction
          · rw [hsc]
            exact Option.some_ne_none sc
        exact (Nat.add_le_add_right hothers _).trans hroom

/-- Nothing is added, and the tokens are left alone. -/
theorem of_score {z' : Permits} (h : Ready capacity tokens now z)
    (hown : ∀ m ∈ tokens, z'.score m = z.score m)
    (hall : ∀ m, z'.score m ≠ none → z.score m ≠ none) : Ready capacity tokens now z' := by
  rcases h with hroom | hlive | ⟨hdead, hroom⟩
  · have hcard : z'.card ≤ z.card :=
      ZSet.card_le_of_score fun m sc hsc => hall m (hsc ▸ Option.some_ne_none sc)
    exact .inl (by omega)
  · exact .inr (.inl fun m hm => by rw [hown m hm]; exact hlive m hm)
  · refine .inr (.inr ⟨fun m hm sc hsc => hdead m hm sc ((hown m hm).symm.trans hsc), ?_⟩)
    have hcard : (z'.remAll tokens).card ≤ (z.remAll tokens).card := by
      refine ZSet.card_le_of_score fun m sc hsc => ?_
      rw [ZSet.score_remAll] at hsc ⊢
      split at hsc
      · contradiction
      · next hm => rw [if_neg hm]; exact hall m (hsc ▸ Option.some_ne_none sc)
    omega

end Ready

variable {q : Request} {capacity : Nat} {n : Fin (2 ^ 53)} {now : Int}

theorem Ready.found {x : Turn q.id} (hothers : ∀ e ∈ x.others, e.cmd.acquires = false)
    {s : Server} (h : Ready capacity (permitTokens q.id n) now s.permits) :
    Ready capacity (permitTokens q.id n) now (x.found s).permits := by
  have hall (es : List (Foreign q.id)) (hes : ∀ e ∈ es, e.cmd.acquires = false) {s : Server}
      (h : Ready capacity (permitTokens q.id n) now s.permits) :
      Ready capacity (permitTokens q.id n) now (Foreign.runAll es s).permits := by
    induction es generalizing s with
    | nil => exact h
    | cons e es ih =>
        obtain ⟨he, hes⟩ := List.forall_mem_cons.mp hes
        refine ih hes (h.of_score (fun m hm => ?_) fun m hm => ?_)
        · obtain ⟨i, -, rfl⟩ := mem_permitTokens.mp hm
          have hsame := e.cmd.holdings_of_not_acquires he e.time (s.evict e.time) e.ne
          exact congrFun (congrArg Holdings.permit hsame) i
        · exact e.cmd.permits_of_not_acquires he e.time e.owner (s := s.evict e.time) hm
  exact hall x.others hothers h

theorem Ready.execs (hq : q.wanted = .permits capacity n pos) {xs : List (Turn q.id)}
    (hothers : ∀ x ∈ xs, ∀ e ∈ x.others, e.cmd.acquires = false) {s : Server}
    (h : Ready capacity (permitTokens q.id n) (unixMilli start) s.permits) :
    Ready capacity (permitTokens q.id n) (unixMilli start) (q.execs start xs s).permits := by
  induction xs generalizing s with
  | nil => exact h
  | cons x xs ih =>
      obtain ⟨hx, hxs⟩ := List.forall_mem_cons.mp hothers
      refine ih hxs ?_
      show Ready _ _ _ (q.exec start x s).1.permits
      rw [Request.exec, Request.cmd_permits hq]
      exact (h.found hx).exec (milliseconds q.ttl)

/-- **Available permits can be had**: when `Available` has answered `n` or more,
a call for `n` permits gets them at its first attempt, whatever timestamp that
carries, as long as nobody else tries to acquire before. -/
theorem granted_of_available (retries : Bool)
    (hq : q.wanted = .permits capacity n pos) {s : Server} (hfree : n.val ≤ available capacity s)
    {r : q.Try} {x : Turn q.id} (rs : List q.Try) (hheard : r.heard = some (x, back))
    (hothers : ∀ y ∈ r.unheard ++ [x], ∀ e ∈ y.others, e.cmd.acquires = false)
    (htime : back < requestExpiry r.start q.ttl) :
    (q.call retries (r :: rs) s).2 = some (r, .guard 0) := by
  obtain ⟨hbefore, hx⟩ := List.forall_mem_append.mp hothers
  have hready : Ready capacity (permitTokens q.id n) (unixMilli r.start) s.permits := by
    refine .inl ?_
    rw [length_permitTokens]
    rw [available] at hfree
    split at hfree <;> omega
  obtain ⟨m, hm⟩ : ∃ m, (q.exec r.start x (q.execs r.start r.unheard s)).2 = .int m := by
    rw [Request.exec, Request.cmd_permits hq]
    exact ((hready.execs hq hbefore).found (hx x List.mem_cons_self)).int _
  have hfence : q.fence (.int m) = 0 := by
    unfold Request.fence
    rw [hq]
  have htry : (q.tryAcquire r s).2 = .granted 0 := by
    rw [Request.tryAcquire, Request.commands, hheard]
    dsimp only
    rw [hm, Request.answered_granted htime, hfence]
  exact Request.call_of_granted htry retries rs

/-- Two of three permits are free, also to a client whose clock is an hour
behind; the holder of the third renews it between two executions of the
attempt. -/
theorem granted_of_available_slow_clock :
    let s := (OwnerCmd.run 0 "b" (.semAcquire 3600000 1000 3 1) .init).1
    let q : Request := ⟨"a", 1000000000, .permits 3 2 (by decide)⟩
    let r : q.Try :=
      ⟨0, [⟨[], 50⟩], some (⟨[⟨100, "b", .semRenew 3600100 1000 1, by decide⟩], 200⟩, 1000000), [],
        [], [], .done⟩
    available 3 s = 2 ∧ (q.call false [r] s).2 = some (r, .guard 0) := by
  intro s q r
  have hfree : available 3 s = 2 := by decide +kernel
  exact ⟨hfree, granted_of_available false rfl (by rw [hfree]; decide) [] rfl
    (by simp [r, OwnerCmd.acquires]) (by decide)⟩

end Semaphore

end Distsync
