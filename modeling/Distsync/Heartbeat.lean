import Distsync.RWMutex.Backoff
import Distsync.Renewer

/-!
# Distsync.Heartbeat

The loop of a `Renewer`, its ticker, and the deadline of the handle, in time.
`startRenewal` has it renew the lease, `startWatchdog` has it look whether the
lease is still held.

The ticker fires every `renewalInterval` and holds one tick at most, the loop
takes it when it is back from the last call, and a call that fails is repeated
at the next tick.  How late a call can be sent then depends on how long calls
take and on how many fail in a row.  As long as that is within the validity of a
request, renewal keeps the guard (`Heartbeat.never_lost`).  When the grant
disappears from the server all the same, either loop has it marked lost within
as much time (`Heartbeat.loss_noticed`).
-/

namespace Distsync

open Trans

/-! ## The interval -/

/-- `renewalInterval`, in nanoseconds, with an exact product. -/
def renewalInterval (ttl : Int) (jitter : Jitter) : Int :=
  let base := ttl.tdiv 3
  let base := if base ≤ 0 then 1000000000 else base
  ⌊(base : ℚ) * jitter.factor⌋

/-- Whatever the jitter, the interval is at most two fifths of the TTL, and for
all but the shortest TTLs it is not zero. -/
theorem renewalInterval_bounds (httl : 6 ≤ ttl) (jitter : Jitter) :
    0 < renewalInterval ttl jitter ∧ renewalInterval ttl jitter ≤ 2 * ttl / 5 := by
  obtain ⟨b, hb⟩ : ∃ b, b = ttl.tdiv 3 := ⟨_, rfl⟩
  have hdiv : ttl.tdiv 3 = ttl / 3 := Int.tdiv_eq_ediv_of_nonneg (by omega)
  have hpos : 2 ≤ b := by omega
  have hq : (2 : ℚ) ≤ b := by exact_mod_cast hpos
  have hbase : renewalInterval ttl jitter = ⌊(b : ℚ) * jitter.factor⌋ := by
    rw [renewalInterval, ← hb, if_neg (by omega)]
  rw [hbase]
  constructor
  · rw [Int.floor_pos]
    calc (1 : ℚ) ≤ 2 * (4 / 5) := by norm_num
      _ ≤ b * jitter.factor := by
        have hle := jitter.le_factor
        gcongr
  · have hfloor : 5 * ⌊(b : ℚ) * jitter.factor⌋ ≤ 6 * b := by
      have hle : (⌊(b : ℚ) * jitter.factor⌋ : ℚ) ≤ b * (6 / 5) :=
        (Int.floor_le _).trans (by have hlt := jitter.factor_lt.le; gcongr)
      have hle : 5 * (⌊(b : ℚ) * jitter.factor⌋ : ℚ) ≤ 6 * b := by linarith
      exact_mod_cast hle
    omega

/-- A TTL in nanoseconds whose third is at least two, so that the interval is
positive for every jitter. -/
structure LoopTtl where
  ns : Int
  six_le_ns : 6 ≤ ns

/-! ## The loop in time -/

/-- Where the loop is. -/
inductive Beat where
  /-- At `select`, with no tick in the channel. -/
  | waiting
  /-- At `select`, which can take a tick since then. -/
  | ready (since : Int)
  /-- In the call that was sent at `start`, with a tick in the channel or not. -/
  | calling (start : Int) (buffered : Bool)
  /-- A call has returned `ErrLost`. -/
  | ended
deriving DecidableEq

/-- What the loop calls. -/
inductive Duty where
  /-- `startRenewal`. -/
  | renew
  /-- `startWatchdog`. -/
  | watch
deriving DecidableEq

/-- What is assumed of Redis and of the scheduler. -/
structure Pace where
  /-- How long a call of `TryAcquire`, `renew` or `Held` takes at most. -/
  call : Int
  /-- How long the loop takes at most to receive a tick that is there. -/
  latency : Int
  /-- How many calls in a row fail at most. -/
  failures : Nat
  call_nonneg : 0 ≤ call
  latency_nonneg : 0 ≤ latency

structure Heartbeat where
  now : Int
  /-- When the ticker fires next. -/
  nextTick : Int
  beat : Beat
  /-- `ExpiresAt` of the lease. -/
  expiresAt : Int
  /-- `lostCtx` is canceled. -/
  lost : Bool
  /-- The calls that have failed since the last that succeeded. -/
  failed : Nat
  /-- When the last call was sent that found the lease held. -/
  confirmed : Int
  /-- Since when the server does not have the grant any more. -/
  gone : Option Int
deriving DecidableEq

/-- What can happen next. -/
inductive HeartbeatEvent where
  | elapse (now : Int)
  /-- The ticker fires. -/
  | fire
  /-- The loop receives a tick and makes its call. -/
  | receive
  /-- The call has its answer and returns. -/
  | answer (verdict : Verdict)
  /-- The deadline timer fires. -/
  | expire
  /-- The grant is deleted, evicted or lost in a failover. -/
  | vanish
deriving DecidableEq

/-- The ticker fires: a tick that nobody takes is dropped. -/
def Beat.tick (now : Int) : Beat → Beat
  | waiting => ready now
  | calling start _ => calling start true
  | ready since => ready since
  | ended => ended

/-- The loop is not later than assumed. -/
def Beat.onTime (E : Pace) (now : Int) : Beat → Bool
  | waiting | ended => true
  | ready since => now ≤ since + E.latency
  | calling start _ => now ≤ start + E.call

namespace Heartbeat

/-- The call has found the lease lost. -/
def fail (x : Heartbeat) : Heartbeat := { x with lost := true, beat := .ended }

/-- How the call begins: the checks of `renew` and of `withLeaseDeadline`. -/
def callStart (x : Heartbeat) : Heartbeat :=
  if x.lost || x.expiresAt ≤ x.now then x.fail else { x with beat := .calling x.now false }

/-- How the call ends: `withLeaseDeadline` checks the loss and the deadline
again. -/
def callEnd (buffered : Bool) (x : Heartbeat) : Heartbeat :=
  if x.lost || x.expiresAt ≤ x.now then x.fail
  else { x with beat := if buffered then .ready x.now else .waiting }

/-- What `Renew` or `Held` makes of its answer, and the rest of the call. -/
def answered (D : Duty) (T : LoopTtl) (start : Int) (buffered : Bool) (x : Heartbeat) :
    Verdict → Heartbeat
  | .ok =>
      match D with
      | .renew =>
          match renewResult (some x.expiresAt) (requestExpiry start T.ns) x.now with
          | some expiresAt =>
              { x with expiresAt := expiresAt, failed := 0, confirmed := start }.callEnd buffered
          | none => x.fail
      | .watch => { x with failed := 0, confirmed := start }.callEnd buffered
  | .failed => { x with failed := x.failed + 1 }.callEnd buffered
  | .lost => x.fail

/-- The answer to a call sent at `start` is one that Redis can give: the server
looked between then and now. -/
def CanAnswer (E : Pace) (start : Int) (x : Heartbeat) : Verdict → Prop
  | .ok => ∀ g ∈ x.gone, start ≤ g
  | .failed => x.failed < E.failures
  | .lost => x.gone ≠ none

instance (E : Pace) (start : Int) (x : Heartbeat) : DecidablePred (CanAnswer E start x) := fun v => by
  cases v <;> unfold CanAnswer <;> infer_instance

/-- One event, if it can happen with the pace that is assumed. -/
def step (D : Duty) (E : Pace) (T : LoopTtl) (jitter : Jitter) (x : Heartbeat) :
    HeartbeatEvent → Option Heartbeat
  | .elapse t =>
      if x.now ≤ t ∧ t ≤ x.nextTick ∧ x.beat.onTime E t = true then some { x with now := t } else none
  | .fire =>
      if x.nextTick ≤ x.now then
        some { x with
          nextTick := x.nextTick + renewalInterval T.ns jitter
          beat := x.beat.tick x.now }
      else none
  | .receive =>
      match x.beat with
      | .ready _ => some x.callStart
      | _ => none
  | .answer verdict =>
      match x.beat with
      | .calling start buffered =>
          if x.CanAnswer E start verdict then some (x.answered D T start buffered verdict) else none
      | _ => none
  | .expire => if x.expiresAt ≤ x.now then some { x with lost := true } else none
  | .vanish => if x.gone = none then some { x with gone := some x.now } else none

def Step (D : Duty) (E : Pace) (T : LoopTtl) (jitter : Jitter) (x x' : Heartbeat) : Prop :=
  ∃ e, x.step D E T jitter e = some x'

/-- A grant of a request sent at `start` has come back, and `startRenewal` or
`startWatchdog` is called. -/
def Init (E : Pace) (T : LoopTtl) (jitter : Jitter) (x : Heartbeat) : Prop :=
  ∃ start now, start ≤ now ∧ now ≤ start + E.call ∧
    x = ⟨now, now + renewalInterval T.ns jitter, .waiting, requestExpiry start T.ns, false, 0, start,
      none⟩

end Heartbeat

/-! ## How far behind a call can be -/

namespace Pace

variable (E : Pace) (T : LoopTtl)

/-- How long a request protects its lease. -/
def validity : Int := T.ns - T.ns.tdiv 100 - 1000000

/-- Between two calls. -/
def period : Int := max (2 * T.ns / 5) E.call + E.latency

/-- When a call is sent after `n` others have failed, the last request that was
confirmed is at most this old. -/
def behind (n : Nat) : Int := E.call + (n + 1) * E.period T

/-- When the last of these calls has returned. -/
def reaction : Int := E.behind T E.failures + E.call

/-- What is left of the validity of a request then. -/
def margin : Int := validity T - E.reaction T

/-- A request is valid until the last of these calls has returned. -/
def Fits : Prop := 0 < E.margin T

instance : Decidable (E.Fits T) := inferInstanceAs (Decidable (_ < _))

theorem behind_zero : E.behind T 0 = E.call + E.period T := by
  rw [behind]
  push_cast
  ring

theorem behind_succ (n : Nat) : E.behind T (n + 1) = E.behind T n + E.period T := by
  rw [behind, behind]
  push_cast
  ring

theorem period_pos : 0 < E.period T := by
  have hlatency := E.latency_nonneg
  have hsix := T.six_le_ns
  have hmax := le_max_left (2 * T.ns / 5) E.call
  rw [period]
  omega

theorem behind_mono (h : m ≤ n) : E.behind T m ≤ E.behind T n := by
  induction h with
  | refl => exact le_refl _
  | step _ ih =>
      have hpos := E.period_pos T
      rw [behind_succ]
      omega

end Pace

namespace Heartbeat

variable {D : Duty} {E : Pace} {T : LoopTtl} {jitter : Jitter} {x x' : Heartbeat}

/-- The next call is sent, or was sent, no later than `t`. -/
def SentBy (E : Pace) (T : LoopTtl) (t : Int) (x : Heartbeat) : Prop :=
  t ≤ x.confirmed + E.behind T x.failed

/-- What holds of the loop where it is. -/
def Within (E : Pace) (T : LoopTtl) (jitter : Jitter) (x : Heartbeat) : Beat → Prop
  | .waiting => x.SentBy E T (x.nextTick + E.latency)
  | .ready since =>
      since ≤ x.now ∧ x.now ≤ since + E.latency ∧ x.SentBy E T (since + E.latency)
  | .calling start buffered =>
      start ≤ x.now ∧ x.now ≤ start + E.call ∧ x.SentBy E T start ∧
        (buffered = false → x.nextTick ≤ start + renewalInterval T.ns jitter)
  | .ended => x.lost = true

variable (E T jitter) in
structure Inv (x : Heartbeat) : Prop where
  failed : x.failed ≤ E.failures
  now_le : x.now ≤ x.nextTick
  nextTick_le : x.nextTick ≤ x.now + renewalInterval T.ns jitter
  confirmed_le : x.confirmed ≤ x.now
  confirmed_le_gone : ∀ g ∈ x.gone, x.confirmed ≤ g
  within : x.Within E T jitter x.beat

/-- Until the guard is lost, a call has been confirmed lately. -/
theorem Inv.now_le_reaction (hi : x.Inv E T jitter) (hlost : x.lost = false) :
    x.now ≤ x.confirmed + E.reaction T := by
  have hbehind := E.behind_mono T hi.failed
  have hcall := E.call_nonneg
  have hlatency := E.latency_nonneg
  have hnow := hi.now_le
  have hwithin := hi.within
  rw [Pace.reaction]
  cases hb : x.beat with
  | waiting =>
      rw [hb] at hwithin
      have hsent : _ ≤ _ := hwithin
      omega
  | ready since =>
      rw [hb] at hwithin
      obtain ⟨-, hle, hsent⟩ := hwithin
      have hsent : _ ≤ _ := hsent
      omega
  | calling start buffered =>
      rw [hb] at hwithin
      obtain ⟨-, hle, hsent, -⟩ := hwithin
      have hsent : _ ≤ _ := hsent
      omega
  | ended =>
      rw [hb] at hwithin
      cases hlost.symm.trans hwithin

theorem Init.inv (h : Init E T jitter x) : x.Inv E T jitter := by
  obtain ⟨start, now, hle, hcall, rfl⟩ := h
  obtain ⟨hpos, hbound⟩ := renewalInterval_bounds T.six_le_ns jitter
  refine ⟨Nat.zero_le _, ?_, le_refl _, hle, nofun, ?_⟩
  · show now ≤ now + renewalInterval T.ns jitter
    omega
  · have hmax := le_max_left (2 * T.ns / 5) E.call
    show now + renewalInterval T.ns jitter + E.latency ≤ start + E.behind T 0
    rw [Pace.behind_zero, Pace.period]
    omega

theorem Inv.fail (hi : x.Inv E T jitter) : x.fail.Inv E T jitter := { hi with within := rfl }

/-- A call that has returned is followed by the next within a period. -/
theorem inv_callEnd (hfailed : x.failed ≤ E.failures) (hnow : x.now ≤ x.nextTick)
    (htick : x.nextTick ≤ x.now + renewalInterval T.ns jitter) (hconf : x.confirmed ≤ x.now)
    (hgone : ∀ g ∈ x.gone, x.confirmed ≤ g) (hcall : x.now ≤ s + E.call)
    (hbuffered : buffered = false → x.nextTick ≤ s + renewalInterval T.ns jitter)
    (hsent : x.SentBy E T (s + E.period T)) : (x.callEnd buffered).Inv E T jitter := by
  have hlatency := E.latency_nonneg
  have hsent : _ ≤ _ := hsent
  have hinterval := (renewalInterval_bounds T.six_le_ns jitter).2
  have hleft := le_max_left (2 * T.ns / 5) E.call
  have hright := le_max_right (2 * T.ns / 5) E.call
  rw [Pace.period] at hsent
  rw [callEnd]
  split
  · exact ⟨hfailed, hnow, htick, hconf, hgone, rfl⟩
  · refine ⟨hfailed, hnow, htick, hconf, hgone, ?_⟩
    cases buffered with
    | true =>
        refine ⟨le_refl _, ?_, ?_⟩
        · show x.now ≤ x.now + E.latency
          omega
        · show x.now + E.latency ≤ x.confirmed + E.behind T x.failed
          omega
    | false =>
        have htick' := hbuffered rfl
        show x.nextTick + E.latency ≤ x.confirmed + E.behind T x.failed
        omega

theorem Inv.answered (hi : x.Inv E T jitter) (hb : x.beat = .calling start buffered)
    (hv : x.CanAnswer E start v) : (x.answered D T start buffered v).Inv E T jitter := by
  have hwithin := hi.within
  rw [hb] at hwithin
  obtain ⟨hstart, hcall, hsent, hbuffered⟩ := hwithin
  have hsent : _ ≤ _ := hsent
  -- a call that finds the lease held is the new reference
  have hok (hv' : ∀ g ∈ x.gone, start ≤ g) (e : Int) :
      ({ x with expiresAt := e, failed := 0, confirmed := start }.callEnd
      buffered).Inv E T jitter := by
    refine inv_callEnd (s := start) (Nat.zero_le _) hi.now_le hi.nextTick_le hstart hv' hcall
      hbuffered ?_
    have hnonneg := E.call_nonneg
    show start + E.period T ≤ start + E.behind T 0
    rw [Pace.behind_zero]
    omega
  cases v with
  | lost => exact hi.fail
  | failed =>
      refine inv_callEnd (s := start) hv hi.now_le hi.nextTick_le hi.confirmed_le
        hi.confirmed_le_gone hcall hbuffered ?_
      show start + E.period T ≤ x.confirmed + E.behind T (x.failed + 1)
      rw [Pace.behind_succ]
      omega
  | ok =>
      cases D with
      | watch => exact hok hv x.expiresAt
      | renew =>
          dsimp only [Heartbeat.answered]
          split
          · exact hok hv _
          · exact hi.fail

theorem Inv.elapse (hi : x.Inv E T jitter) (hle : x.now ≤ t) (htick : t ≤ x.nextTick)
    (htime : x.beat.onTime E t = true) : { x with now := t }.Inv E T jitter := by
  have hnext := hi.nextTick_le
  have hwithin := hi.within
  refine ⟨hi.failed, htick, ?_, hi.confirmed_le.trans hle, hi.confirmed_le_gone, ?_⟩
  · show x.nextTick ≤ t + renewalInterval T.ns jitter
    omega
  · show Within E T jitter { x with now := t } x.beat
    cases hb : x.beat with
    | waiting =>
        rw [hb] at hwithin
        exact hwithin
    | ready since =>
        rw [hb] at hwithin htime
        exact ⟨hwithin.1.trans hle, of_decide_eq_true htime, hwithin.2.2⟩
    | calling start buffered =>
        rw [hb] at hwithin htime
        exact ⟨hwithin.1.trans hle, of_decide_eq_true htime, hwithin.2.2⟩
    | ended =>
        rw [hb] at hwithin
        exact hwithin

theorem Inv.fire (hi : x.Inv E T jitter) (htick : x.nextTick ≤ x.now) :
    { x with
      nextTick := x.nextTick + renewalInterval T.ns jitter
      beat := x.beat.tick x.now }.Inv E T jitter := by
  have hpos := (renewalInterval_bounds T.six_le_ns jitter).1
  have hlatency := E.latency_nonneg
  have hnow := hi.now_le
  have hwithin := hi.within
  refine ⟨hi.failed, ?_, ?_, hi.confirmed_le, hi.confirmed_le_gone, ?_⟩
  · show x.now ≤ x.nextTick + renewalInterval T.ns jitter
    omega
  · show x.nextTick + renewalInterval T.ns jitter ≤ x.now + renewalInterval T.ns jitter
    omega
  · show Within E T jitter _ (x.beat.tick x.now)
    cases hb : x.beat with
    | waiting =>
        -- The tick comes when it was expected.
        have heq : x.nextTick = x.now := le_antisymm htick hnow
        rw [hb] at hwithin
        rw [Within, heq] at hwithin
        exact ⟨le_refl _, by show x.now ≤ x.now + E.latency; omega, hwithin⟩
    | ready since =>
        rw [hb] at hwithin
        exact hwithin
    | calling start buffered =>
        rw [hb] at hwithin
        exact ⟨hwithin.1, hwithin.2.1, hwithin.2.2.1, nofun⟩
    | ended =>
        rw [hb] at hwithin
        exact hwithin

theorem Inv.callStart (hi : x.Inv E T jitter) (hb : x.beat = .ready since) :
    x.callStart.Inv E T jitter := by
  have hwithin := hi.within
  rw [hb] at hwithin
  obtain ⟨-, hle, hsent⟩ := hwithin
  rw [Heartbeat.callStart]
  split
  · exact hi.fail
  · refine ⟨hi.failed, hi.now_le, hi.nextTick_le, hi.confirmed_le, hi.confirmed_le_gone,
      le_refl _, ?_, hle.trans hsent, fun _ => hi.nextTick_le⟩
    have hcall := E.call_nonneg
    show x.now ≤ x.now + E.call
    omega

/-- The loss is noticed by the loop at its next call. -/
theorem Inv.lose (hi : x.Inv E T jitter) : { x with lost := true }.Inv E T jitter := by
  refine { hi with within := ?_ }
  have hwithin := hi.within
  show Within E T jitter _ x.beat
  cases hb : x.beat with
  | ended => exact rfl
  | waiting | ready | calling =>
      rw [hb] at hwithin
      exact hwithin

theorem Inv.vanish (hi : x.Inv E T jitter) : { x with gone := some x.now }.Inv E T jitter := by
  refine { hi with confirmed_le_gone := ?_ }
  rintro _ ⟨⟩
  exact hi.confirmed_le

theorem Step.inv (hs : Step D E T jitter x x') (hi : x.Inv E T jitter) : x'.Inv E T jitter := by
  obtain ⟨e, he⟩ := hs
  cases e with
  | elapse t =>
      obtain ⟨⟨hle, htick, htime⟩, hx⟩ := Option.ite_none_right_eq_some.mp he
      exact Option.some.inj hx ▸ hi.elapse hle htick htime
  | fire =>
      obtain ⟨htick, hx⟩ := Option.ite_none_right_eq_some.mp he
      exact Option.some.inj hx ▸ hi.fire htick
  | receive =>
      cases hb : x.beat with
      | ready since =>
          rw [step, hb] at he
          exact Option.some.inj he ▸ hi.callStart hb
      | waiting | calling | ended => simp [step, hb] at he
  | answer v =>
      cases hb : x.beat with
      | calling start buffered =>
          rw [step, hb] at he
          obtain ⟨hv, hx⟩ := Option.ite_none_right_eq_some.mp he
          exact Option.some.inj hx ▸ hi.answered hb hv
      | waiting | ready | ended => simp [step, hb] at he
  | expire =>
      obtain ⟨-, hx⟩ := Option.ite_none_right_eq_some.mp he
      exact Option.some.inj hx ▸ hi.lose
  | vanish =>
      obtain ⟨-, hx⟩ := Option.ite_none_right_eq_some.mp he
      exact Option.some.inj hx ▸ hi.vanish

theorem reach_inv (h : Reach (Init E T jitter) (Step D E T jitter) x) : x.Inv E T jitter :=
  h.invariant (fun _ => Init.inv) fun _ _ _ hi hs => hs.inv hi

/-- The TTL of `New`. -/
def defaultTtl : LoopTtl := ⟨10000000000, by decide⟩

/-- The middle of the range. -/
def evenJitter : Jitter := ⟨1, by norm_num, by norm_num⟩

/-- **Loss is noticed**: when the server has not had the grant any more for as
long as the calls take that can fail in a row, and the one after them, the guard
is marked lost, by renewal as by the watchdog. -/
theorem loss_noticed (h : Reach (Init E T jitter) (Step D E T jitter) x) (hgone : x.gone = some g)
    (hlate : g + E.reaction T < x.now) : x.lost = true := by
  have hi := reach_inv h
  by_contra hlost
  have hnow := hi.now_le_reaction (Bool.eq_false_iff.mpr hlost)
  have hconf := hi.confirmed_le_gone g hgone
  omega

/-- A watchdog with the default TTL and 800 ms for a call: the grant disappears
after a second, the check after the first tick finds it gone. -/
theorem loss_noticed_watchdog :
    let E : Pace := ⟨800000000, 100000000, 0, by decide, by decide⟩
    ∃ x, Reach (Init E defaultTtl evenJitter) (Step .watch E defaultTtl evenJitter) x ∧
      x.gone = some 1000000000 ∧ x.now = 6800000000 ∧ x.lost = true := by
  intro E
  have hinit : Reach (Init E defaultTtl evenJitter) (Step .watch E defaultTtl evenJitter)
      ⟨400000000, 3733333333, .waiting, 9899000000, false, 0, 0, none⟩ :=
    .init ⟨0, 400000000, by decide, by decide, by decide +kernel⟩
  have hrun := hinit.foldlM (show
    [.elapse 1000000000, .vanish, .elapse 3733333333, .fire, .receive, .elapse 4000000000,
      .answer .lost, .elapse 6800000000].foldlM (step .watch E defaultTtl evenJitter) _ =
      some ⟨6800000000, 7066666666, .ended, 9899000000, true, 0, 0, some 1000000000⟩ by
        decide +kernel)
  exact ⟨_, hrun, rfl, rfl, loss_noticed hrun rfl (by decide +kernel)⟩

/-! ## Renewal while the grant is there -/

/-- The guard is not lost, and its deadline is that of the last request that was
confirmed. -/
def Kept (T : LoopTtl) (x : Heartbeat) : Prop :=
  x.lost = false ∧ x.confirmed + Pace.validity T ≤ x.expiresAt

/-- The deadline is ahead by the margin. -/
theorem Kept.ahead (hk : x.Kept T) (hi : x.Inv E T jitter) : x.now + E.margin T ≤ x.expiresAt := by
  have hnow := hi.now_le_reaction hk.1
  have hexp := hk.2
  rw [Pace.margin]
  omega

/-- Neither check at the ends of a call finds the guard lost. -/
theorem not_overdue (hlost : x.lost = false) (hexp : x.now < x.expiresAt) :
    ¬(x.lost || decide (x.expiresAt ≤ x.now)) = true := by
  rw [hlost, Bool.false_or, decide_eq_true_eq]
  omega

theorem Kept.callEnd (hk : x.Kept T) (hexp : x.now < x.expiresAt) (buffered : Bool) :
    (x.callEnd buffered).Kept T := by
  rw [Heartbeat.callEnd, if_neg (not_overdue hk.1 hexp)]
  exact hk

theorem Kept.answered (hk : x.Kept T) (hi : x.Inv E T jitter) (hfits : E.Fits T)
    (hb : x.beat = .calling start buffered) (hv : x.CanAnswer E start v) (hgone : x.gone = none) :
    (x.answered .renew T start buffered v).Kept T := by
  have hahead := hk.ahead hi
  have hmargin : 0 < E.margin T := hfits
  have hexp : x.now < x.expiresAt := by omega
  cases v with
  | lost => exact absurd hgone hv
  | failed => exact Kept.callEnd (x := { x with failed := x.failed + 1 }) hk hexp buffered
  | ok =>
      have hwithin := hi.within
      rw [hb] at hwithin
      obtain ⟨-, hcall, -⟩ := hwithin
      have hbehind := E.behind_mono T (Nat.zero_le E.failures)
      have hzero := E.behind_zero T
      have hperiod := E.period_pos T
      have hnonneg := E.call_nonneg
      have hdeadline : requestExpiry start T.ns = start + Pace.validity T := rfl
      have hresult : ∃ e, renewResult (some x.expiresAt) (requestExpiry start T.ns) x.now = some e ∧
          start + Pace.validity T ≤ e ∧ x.now < e := by
        rw [Pace.margin, Pace.reaction] at hmargin
        rw [renewResult, hdeadline, if_neg (by omega)]
        refine ⟨_, rfl, ?_, ?_⟩ <;> split <;> omega
      obtain ⟨e, he, hle, hlt⟩ := hresult
      rw [Heartbeat.answered, he]
      exact Kept.callEnd (x := { x with expiresAt := e, failed := 0, confirmed := start })
        ⟨hk.1, hle⟩ hlt buffered

@[simp] theorem gone_callStart (x : Heartbeat) : x.callStart.gone = x.gone := by
  rw [callStart]
  split <;> rfl

@[simp] theorem gone_callEnd (buffered : Bool) (x : Heartbeat) :
    (x.callEnd buffered).gone = x.gone := by
  rw [callEnd]
  split <;> rfl

@[simp] theorem gone_answered (D : Duty) (start : Int) (buffered : Bool) (v : Verdict)
    (x : Heartbeat) : (x.answered D T start buffered v).gone = x.gone := by
  cases v with
  | lost => rfl
  | failed => exact gone_callEnd buffered _
  | ok =>
      cases D with
      | watch => exact gone_callEnd buffered _
      | renew =>
          dsimp only [answered]
          split
          · exact gone_callEnd buffered _
          · rfl

theorem Step.kept (hs : Step .renew E T jitter x x') (hi : x.Inv E T jitter) (hfits : E.Fits T)
    (hk : x.gone = none → x.Kept T) : x'.gone = none → x'.Kept T := by
  obtain ⟨e, he⟩ := hs
  have hmargin : 0 < E.margin T := hfits
  cases e with
  | elapse t =>
      obtain ⟨-, hx⟩ := Option.ite_none_right_eq_some.mp he
      cases hx
      exact hk
  | fire =>
      obtain ⟨-, hx⟩ := Option.ite_none_right_eq_some.mp he
      cases hx
      exact hk
  | receive =>
      cases hb : x.beat with
      | ready since =>
          rw [step, hb] at he
          cases he
          intro hgone
          rw [gone_callStart] at hgone
          have hahead := (hk hgone).ahead hi
          rw [callStart, if_neg (not_overdue (hk hgone).1 (by omega))]
          exact hk hgone
      | waiting | calling | ended => simp [step, hb] at he
  | answer v =>
      cases hb : x.beat with
      | calling start buffered =>
          rw [step, hb] at he
          obtain ⟨hv, hx⟩ := Option.ite_none_right_eq_some.mp he
          cases hx
          intro hgone
          rw [gone_answered] at hgone
          exact (hk hgone).answered hi hfits hb hv hgone
      | waiting | ready | ended => simp [step, hb] at he
  | expire =>
      obtain ⟨hexp, hx⟩ := Option.ite_none_right_eq_some.mp he
      cases hx
      intro hgone
      have hahead := (hk hgone).ahead hi
      omega
  | vanish =>
      obtain ⟨-, hx⟩ := Option.ite_none_right_eq_some.mp he
      cases hx
      nofun

/-- **Renewal keeps up**: if every call returns in time and no more than
`failures` of them fail in a row, then, whatever the jitter, a guard whose grant
stays on the server is never lost, and its deadline is always ahead by the
margin. -/
theorem never_lost (hfits : E.Fits T) (h : Reach (Init E T jitter) (Step .renew E T jitter) x)
    (hgone : x.gone = none) : x.lost = false ∧ x.now + E.margin T ≤ x.expiresAt := by
  have hk : x.gone = none → x.Kept T := by
    refine h.invariant ?_ fun x x' hx hk hs => hs.kept (reach_inv hx) hfits hk
    rintro _ ⟨start, now, -, -, rfl⟩ -
    exact ⟨rfl, le_of_eq rfl⟩
  exact ⟨(hk hgone).1, (hk hgone).ahead (reach_inv h)⟩

/-- With the default TTL and 800 ms for a call, the first renewal fails and the
second one succeeds. -/
theorem never_lost_defaultTtl :
    let E : Pace := ⟨800000000, 100000000, 1, by decide, by decide⟩
    ∃ x, Reach (Init E defaultTtl evenJitter) (Step .renew E defaultTtl evenJitter) x ∧
      x.now = 7500000000 ∧ x.expiresAt = 16965666666 ∧ x.lost = false := by
  intro E
  have hinit : Reach (Init E defaultTtl evenJitter) (Step .renew E defaultTtl evenJitter)
      ⟨400000000, 3733333333, .waiting, 9899000000, false, 0, 0, none⟩ :=
    .init ⟨0, 400000000, by decide, by decide, by decide +kernel⟩
  have hrun := hinit.foldlM (show
    [.elapse 3733333333, .fire, .receive, .elapse 4500000000, .answer .failed, .elapse 7066666666,
      .fire, .receive, .elapse 7500000000, .answer .ok].foldlM
        (step .renew E defaultTtl evenJitter) _ =
      some ⟨7500000000, 10399999999, .waiting, 16965666666, false, 0, 7066666666, none⟩ by
        decide +kernel)
  exact ⟨_, hrun, rfl, rfl, (never_lost (by decide +kernel) hrun rfl).1⟩

/-- A second failure in a row is one too many, even for calls that take no time. -/
example : ([.elapse 3333333333, .fire, .receive, .answer .failed, .elapse 6666666666, .fire, .receive,
    .answer .failed, .elapse 9899000000, .expire].foldlM
      (step .renew ⟨0, 0, 2, by decide, by decide⟩ defaultTtl evenJitter)
      ⟨0, 3333333333, .waiting, 9899000000, false, 0, 0, none⟩).map lost = some true := by
  decide +kernel

end Heartbeat

end Distsync
