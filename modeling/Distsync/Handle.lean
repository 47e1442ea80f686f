import Distsync.Trans
import Distsync.Lease

/-!
# Distsync.Handle

The handle of an acquired lease (`guard.go`): a context that is canceled when
the lease is lost, a deadline timer that follows the lease, and any number of
goroutines that renew, check or release it at the same time.

Each goroutine is a program counter, and a step of the system is one of its
atomic actions: a check, a call to the lease, `lostCancel`, or a section under
`timerMu`.  `checkDeadline` is one such section; `markLost` is a cancellation
followed by one.  The clock does not pass a timer that is due, and nothing is
assumed about the lease but that `ExpiresAt` does not decrease before the
lease is released.

The timer that `markLost` stops is always the one that is pending, if any is
(`Timing.pointed`), and until the handle is lost one is, due no later than the
lease expires (`Timing.armed`).  So loss is terminal and never late
(`loss_is_terminal`).
-/

namespace Distsync

open Trans Relation

/-- What `errors.Is` can find in an error. -/
inductive Cause where
  /-- `ErrLost`. -/
  | lost
  | other (code : Nat)
deriving DecidableEq

/-- An error by its causes: nil has none, and `errors.Join` appends. -/
abbrev Err := List Cause

/-- A `markLost` that is due when a call has returned `ErrLost`. -/
inductive Mark where
  /-- By `renew` itself. -/
  | own
  /-- By the background loop, unless it was stopped. -/
  | onLost
deriving DecidableEq

/-- Where a goroutine is. -/
inductive Pc where
  /-- At the check that `renew` begins with; `todo` is left to its caller. -/
  | entry (todo : List Mark)
  /-- At the checks that `withLeaseDeadline` begins with. -/
  | guard (todo : List Mark)
  /-- In the call to the lease, with the alarm on its deadline still to run or
  not. -/
  | calling (todo : List Mark) (alarmed : Bool)
  /-- At the final check of `withLeaseDeadline`. -/
  | answered (todo : List Mark) (err : Err)
  /-- `withLeaseDeadline` has returned. -/
  | returned (todo : List Mark) (err : Err)
  /-- In the alarm on the deadline of a call. -/
  | alarm
  /-- At the beginning of `release`. -/
  | release
  /-- In `release`, about to call the lease. -/
  | remote
  /-- In the call to release the lease. -/
  | releasing
  /-- At the beginning of `markLost`, before `next`. -/
  | cancel (next : Pc)
  /-- In `markLost`, at the section that stops the timer, before `next`. -/
  | disarm (next : Pc)
  | done (err : Err)
deriving DecidableEq

/-- Past the cancellation of a `markLost`. -/
def Pc.canceled : Pc → Bool
  | disarm _ | remote | releasing => true
  | _ => false

/-- If the handle is lost now, the call that is here returns `ErrLost`: its
checks are still to come, or it has found the loss. -/
def Pc.Doomed : Pc → Prop
  | entry _ | guard _ | calling _ _ | answered _ _ => True
  | returned _ err | done err => .lost ∈ err
  | cancel next | disarm next => next.Doomed
  | alarm | release | remote | releasing => False

/-- The final check of the call that is here is still to come. -/
def Pc.unchecked : Pc → Bool
  | entry _ | guard _ | calling _ _ | answered _ _ => true
  | _ => false

theorem Pc.doomed_of_unchecked {pc : Pc} (h : pc.unchecked = true) : pc.Doomed := by
  cases pc with
  | entry | guard | calling | answered => trivial
  | returned | alarm | release | remote | releasing | cancel | disarm | done => contradiction

/-- A handle and the goroutines that use it. -/
structure Handle where
  now : Int
  /-- `leas.ExpiresAt()`, with no value for the zero time. -/
  expiresAt : Option Int
  /-- `lostCtx` is canceled. -/
  lost : Bool
  released : Bool
  releaseMu : Bool
  releaseDone : Bool
  /-- The lease was told to release. -/
  releasing : Bool
  /-- `startRenewal` or `startWatchdog` was called. -/
  started : Bool
  /-- Some call of `markLost` is complete. -/
  marked : Bool
  deadlineTimer : Option Nat
  /-- The pending timers and when they are due. -/
  timers : Nat → Option Int
  nextTimer : Nat
  threads : Nat → Option Pc

namespace Handle

/-- `newHandle`, at any time, for a lease that expires at any time. -/
def Init (h : Handle) : Prop :=
  ∃ now expiresAt, h = ⟨now, expiresAt, false, false, false, false, false, false, false, none,
    fun _ => none, 0, fun _ => none⟩

/-- `!h.leas.ExpiresAt().After(time.Now())`. -/
def overdue (h : Handle) : Bool :=
  match h.expiresAt with
  | some e => e ≤ h.now
  | none => true

/-- `time.AfterFunc(remaining, h.checkDeadline)`. -/
def arm (h : Handle) (remaining : Int) : Handle :=
  { h with
    timers := Function.update h.timers h.nextTimer (some (h.now + remaining))
    deadlineTimer := some h.nextTimer
    nextTimer := h.nextTimer + 1 }

def checkDeadline (h : Handle) : Handle :=
  if h.lost then h
  else
    match h.expiresAt with
    | some e =>
        let remaining := e - h.now
        if remaining ≤ 0 then { h with lost := true, deadlineTimer := none } else h.arm remaining
    | none => { h with lost := true, deadlineTimer := none }

/-- The second half of `markLost`, under `timerMu`. -/
def stopTimer (h : Handle) : Handle :=
  match h.deadlineTimer with
  | some i =>
      { h with timers := Function.update h.timers i none, deadlineTimer := none, marked := true }
  | none => { h with marked := true }

/-- How `renew` begins. -/
def renewEntry (h : Handle) (todo : List Mark) : Pc :=
  if h.released || h.lost then .returned todo [.lost] else .guard (.own :: todo)

/-- How `withLeaseDeadline` begins. -/
def withLeaseDeadline (h : Handle) (todo : List Mark) : Pc :=
  if h.released || h.lost then .returned todo [.lost]
  else if h.overdue then .cancel (.returned todo [.lost])
  else .calling todo false

/-- How `withLeaseDeadline` ends. -/
def finalCheck (h : Handle) (todo : List Mark) (err : Err) : Pc :=
  if h.lost = true ∨ .lost ∈ err ∨ h.overdue = true then
    .cancel (.returned todo (.lost :: err))
  else .returned todo err

/-- The function that `context.AfterFunc` runs. -/
def alarmCheck (h : Handle) : Pc :=
  if h.overdue then .cancel (.done []) else .done []

/-- What a call does when `withLeaseDeadline` has returned. -/
def afterCall (err : Err) : List Mark → Pc
  | [] => .done err
  | _ :: todo => if .lost ∈ err then .cancel (.returned todo err) else .returned todo err

/-- An action of one goroutine. -/
inductive Act (h : Handle) : Pc → Handle → Pc → Prop
  | entry : Act h (.entry todo) h (h.renewEntry todo)
  | guard : Act h (.guard todo) h (h.withLeaseDeadline todo)
  /-- The lease answers, with any result. -/
  | answer (err : Err) : Act h (.calling todo alarmed) h (.answered todo err)
  | check : Act h (.answered todo err) h (h.finalCheck todo err)
  | alarm : Act h .alarm h h.alarmCheck
  | after (todo : List Mark) (err : Err) : Act h (.returned todo err) h (afterCall err todo)
  /-- The loop was stopped and reports nothing. -/
  | stopped : Act h (.returned (.onLost :: todo) err) h (.done err)
  | cancel : Act h (.cancel next) { h with lost := true } (.disarm next)
  | disarm : Act h (.disarm next) h.stopTimer next
  | releaseAgain (hmu : h.releaseMu = false) (hdone : h.releaseDone = true) :
      Act h .release h (.done [])
  | release (hmu : h.releaseMu = false) (hdone : h.releaseDone = false) :
      Act h .release { h with releaseMu := true, released := true } (.cancel .remote)
  | remote : Act h .remote { h with releasing := true } .releasing
  | released (err : Err) :
      Act h .releasing
        { h with releaseMu := false, releaseDone := err = [] ∨ .lost ∈ err } (.done err)

/-- Goroutine `k` moves to `pc`. -/
def put (h : Handle) (k : Nat) (pc : Pc) : Handle :=
  { h with threads := Function.update h.threads k (some pc) }

/-- `ExpiresAt` does not decrease; the zero time is before all others. -/
def NotBefore : Option Int → Option Int → Prop
  | none, _ => True
  | some e, e' => ∃ d, e' = some d ∧ e ≤ d

/-- The steps of the system. -/
inductive Step (h : Handle) : Handle → Prop
  | tick (hle : h.now ≤ t) (hdue : ∀ i due, h.timers i = some due → t ≤ due) :
      Step h { h with now := t }
  | lease (he : h.releasing = true ∨ NotBefore h.expiresAt e) : Step h { h with expiresAt := e }
  /-- `startRenewal` or `startWatchdog`. -/
  | start (hs : h.started = false) : Step h { h with started := true }.checkDeadline
  | fire (i : Nat) (ht : h.timers i = some due) (hdue : due ≤ h.now) :
      Step h { h with timers := Function.update h.timers i none }.checkDeadline
  | renew (hk : h.threads k = none) : Step h (h.put k (.entry []))
  | heartbeat (hk : h.threads k = none) : Step h (h.put k (.entry [.onLost]))
  | watchdog (hk : h.threads k = none) : Step h (h.put k (.guard [.onLost]))
  | release (hk : h.threads k = none) : Step h (h.put k .release)
  /-- The context of a call is done and its alarm starts. -/
  | alarm (hk : h.threads k = some (.calling todo false)) (hk' : h.threads k' = none) :
      Step h ((h.put k' .alarm).put k (.calling todo true))
  | act (hk : h.threads k = some pc) (ha : Act h pc h' pc') : Step h (h'.put k pc')

/-! ## The timer -/

/-- What holds of the clock, the lease and the timers. -/
structure Timing (h : Handle) : Prop where
  pointed : ∀ i due, h.timers i = some due → h.deadlineTimer = some i
  ahead : ∀ i due, h.timers i = some due → h.now ≤ due
  idle : h.started = false → ∀ i, h.timers i = none
  armed : h.started = true → h.lost = false →
    ∃ i due e, h.timers i = some due ∧ h.expiresAt = some e ∧ due ≤ e
  marked : h.marked = true → h.lost = true ∧ ∀ i, h.timers i = none
  releasing : h.releasing = true → h.lost = true

theorem Init.timing {h : Handle} (hi : h.Init) : h.Timing := by
  obtain ⟨now, e, rfl⟩ := hi
  exact ⟨by simp, by simp, by simp, by simp, by simp, by simp⟩

/-- A lost handle needs no timer. -/
theorem timing_of_lost {h : Handle} (hl : h.lost = true) (hnone : ∀ i, h.timers i = none) :
    h.Timing :=
  ⟨by simp [hnone], by simp [hnone], fun _ => hnone, by simp [hl], fun _ => ⟨hl, hnone⟩,
    fun _ => hl⟩

/-- `checkDeadline` with no timer pending arms one or finds the lease lost. -/
theorem timing_checkDeadline {h : Handle} (hs : h.started = true)
    (hnone : ∀ i, h.timers i = none) (hm : h.marked = true → h.lost = true)
    (hr : h.releasing = true → h.lost = true) : h.checkDeadline.Timing := by
  rw [checkDeadline]
  by_cases hl : h.lost = true
  · rw [if_pos hl]
    exact timing_of_lost hl hnone
  · rw [if_neg hl]
    cases he : h.expiresAt with
    | none => exact timing_of_lost rfl hnone
    | some e =>
        by_cases hrem : e - h.now ≤ 0
        · simp only [if_pos hrem]
          exact timing_of_lost rfl hnone
        · simp only [if_neg hrem]
          have hone : ∀ i due, (h.arm (e - h.now)).timers i = some due →
              i = h.nextTimer ∧ due = e := by
            intro i due hid
            by_cases heq : i = h.nextTimer
            · subst heq
              simp only [arm, Function.update_self, Option.some_inj] at hid
              exact ⟨rfl, by omega⟩
            · simp [arm, Function.update_of_ne heq, hnone] at hid
          refine ⟨?_, ?_, ?_, ?_, fun hm' => absurd (hm hm') hl, fun hr' => absurd (hr hr') hl⟩
          · intro i due hid
            rw [(hone i due hid).1]
            rfl
          · intro i due hid
            rw [(hone i due hid).2]
            show h.now ≤ e
            omega
          · intro hs'
            exact absurd (hs.symm.trans hs') (by simp)
          · intro _ _
            refine ⟨h.nextTimer, h.now + (e - h.now), e, by simp [arm], he, by omega⟩

namespace Timing

theorem timers_eq_none {h : Handle} (ht : h.Timing) (hd : h.deadlineTimer ≠ some i) :
    h.timers i = none := by
  cases hid : h.timers i with
  | none => rfl
  | some due => exact absurd (ht.pointed i due hid) hd

theorem tick {h : Handle} (ht : h.Timing) (hdue : ∀ i due, h.timers i = some due → t ≤ due) :
    { h with now := t }.Timing :=
  ⟨ht.pointed, hdue, ht.idle, ht.armed, ht.marked, ht.releasing⟩

theorem lease {h : Handle} (ht : h.Timing) (he : h.releasing = true ∨ NotBefore h.expiresAt e) :
    { h with expiresAt := e }.Timing := by
  refine ⟨ht.pointed, ht.ahead, ht.idle, ?_, ht.marked, ht.releasing⟩
  intro hs hl
  obtain ⟨i, due, d, hid, hd, hle⟩ := ht.armed hs hl
  rcases he with hr | hgrow
  · exact absurd (ht.releasing hr) (by simpa using hl)
  · rw [hd] at hgrow
    obtain ⟨d', rfl, hle'⟩ := hgrow
    exact ⟨i, due, d', hid, rfl, hle.trans hle'⟩

theorem cancel {h : Handle} (ht : h.Timing) : { h with lost := true }.Timing :=
  ⟨ht.pointed, ht.ahead, ht.idle, by simp, fun hm => ⟨rfl, (ht.marked hm).2⟩, fun _ => rfl⟩

/-- Stopping the timer that the handle points to leaves none. -/
theorem stopTimer_timers {h : Handle} (ht : h.Timing) (i : Nat) : h.stopTimer.timers i = none := by
  rw [stopTimer]
  cases hd : h.deadlineTimer with
  | none => exact ht.timers_eq_none (by simp [hd])
  | some i' =>
      by_cases heq : i = i'
      · simp [heq]
      · simp only [Function.update_of_ne heq]
        exact ht.timers_eq_none (by simp [hd, Ne.symm heq])

theorem stopTimer {h : Handle} (ht : h.Timing) (hl : h.lost = true) : h.stopTimer.Timing := by
  have hnone := ht.stopTimer_timers
  have hlost : h.stopTimer.lost = true := by
    rw [Handle.stopTimer]
    split <;> exact hl
  exact timing_of_lost hlost hnone

/-- The timer that fires was the only one. -/
theorem fire {h : Handle} (ht : h.Timing) (hid : h.timers i = some due) :
    { h with timers := Function.update h.timers i none }.checkDeadline.Timing := by
  have hs : h.started = true := by
    by_contra hs
    rw [ht.idle (by simpa using hs)] at hid
    contradiction
  refine timing_checkDeadline hs ?_ (fun hm => (ht.marked hm).1) ht.releasing
  intro i'
  by_cases heq : i' = i
  · simp [heq]
  · simp only [Function.update_of_ne heq]
    exact ht.timers_eq_none (by simp [ht.pointed i due hid, Ne.symm heq])

end Timing

/-! ## The goroutines -/

@[simp] theorem canceled_renewEntry (h : Handle) (todo : List Mark) :
    (h.renewEntry todo).canceled = false := by
  rw [renewEntry]
  split <;> rfl

@[simp] theorem canceled_withLeaseDeadline (h : Handle) (todo : List Mark) :
    (h.withLeaseDeadline todo).canceled = false := by
  rw [withLeaseDeadline]
  split
  · rfl
  · split <;> rfl

@[simp] theorem canceled_finalCheck (h : Handle) (todo : List Mark) (err : Err) :
    (h.finalCheck todo err).canceled = false := by
  rw [finalCheck]
  split <;> rfl

@[simp] theorem canceled_alarmCheck (h : Handle) : h.alarmCheck.canceled = false := by
  rw [alarmCheck]
  split <;> rfl

@[simp] theorem canceled_afterCall (err : Err) (todo : List Mark) :
    (afterCall err todo).canceled = false := by
  cases todo with
  | nil => rfl
  | cons m todo =>
      rw [afterCall]
      split <;> rfl

/-- Timing, and every goroutine that has passed a cancellation has seen one. -/
structure Inv (h : Handle) : Prop where
  timing : h.Timing
  canceled : ∀ k pc, h.threads k = some pc → pc.canceled = true → h.lost = true

/-- A loss, or a complete `markLost`, of one state is one of the other. -/
structure Under (h h' : Handle) : Prop where
  lost : h.lost = true → h'.lost = true
  marked : h.marked = true → h'.marked = true

/-- What an action does to the rest of the handle. -/
theorem Act.inv {h h' : Handle} (ha : Act h pc h' pc') (ht : h.Timing)
    (hpc : pc.canceled = true → h.lost = true) :
    h'.Timing ∧ h'.threads = h.threads ∧ h.Under h' ∧ (pc'.canceled = true → h'.lost = true) := by
  cases ha with
  | entry => exact ⟨ht, rfl, ⟨id, id⟩, by simp⟩
  | guard => exact ⟨ht, rfl, ⟨id, id⟩, by simp⟩
  | answer err => exact ⟨ht, rfl, ⟨id, id⟩, by simp [Pc.canceled]⟩
  | check => exact ⟨ht, rfl, ⟨id, id⟩, by simp⟩
  | alarm => exact ⟨ht, rfl, ⟨id, id⟩, by simp⟩
  | after todo err => exact ⟨ht, rfl, ⟨id, id⟩, by simp⟩
  | stopped => exact ⟨ht, rfl, ⟨id, id⟩, by simp [Pc.canceled]⟩
  | cancel => exact ⟨ht.cancel, rfl, ⟨fun _ => rfl, id⟩, fun _ => rfl⟩
  | disarm =>
      have hl := hpc rfl
      have hframe : h.stopTimer.threads = h.threads ∧ h.stopTimer.lost = h.lost ∧
          h.stopTimer.marked = true := by
        rw [stopTimer]
        split <;> exact ⟨rfl, rfl, rfl⟩
      obtain ⟨hthreads, hlost, hmarked⟩ := hframe
      exact ⟨ht.stopTimer hl, hthreads, ⟨fun _ => hlost.trans hl, fun _ => hmarked⟩,
        fun _ => hlost.trans hl⟩
  | releaseAgain hmu hdone => exact ⟨ht, rfl, ⟨id, id⟩, by simp [Pc.canceled]⟩
  | release hmu hdone =>
      exact ⟨⟨ht.pointed, ht.ahead, ht.idle, ht.armed, ht.marked, ht.releasing⟩, rfl,
        ⟨id, id⟩, by simp [Pc.canceled]⟩
  | remote =>
      have hl := hpc rfl
      exact ⟨⟨ht.pointed, ht.ahead, ht.idle, ht.armed, ht.marked, fun _ => hl⟩, rfl,
        ⟨id, id⟩, fun _ => hl⟩
  | released err =>
      exact ⟨⟨ht.pointed, ht.ahead, ht.idle, ht.armed, ht.marked, ht.releasing⟩, rfl,
        ⟨id, id⟩, by simp [Pc.canceled]⟩

/-- `checkDeadline` touches no goroutine, and keeps what is lost. -/
theorem checkDeadline_frame (h : Handle) :
    h.checkDeadline.threads = h.threads ∧ h.Under h.checkDeadline := by
  rw [checkDeadline]
  by_cases hl : h.lost = true
  · rw [if_pos hl]
    exact ⟨rfl, id, id⟩
  · rw [if_neg hl]
    split
    · dsimp only
      split
      · exact ⟨rfl, fun _ => rfl, id⟩
      · exact ⟨rfl, id, id⟩
    · exact ⟨rfl, fun _ => rfl, id⟩

theorem Inv.checkDeadline {h : Handle} (ht : h.checkDeadline.Timing)
    (hc : ∀ k pc, h.threads k = some pc → pc.canceled = true → h.lost = true) :
    h.checkDeadline.Inv := by
  obtain ⟨hthreads, hunder⟩ := h.checkDeadline_frame
  exact ⟨ht, fun k pc hk hpc => hunder.lost (hc k pc (hthreads ▸ hk) hpc)⟩

theorem Inv.put {h : Handle} (hi : h.Inv) (k : Nat) (hpc : pc.canceled = true → h.lost = true) :
    (h.put k pc).Inv := by
  refine ⟨⟨hi.timing.pointed, hi.timing.ahead, hi.timing.idle, hi.timing.armed, hi.timing.marked,
    hi.timing.releasing⟩, ?_⟩
  intro k' pc' hk' hc
  rcases update_eq_some hk' with ⟨-, rfl⟩ | ⟨-, hk'⟩
  · exact hpc hc
  · exact hi.canceled k' pc' hk' hc

theorem Step.inv {h h' : Handle} (hstep : Step h h') (hi : h.Inv) : h'.Inv := by
  have ht := hi.timing
  cases hstep with
  | tick hle hdue => exact ⟨ht.tick hdue, hi.canceled⟩
  | lease he => exact ⟨ht.lease he, hi.canceled⟩
  | start hs =>
      have hm := fun hm => (ht.marked hm).1
      exact .checkDeadline (timing_checkDeadline rfl (ht.idle hs) hm ht.releasing) hi.canceled
  | fire i hid hdue => exact .checkDeadline (ht.fire hid) hi.canceled
  | renew hk => exact hi.put _ (by simp [Pc.canceled])
  | heartbeat hk => exact hi.put _ (by simp [Pc.canceled])
  | watchdog hk => exact hi.put _ (by simp [Pc.canceled])
  | release hk => exact hi.put _ (by simp [Pc.canceled])
  | alarm hk hk' => exact (hi.put _ (by simp [Pc.canceled])).put _ (by simp [Pc.canceled])
  | act hk ha =>
      obtain ⟨ht', hthreads, hunder, hpc'⟩ := ha.inv ht (hi.canceled _ _ hk)
      have hi' : Inv _ :=
        ⟨ht', fun k pc hk hc => hunder.lost (hi.canceled k pc (hthreads ▸ hk) hc)⟩
      exact hi'.put _ hpc'

theorem Init.inv {h : Handle} (hi : h.Init) : h.Inv := by
  refine ⟨hi.timing, ?_⟩
  obtain ⟨now, e, rfl⟩ := hi
  simp

theorem reach_inv {h : Handle} (hr : Reach Init Step h) : h.Inv :=
  hr.invariant (fun _ => Init.inv) (fun _ _ _ hi hstep => hstep.inv hi)

/-! ## After the loss -/

theorem Act.doomed {h h' : Handle} (ha : Act h pc h' pc') (hl : h.lost = true)
    (hd : pc.Doomed) : pc'.Doomed := by
  cases ha with
  | entry => simp [renewEntry, hl, Pc.Doomed]
  | guard => simp [withLeaseDeadline, hl, Pc.Doomed]
  | answer err => trivial
  | check => simp [finalCheck, hl, Pc.Doomed]
  | after todo err =>
      have herr : Cause.lost ∈ err := hd
      cases todo with
      | nil => exact herr
      | cons m todo =>
          rw [afterCall, if_pos herr]
          exact herr
  | stopped => exact hd
  | cancel => exact hd
  | disarm => exact hd
  | alarm | releaseAgain | release | remote | released => exact absurd hd (by simp [Pc.Doomed])

/-- The handle is lost, and goroutine `k` is going to return `ErrLost`. -/
def DoomedAt (k : Nat) (h : Handle) : Prop :=
  h.lost = true ∧ ∃ pc, h.threads k = some pc ∧ pc.Doomed

namespace DoomedAt

theorem put {h : Handle} (hd : h.DoomedAt k) (hpc : k' = k → pc.Doomed) :
    (h.put k' pc).DoomedAt k := by
  obtain ⟨hl, pc₀, hk, hd⟩ := hd
  refine ⟨hl, ?_⟩
  by_cases heq : k = k'
  · subst heq
    exact ⟨pc, Function.update_self .., hpc rfl⟩
  · exact ⟨pc₀, (Function.update_of_ne heq ..).trans hk, hd⟩

/-- A goroutine that starts is another one. -/
theorem put_fresh {h : Handle} (hd : h.DoomedAt k) (hk' : h.threads k' = none) (pc : Pc) :
    (h.put k' pc).DoomedAt k := by
  refine hd.put ?_
  rintro rfl
  obtain ⟨-, pc₀, hk, -⟩ := hd
  rw [hk'] at hk
  contradiction

theorem checkDeadline {h : Handle} (hd : h.DoomedAt k) : h.checkDeadline.DoomedAt k := by
  obtain ⟨hl, pc, hk, hd⟩ := hd
  obtain ⟨hthreads, hunder⟩ := h.checkDeadline_frame
  exact ⟨hunder.lost hl, pc, (congrFun hthreads k).trans hk, hd⟩

theorem step {h h' : Handle} (hd : h.DoomedAt k) (hi : h.Inv) (hstep : Step h h') :
    h'.DoomedAt k := by
  cases hstep with
  | tick hle hdue => exact hd
  | lease he => exact hd
  | start hs => exact checkDeadline hd
  | fire i hid hdue => exact checkDeadline hd
  | renew hk' => exact hd.put_fresh hk' _
  | heartbeat hk' => exact hd.put_fresh hk' _
  | watchdog hk' => exact hd.put_fresh hk' _
  | release hk' => exact hd.put_fresh hk' _
  | alarm hk' hnew => exact (hd.put_fresh hnew _).put fun _ => trivial
  | act hk' ha =>
      obtain ⟨-, hthreads, hunder, -⟩ := ha.inv hi.timing (hi.canceled _ _ hk')
      obtain ⟨hl, pc, hk, hpc⟩ := hd
      refine put ⟨hunder.lost hl, pc, hthreads ▸ hk, hpc⟩ ?_
      rintro rfl
      rw [hk, Option.some_inj] at hk'
      exact ha.doomed hl (hk' ▸ hpc)

end DoomedAt

theorem Step.under {h h' : Handle} (hstep : Step h h') (hi : h.Inv) : h.Under h' := by
  cases hstep with
  | start hs =>
      obtain ⟨-, hlost, hmarked⟩ := checkDeadline_frame { h with started := true }
      exact ⟨hlost, hmarked⟩
  | fire i hid hdue =>
      obtain ⟨-, hlost, hmarked⟩ :=
        checkDeadline_frame { h with timers := Function.update h.timers i none }
      exact ⟨hlost, hmarked⟩
  | act hk ha =>
      obtain ⟨-, -, ⟨hlost, hmarked⟩, -⟩ := ha.inv hi.timing (hi.canceled _ _ hk)
      exact ⟨hlost, hmarked⟩
  | tick | lease | renew | heartbeat | watchdog | release | alarm => exact ⟨id, id⟩

/-- What holds of a reachable state holds of all that follow. -/
theorem steps_under {h h' : Handle} (hi : h.Inv) (hs : ReflTransGen Step h h') :
    h'.Inv ∧ h.Under h' ∧ ∀ k, h.DoomedAt k → h'.DoomedAt k := by
  induction hs with
  | refl => exact ⟨hi, ⟨id, id⟩, fun _ => id⟩
  | tail _ hstep ih =>
      obtain ⟨hi', hunder, hdoomed⟩ := ih
      have hunder' := hstep.under hi'
      exact ⟨hstep.inv hi', ⟨hunder'.lost ∘ hunder.lost, hunder'.marked ∘ hunder.marked⟩,
        fun k hd => (hdoomed k hd).step hi' hstep⟩

/-- **Loss is terminal and not late.**  Of every reachable handle:

* once lost it stays lost, and every call whose final check is still to come
  returns `ErrLost`, whatever the lease answers;
* once started it is lost, or a timer is pending that is due no later than the
  lease expires, so the lease has not expired;
* once some `markLost` is complete, no timer is pending ever again. -/
theorem loss_is_terminal {h : Handle} (hr : Reach Init Step h) :
    (h.lost = true → ∀ h', ReflTransGen Step h h' → h'.lost = true ∧
      ∀ k pc err, h.threads k = some pc → pc.unchecked = true →
        h'.threads k = some (.done err) → .lost ∈ err) ∧
    (h.started = true → h.lost = true ∨
      (∃ i due e, h.timers i = some due ∧ h.expiresAt = some e ∧ due ≤ e) ∧
        ∃ e, h.expiresAt = some e ∧ h.now ≤ e) ∧
    (h.marked = true → ∀ h', ReflTransGen Step h h' → ∀ i, h'.timers i = none) := by
  have hi := reach_inv hr
  refine ⟨?_, ?_, ?_⟩
  · intro hl h' hs
    obtain ⟨-, hunder, hdoomed⟩ := steps_under hi hs
    refine ⟨hunder.lost hl, ?_⟩
    intro k pc err hk hpc hdone
    obtain ⟨-, pc', hk', hd⟩ := hdoomed k ⟨hl, pc, hk, Pc.doomed_of_unchecked hpc⟩
    rw [hdone, Option.some_inj] at hk'
    subst hk'
    exact hd
  · intro hs
    by_cases hl : h.lost = true
    · exact .inl hl
    · obtain ⟨i, due, e, hid, he, hle⟩ := hi.timing.armed hs (by simpa using hl)
      exact .inr ⟨⟨i, due, e, hid, he, hle⟩, e, he, (hi.timing.ahead i due hid).trans hle⟩
  · intro hm h' hs
    obtain ⟨hi', hunder, -⟩ := steps_under hi hs
    exact (hi'.timing.marked (hunder.marked hm)).2

/-- A renewal is under way when the lease expires and the timer finds it lost;
then the server accepts it.  The call still returns `ErrLost`. -/
theorem loss_is_terminal_late_answer : ∃ h, Reach Init Step h ∧ h.lost = true ∧
    h.expiresAt = some 200 ∧ h.threads 0 = some (.answered [.own] []) ∧
    ∀ h' err, ReflTransGen Step h h' → h'.threads 0 = some (.done err) → .lost ∈ err := by
  have hinit : Reach Init Step ⟨0, some 100, false, false, false, false, false, false, false, none,
    fun _ => none, 0, fun _ => none⟩ := .init ⟨0, some 100, rfl⟩
  have hstart := hinit.step (.start rfl)
  have hrenew := hstart.step (.renew (k := 0) rfl)
  have hentry := hrenew.step (.act (k := 0) rfl .entry)
  have hguard := hentry.step (.act (k := 0) rfl .guard)
  have htick := hguard.step (.tick (t := 100) (by decide) (by
    intro i due hi
    rcases update_eq_some hi with ⟨-, rfl⟩ | ⟨-, hi⟩
    · decide
    · contradiction))
  have hfire := htick.step (.fire 0 rfl (by decide))
  have hlease := hfire.step (.lease (e := some 200) (.inr ⟨200, rfl, by decide⟩))
  have hanswer := hlease.step (.act (k := 0) rfl (.answer []))
  obtain ⟨hterminal, -, -⟩ := loss_is_terminal hanswer
  refine ⟨_, hanswer, rfl, rfl, rfl, ?_⟩
  intro h' err hs hdone
  exact (hterminal rfl h' hs).2 0 _ err rfl rfl hdone

end Handle

end Distsync
