import Distsync.Renewer

/-!
# Distsync.Handle.Background

What a handle reports about the end of its renewal
(`Metrics.RenewalStopped`).

Two functions report it: the `onLost` of `startRenewal` and `startWatchdog`,
which the loop calls when it finds the lease lost, and `stop`, under
`stopOnce`.  Neither looks whether the other has reported.  `stop` is called
by `release` and by `Leader`; here any number of calls are under way at once,
between the steps of the loop and anything else that cancels `lostCtx`.

The renewer of a handle does what a renewer does (`renewer_reach`), and the
end is reported once, with its reason, as long as only one of the two comes to
report (`reported_once`).
-/

namespace Distsync

open Trans

/-- The reasons that `RenewalStopped` is called with. -/
inductive StopReason where
  | lost
  | released
deriving DecidableEq

/-- Where the function `onLost` is. -/
inductive LostCallback where
  /-- Not called, or about to report. -/
  | idle
  /-- At `markLost`. -/
  | reported
  /-- Past it. -/
  | marked
deriving DecidableEq

/-- `stopOnce`. -/
inductive StopOnce where
  | fresh
  /-- Call `k` is about to report. -/
  | entered (k : Nat)
  /-- Call `k` has reported, and stops the renewer. -/
  | reported (k : Nat)
  | done
deriving DecidableEq

/-- Where a call of `stop` is. -/
inductive StopCall where
  | idle
  | entered
  /-- `released` is set. -/
  | stored
  /-- `markLost` is over. -/
  | marked
  /-- In the function of `stopOnce`. -/
  | within
  | returned
deriving DecidableEq

/-- The parts of a handle that report, and what they have reported. -/
structure Reporting where
  renewer : Renewer
  callback : LostCallback
  stopOnce : StopOnce
  /-- The calls of `RenewalStopped`, the newest first. -/
  reports : List StopReason

/-- A handle whose renewal or watchdog was started. -/
structure Background extends Reporting where
  released : Bool
  /-- `lostCtx` is canceled. -/
  lost : Bool
  /-- The loop's call is past the checks that it begins with. -/
  calling : Bool
  stops : Nat → StopCall

/-- A step of the loop itself, not of the functions that it calls. -/
def LoopEvent.own : LoopEvent → Bool
  | answer _ | notified => false
  | done | tick | check | recheck | close => true

/-- What can happen next. -/
inductive BackgroundEvent where
  /-- A step of the loop itself. -/
  | loop (e : LoopEvent)
  /-- The checks that a renewal or an ownership check begins with. -/
  | guard (overdue : Bool)
  /-- The lease answers, and the check that follows. -/
  | answer (verdict : Verdict) (overdue : Bool)
  | reportLost
  /-- `onLost` calls `markLost`. -/
  | markLost
  /-- `onLost` returns. -/
  | notified
  /-- The deadline, a manual renewal or anything else cancels `lostCtx`. -/
  | lose
  /-- `stop` is called. -/
  | stop (k : Nat)
  | store (k : Nat)
  | mark (k : Nat)
  /-- `stop` comes to `stopOnce`. -/
  | once (k : Nat)
  | reportReleased
  /-- A step of `Renewer.Stop`. -/
  | stopRenewer (e : RenewerEvent)
  /-- The function of `stopOnce` returns. -/
  | leave

namespace Background

/-- The renewer takes a step. -/
def withRenewer (x : Background) (e : RenewerEvent) : Option Background :=
  (x.renewer.step e).map fun renewer => { x with renewer }

/-- The loop's call returns. -/
def result (x : Background) (verdict : Verdict) : Option Background :=
  { x with calling := false }.withRenewer (.loop 0 (.answer verdict))

/-- Call `k` of `stop` moves on. -/
def put (x : Background) (k : Nat) (call : StopCall) : Background :=
  { x with stops := Function.update x.stops k call }

/-- One event, if it can happen.  Call 0 of the renewer was its `Start`, and
call `k + 1` is the `Stop` of call `k` of `stop`. -/
def step (x : Background) : BackgroundEvent → Option Background
  | .loop e => if e.own then x.withRenewer (.loop 0 e) else none
  | .guard overdue =>
      if x.renewer.loops[0]? = some .renewing ∧ x.calling = false then
        if x.released ∨ x.lost then x.result .lost
        else if overdue then { x with lost := true }.result .lost
        else some { x with calling := true }
      else none
  | .answer verdict overdue =>
      if x.calling then
        if x.lost ∨ verdict = .lost ∨ overdue then { x with lost := true }.result .lost
        else x.result verdict
      else none
  | .reportLost =>
      if x.renewer.loops[0]? = some .notifying ∧ x.callback = .idle then
        some { x with callback := .reported, reports := .lost :: x.reports }
      else none
  | .markLost =>
      if x.callback = .reported then some { x with lost := true, callback := .marked } else none
  | .notified => if x.callback = .marked then x.withRenewer (.loop 0 .notified) else none
  | .lose => some { x with lost := true }
  | .stop k => if x.stops k = .idle then some (x.put k .entered) else none
  | .store k => if x.stops k = .entered then some { x.put k .stored with released := true } else none
  | .mark k => if x.stops k = .stored then some { x.put k .marked with lost := true } else none
  | .once k =>
      if x.stops k = .marked then
        match x.stopOnce with
        | .fresh => some { x.put k .within with stopOnce := .entered k }
        | .entered _ | .reported _ => none
        | .done => some (x.put k .returned)
      else none
  | .reportReleased =>
      match x.stopOnce with
      | .entered k => some { x with stopOnce := .reported k, reports := .released :: x.reports }
      | _ => none
  | .stopRenewer e =>
      match x.stopOnce with
      | .reported k =>
          if e ∈ [.stop (k + 1), .cancel (k + 1), .claim (k + 1), .wake (k + 1)] then
            x.withRenewer e
          else none
      | _ => none
  | .leave =>
      match x.stopOnce with
      | .reported k =>
          if x.renewer.calls (k + 1) = .stopped then
            some { x.put k .returned with stopOnce := .done }
          else none
      | _ => none

/-- `startRenewal` and `startWatchdog`, which differ in the call that the loop
makes; `lost` is what `checkDeadline` finds. -/
def startRenewal (lost : Bool) : Option Background :=
  ((Renewer.new true).run [.start 0, .launch 0]).map fun renewer =>
    ⟨⟨renewer, .idle, .fresh, []⟩, false, lost, false, fun _ => .idle⟩

/-- The renewal was just started. -/
def Init (x : Background) : Prop := ∃ lost, startRenewal lost = some x

def Step (x x' : Background) : Prop := ∃ e, x.step e = some x'

/-- Events one after the other, if they can happen. -/
def run (x : Background) (es : List BackgroundEvent) : Option Background := es.foldlM step x

end Background

namespace Reporting

/-- The end of the loop was reported at most once, with its reason. -/
structure ReportedOnce (x : Reporting) : Prop where
  once : x.reports.length ≤ 1
  lost : x.renewer.loops = [.ended .lost] → x.reports = [.lost]
  released : x.renewer.loops = [.ended .canceled] → x.reports = [.released]

/-- The loop has `ErrLost` in hand, and its context is not canceled. -/
def FindsLost (x : Reporting) : Prop :=
  x.renewer.canceled = false ∧ ∃ canceled, x.renewer.loops = [.answered .lost canceled]

/-- The loop has ended, and no call is in the function of `stopOnce`. -/
def AtRest (x : Reporting) : Prop :=
  (∃ why, x.renewer.loops = [.ended why]) ∧ (x.stopOnce = .fresh ∨ x.stopOnce = .done)

end Reporting

namespace Background

/-- The two that report do not both come to it: no call of `stop` enters
`stopOnce` after the loop has acted on a loss, and the loop does not act on a
loss after a call of `stop` has entered `stopOnce`. -/
def Clean (x : Background) : BackgroundEvent → Prop
  | .once _ => x.stopOnce = .fresh → x.renewer.notified = []
  | .loop .recheck => x.FindsLost → x.stopOnce = .fresh
  | _ => True

def CleanStep (x x' : Background) : Prop := ∃ e, x.step e = some x' ∧ x.Clean e

end Background

/-! ## Reports -/

/-- What `onLost` has reported. -/
def LostCallback.reports : LostCallback → List StopReason
  | idle => []
  | reported | marked => [.lost]

/-- What `stop` has reported. -/
def StopOnce.reports : StopOnce → List StopReason
  | fresh | entered _ => []
  | reported _ | done => [.released]

/-- Where `onLost` is when the loop is at `pc`. -/
def LostCallback.Fits (callback : LostCallback) (pc : LoopPc) : Prop :=
  pc ≠ .notifying → (callback = .idle ↔ pc.lost = false)

theorem LostCallback.Fits.next {callback : LostCallback} {pc pc' : LoopPc} (h : callback.Fits pc)
    (hnext : pc.next canceled true e = some pc') (he : e = .notified → callback = .marked) :
    callback.Fits pc' := by
  unfold LoopPc.next at hnext
  grind [Fits, LoopPc.lost]

namespace Reporting

/-- What carries the argument. -/
structure Sound (x : Reporting) : Prop where
  reach : Reach Renewer.Init Renewer.Step x.renewer
  onLost : x.renewer.onLost = true
  loop : ∃ pc, x.renewer.loops = [pc] ∧ x.callback.Fits pc
  canceled : x.renewer.canceled = true → x.stopOnce.reports = [.released]
  reports : x.reports.Perm (x.callback.reports ++ x.stopOnce.reports)

/-- What an event can do to the parts that report, and when it is clean. -/
inductive Effect (x : Reporting) : Prop → Reporting → Prop
  | quiet : Effect x True x
  | loop (hs : x.renewer.step (.loop 0 e) = some r) (he : e = .notified → x.callback = .marked) :
      Effect x (e = .recheck → x.FindsLost → x.stopOnce = .fresh) { x with renewer := r }
  | reportLost (hpc : x.renewer.loops[0]? = some .notifying) (hidle : x.callback = .idle) :
      Effect x True { x with callback := .reported, reports := .lost :: x.reports }
  | markLost (hreported : x.callback = .reported) : Effect x True { x with callback := .marked }
  | enter (hfresh : x.stopOnce = .fresh) (k : Nat) :
      Effect x (x.renewer.notified = []) { x with stopOnce := .entered k }
  | reportReleased (hentered : x.stopOnce = .entered k) :
      Effect x True { x with stopOnce := .reported k, reports := .released :: x.reports }
  | stopRenewer (hreported : x.stopOnce = .reported k)
      (he : e ∈ [.stop k', .cancel k', .claim k', .wake k']) (hs : x.renewer.step e = some r) :
      Effect x True { x with renewer := r }
  | leave (hreported : x.stopOnce = .reported k) : Effect x True { x with stopOnce := .done }

theorem Effect.congr {x x' : Reporting} (h : x.Effect clean x') (hiff : clean ↔ clean') :
    x.Effect clean' x' :=
  propext hiff ▸ h

theorem Sound.effect {x x' : Reporting} (h : x.Sound) (he : x.Effect clean x') : x'.Sound := by
  obtain ⟨pc, hloops, hfits⟩ := h.loop
  have hcanceled := h.canceled
  have hreports := h.reports
  cases he with
  | quiet => exact h
  | loop hs he =>
      obtain ⟨pc', hnext, rfl, hloops'⟩ := Renewer.step_loop hloops hs
      rw [h.onLost] at hnext
      exact ⟨h.reach.step ⟨_, hs⟩, h.onLost, ⟨pc', hloops', hfits.next hnext he⟩, hcanceled, hreports⟩
  | reportLost hpc hidle =>
      obtain rfl : pc = .notifying := by simpa [hloops] using hpc
      rw [hidle] at hreports
      exact ⟨h.reach, h.onLost, ⟨_, hloops, fun hne => absurd rfl hne⟩, hcanceled, hreports.cons _⟩
  | markLost hreported =>
      rw [hreported] at hfits hreports
      refine ⟨h.reach, h.onLost, ⟨pc, hloops, fun hne => ?_⟩, hcanceled, hreports⟩
      simpa using hfits hne
  | enter hfresh k =>
      rw [hfresh] at hcanceled hreports
      exact ⟨h.reach, h.onLost, h.loop, hcanceled, hreports⟩
  | reportReleased hentered =>
      rw [hentered] at hreports
      exact ⟨h.reach, h.onLost, h.loop, fun _ => rfl,
        (hreports.cons _).trans List.perm_middle.symm⟩
  | stopRenewer hreported he hs =>
      obtain ⟨hkept, honLost, -⟩ := Renewer.step_stop he hs
      refine ⟨h.reach.step ⟨_, hs⟩, honLost.trans h.onLost, ⟨pc, hkept.trans hloops, hfits⟩, ?_, hreports⟩
      intro _
      rw [hreported]
      rfl
  | leave hreported =>
      rw [hreported] at hcanceled hreports
      exact ⟨h.reach, h.onLost, h.loop, hcanceled, hreports⟩

/-- One of the two that report has not come to it. -/
def Apart (x : Reporting) : Prop := x.renewer.notified = [] ∨ x.stopOnce = .fresh

/-- The loop comes to report when it acts on a loss. -/
theorem apart_loopStep {x : Reporting} (h : x.Sound) (hs : x.renewer.step (.loop 0 e) = some r) :
    { x with renewer := r }.Apart ↔
      x.Apart ∧ (e = .recheck → x.FindsLost → x.stopOnce = .fresh) := by
  obtain ⟨pc, hloops, -⟩ := h.loop
  obtain ⟨pc', hnext, rfl, -⟩ := Renewer.step_loop hloops hs
  rw [h.onLost] at hnext
  have hcallback := LoopPc.callback_ne_nil_iff hnext
  have hfinds : x.FindsLost ↔ x.renewer.canceled = false ∧ ∃ c, pc = .answered .lost c := by
    simp [FindsLost, hloops]
  have hnotified : (x.renewer.move 0 e pc pc').notified = pc.callback pc' ++ x.renewer.notified :=
    rfl
  simp only [Apart, hnotified, List.append_eq_nil_iff, hfinds]
  by_cases hnil : pc.callback pc' = []
  · have hnot := mt hcallback.mpr (not_not.mpr hnil)
    simp only [hnil, true_and]
    exact (and_iff_left fun he hf => absurd ⟨he, hf⟩ hnot).symm
  · obtain ⟨he, hf⟩ := hcallback.mp hnil
    simp only [hnil, false_and, false_or]
    exact ⟨fun hfresh => ⟨.inr hfresh, fun _ _ => hfresh⟩, fun hor => hor.2 he hf⟩

/-- The two stay apart exactly in clean steps. -/
theorem Sound.apart_iff {x x' : Reporting} (h : x.Sound) (he : x.Effect clean x') :
    x'.Apart ↔ x.Apart ∧ clean := by
  cases he with
  | quiet | reportLost | markLost => exact (and_iff_left trivial).symm
  | loop hs he => exact apart_loopStep h hs
  | enter hfresh k => simp [Apart, hfresh]
  | reportReleased hentered => simp [Apart, hentered]
  | stopRenewer hreported he hs =>
      obtain ⟨-, -, hnotified⟩ := Renewer.step_stop he hs
      simp [Apart, hnotified]
  | leave hreported => simp [Apart, hreported]

theorem Sound.notified_eq_nil_iff {x : Reporting} (h : x.Sound) (hloops : x.renewer.loops = [pc]) :
    x.renewer.notified = [] ↔ pc.lost = false := by
  rw [(Renewer.sound_of_reach h.reach).notified_eq hloops, h.onLost]
  simp [LoopPc.notified]

/-- The reports of a loop that has ended. -/
theorem Sound.reports_ended {x : Reporting} (h : x.Sound) (hloops : x.renewer.loops = [.ended why]) :
    match why with
    | .lost => x.reports.Perm (.lost :: x.stopOnce.reports)
    | .canceled => x.reports = [.released] := by
  obtain ⟨pc, hpc, hfits⟩ := h.loop
  obtain rfl : .ended why = pc := by simpa [hloops] using hpc
  have hidle := hfits nofun
  have hreports := h.reports
  cases why with
  | lost =>
      have hcallback : x.callback.reports = [.lost] := by
        cases hc : x.callback with
        | idle =>
            rw [hc] at hidle
            cases hidle.mp rfl
        | reported | marked => rfl
      rwa [hcallback] at hreports
  | canceled =>
      have hcanceled : x.renewer.canceled = true :=
        (Renewer.sound_of_reach h.reach).loop (.ended .canceled) (by simp [hloops])
      rw [hidle.mpr rfl, h.canceled hcanceled] at hreports
      exact List.perm_singleton.mp hreports

theorem Sound.length_reports_le {x : Reporting} (h : x.Sound) (hapart : x.Apart) :
    x.reports.length ≤ 1 := by
  obtain ⟨pc, hloops, hfits⟩ := h.loop
  have hlength := h.reports.length_eq
  have hcallback : x.callback.reports.length ≤ 1 := by
    cases x.callback <;> simp [LostCallback.reports]
  have honce : x.stopOnce.reports.length ≤ 1 := by
    cases x.stopOnce <;> simp [StopOnce.reports]
  rw [List.length_append] at hlength
  rcases hapart with hnone | hfresh
  · have hlost := (h.notified_eq_nil_iff hloops).mp hnone
    have hidle : x.callback = .idle := (hfits (by rintro rfl; contradiction)).mpr hlost
    rw [hidle, LostCallback.reports, List.length_nil] at hlength
    omega
  · rw [hfresh, StopOnce.reports, List.length_nil] at hlength
    omega

theorem Sound.reportedOnce {x : Reporting} (h : x.Sound) (hapart : x.Apart) : x.ReportedOnce := by
  refine ⟨h.length_reports_le hapart, fun hloops => ?_, fun hloops => h.reports_ended hloops⟩
  have hfresh : x.stopOnce = .fresh := by
    refine hapart.resolve_left fun hnone => ?_
    cases (h.notified_eq_nil_iff hloops).mp hnone
  have hreports := h.reports_ended hloops
  rw [hfresh] at hreports
  exact List.perm_singleton.mp hreports

/-- When everything is over and both have come to report, both have
reported. -/
theorem Sound.apart_of_reportedOnce {x : Reporting} (h : x.Sound) (hrest : x.AtRest)
    (hreported : x.ReportedOnce) : x.Apart := by
  obtain ⟨⟨why, hloops⟩, honce⟩ := hrest
  rcases honce with hfresh | hdone
  · exact .inr hfresh
  · left
    rw [h.notified_eq_nil_iff hloops]
    cases why with
    | canceled => rfl
    | lost =>
        have hlength := (h.reports_ended hloops).length_eq
        have hle := hreported.once
        rw [hdone, StopOnce.reports, List.length_cons, List.length_singleton] at hlength
        omega

end Reporting

/-! ## Runs -/

namespace Background

theorem Init.sound {x : Background} (h : x.Init) : x.toReporting.Sound := by
  obtain ⟨lost, hstart⟩ := h
  obtain ⟨renewer, hrun, rfl⟩ := Option.map_eq_some_iff.mp hstart
  have hreach : Reach Renewer.Init Renewer.Step renewer :=
    (Reach.init ⟨true, rfl⟩).foldlM hrun
  have hstarted : (Renewer.new true).run [.start 0, .launch 0] = some _ := rfl
  cases hstarted.symm.trans hrun
  exact ⟨hreach, rfl, ⟨.selecting, rfl, fun _ => ⟨fun _ => rfl, fun _ => rfl⟩⟩, nofun, .nil⟩

theorem effect_result {x x' : Background} (hs : x.result v = some x') :
    x.toReporting.Effect True x'.toReporting := by
  obtain ⟨r, hr, rfl⟩ := Option.map_eq_some_iff.mp hs
  exact (Reporting.Effect.loop hr nofun).congr (iff_of_true nofun trivial)

theorem clean_loop_iff (x : Background) (e : LoopEvent) :
    x.Clean (.loop e) ↔ (e = .recheck → x.FindsLost → x.stopOnce = .fresh) := by
  cases e <;> simp [Clean]

/-- What every event does to the parts that report. -/
theorem effect_step {x x' : Background} (he : x.step e = some x') :
    x.toReporting.Effect (x.Clean e) x'.toReporting := by
  cases e with
  | loop e =>
      rw [step] at he
      split at he
      · next hown =>
        obtain ⟨r, hr, rfl⟩ := Option.map_eq_some_iff.mp he
        rw [clean_loop_iff]
        refine .loop hr ?_
        rintro rfl
        contradiction
      · contradiction
  | guard overdue =>
      rw [step] at he
      split at he
      · split at he
        · exact effect_result he
        · split at he
          · exact effect_result (x := { x with lost := true }) he
          · cases he
            exact .quiet
      · contradiction
  | answer verdict overdue =>
      rw [step] at he
      split at he
      · split at he
        · exact effect_result (x := { x with lost := true }) he
        · exact effect_result he
      · contradiction
  | reportLost =>
      rw [step] at he
      split at he <;> cases he
      next hmay => exact .reportLost hmay.1 hmay.2
  | markLost =>
      rw [step] at he
      split at he <;> cases he
      next hreported => exact .markLost hreported
  | notified =>
      rw [step] at he
      split at he
      · next hmarked =>
        obtain ⟨r, hr, rfl⟩ := Option.map_eq_some_iff.mp he
        exact (Reporting.Effect.loop hr fun _ => hmarked).congr (iff_of_true nofun trivial)
      · contradiction
  | lose =>
      cases he
      exact .quiet
  | stop k | store k | mark k =>
      rw [step] at he
      split at he <;> cases he
      exact .quiet
  | once k =>
      rw [step] at he
      split at he
      · split at he <;> cases he
        · next hfresh =>
          exact (Reporting.Effect.enter hfresh k).congr (by simp [Clean, hfresh])
        · next hdone =>
          exact Reporting.Effect.quiet.congr (by simp [Clean, hdone])
      · contradiction
  | reportReleased =>
      rw [step] at he
      split at he <;> cases he
      next hentered => exact .reportReleased hentered
  | stopRenewer e =>
      rw [step] at he
      split at he
      · next k hreported =>
        split at he
        · next hmem =>
          obtain ⟨r, hr, rfl⟩ := Option.map_eq_some_iff.mp he
          exact .stopRenewer hreported hmem hr
        · contradiction
      · contradiction
  | leave =>
      rw [step] at he
      split at he
      · next k hreported =>
        split at he <;> cases he
        exact .leave hreported
      · contradiction

theorem sound_of_reach {x : Background} (h : Reach Init Step x) : x.toReporting.Sound :=
  Reach.invariant (I := fun x => x.toReporting.Sound) (fun _ => Init.sound)
    (fun _ _ _ hx ⟨_, he⟩ => hx.effect (effect_step he)) h

/-- The renewer of a handle is in a state that a renewer can come to. -/
theorem renewer_reach {x : Background} (h : Reach Init Step x) :
    Reach Renewer.Init Renewer.Step x.renewer :=
  (sound_of_reach h).reach

/-- A run of the started handle ends in a state that it can come to. -/
theorem exists_reach {b : Bool} {P : Background → Prop}
    (h : ∃ x, (startRenewal b).bind (run · es) = some x ∧ (Reach Init Step x → P x)) :
    ∃ x, (startRenewal b).bind (run · es) = some x ∧ Reach Init Step x ∧ P x := by
  obtain ⟨x, hx, hp⟩ := h
  obtain ⟨start, hstart, hrun⟩ := Option.bind_eq_some_iff.mp hx
  have hreach : Reach Init Step x := (Reach.init ⟨b, hstart⟩).foldlM hrun
  exact ⟨x, hx, hreach, hp hreach⟩

theorem reach_of_clean {x : Background} (h : Reach Init CleanStep x) : Reach Init Step x :=
  h.mono fun _ _ ⟨e, he, _⟩ => ⟨e, he⟩

theorem apart_of_clean {x : Background} (h : Reach Init CleanStep x) : x.Apart := by
  induction h with
  | init hinit =>
      obtain ⟨lost, hstart⟩ := hinit
      obtain ⟨renewer, -, rfl⟩ := Option.map_eq_some_iff.mp hstart
      exact .inr rfl
  | step hx hs ih =>
      obtain ⟨e, he, hclean⟩ := hs
      exact ((sound_of_reach (reach_of_clean hx)).apart_iff (effect_step he)).mpr ⟨ih, hclean⟩

theorem clean_of_apart {x : Background} (h : Reach Init Step x) (hapart : x.Apart) :
    Reach Init CleanStep x := by
  induction h with
  | init hinit => exact .init hinit
  | step hx hs ih =>
      obtain ⟨e, he⟩ := hs
      obtain ⟨hbefore, hclean⟩ := ((sound_of_reach hx).apart_iff (effect_step he)).mp hapart
      exact (ih hbefore).step ⟨e, he, hclean⟩

/-- **Reported once**: in every run in which the loop and `stop` do not both
come to report, the end of the loop is reported at most once and with its
reason; and when the loop has ended and no call is in `stopOnce`, only in
those. -/
theorem reported_once {x : Background} (h : Reach Init Step x) :
    (Reach Init CleanStep x → x.ReportedOnce) ∧
      (x.AtRest → (x.ReportedOnce ↔ Reach Init CleanStep x)) := by
  have hsound := sound_of_reach h
  have honce (hclean : Reach Init CleanStep x) : x.ReportedOnce :=
    hsound.reportedOnce (apart_of_clean hclean)
  refine ⟨honce, fun hrest => ⟨fun hreported => ?_, honce⟩⟩
  exact clean_of_apart h (hsound.apart_of_reportedOnce hrest hreported)

/-- A renewal, then `stop`: the reason is `released`. -/
theorem reported_once_released :
    ∃ x : Background, (startRenewal false).bind (run ·
        [.loop .tick, .loop .check, .guard false, .answer .ok false, .loop .recheck,
          .stop 0, .store 0, .mark 0, .once 0, .reportReleased,
          .stopRenewer (.stop 1), .stopRenewer (.cancel 1), .stopRenewer (.claim 1),
          .loop .done, .loop .close, .stopRenewer (.wake 1), .leave]) = some x ∧
      Reach Init Step x ∧ Reach Init CleanStep x ∧ x.AtRest ∧
      x.renewer.loops = [.ended .canceled] ∧ x.reports = [.released] ∧ x.ReportedOnce := by
  refine exists_reach ⟨_, rfl, fun hx => ?_⟩
  have hclean := clean_of_apart hx (.inl rfl)
  exact ⟨hclean, ⟨⟨.canceled, rfl⟩, .inr rfl⟩, rfl, rfl, (reported_once hx).1 hclean⟩

/-- The loop finds the lease lost and reports it, and `stop` reports the end
again with the other reason: called after the loop has ended, or with the
heartbeat refused only because `stop` is under way. -/
theorem reported_twice :
    (∃ x : Background, (startRenewal false).bind (run ·
        [.loop .tick, .loop .check, .guard false, .answer .lost false, .loop .recheck,
          .reportLost, .markLost, .notified, .loop .close,
          .stop 0, .store 0, .mark 0, .once 0, .reportReleased]) = some x ∧
      Reach Init Step x ∧ x.renewer.loops = [.ended .lost] ∧ x.reports = [.released, .lost] ∧
      ¬ x.ReportedOnce) ∧
    (∃ x : Background, (startRenewal false).bind (run ·
        [.loop .tick, .loop .check, .stop 0, .store 0, .guard false, .loop .recheck,
          .reportLost, .markLost, .notified, .loop .close,
          .mark 0, .once 0, .reportReleased]) = some x ∧
      Reach Init Step x ∧ x.renewer.loops = [.ended .lost] ∧ x.reports = [.released, .lost] ∧
      ¬ x.ReportedOnce) := by
  refine ⟨exists_reach ⟨_, rfl, fun _ => ⟨rfl, rfl, fun h => ?_⟩⟩,
    exists_reach ⟨_, rfl, fun _ => ⟨rfl, rfl, fun h => ?_⟩⟩⟩
  · exact absurd h.once (by decide)
  · exact absurd h.once (by decide)

end Background

end Distsync
