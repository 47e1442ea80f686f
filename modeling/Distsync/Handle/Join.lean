import Distsync.Handle.Background

/-!
# Distsync.Handle.Join

`stop` joins the background work of a handle (`handle.stop` in `guard.go`).

Any number of calls may be under way at once.  The first one to come to
`stopOnce` stops the renewer, which waits for the loop, and the loop may be in
a call of its own or in `onLost`; the other calls wait in `stopOnce`.  So a
call that returns leaves nothing running (`Joins`), and since nobody waits for
somebody who waits for them, a call that is under way can return
(`stop_joins`).
-/

namespace Distsync

open Trans

/-- What a place in call `k` of `stop` says about the handle. -/
def StopCall.Placed (k : Nat) (released lost : Bool) (once : StopOnce) : StopCall → Prop
  | idle | entered => True
  | stored => released = true
  | marked => released = true ∧ lost = true
  | within => once = .entered k ∨ once = .reported k
  | returned => once = .done

theorem StopCall.Placed.mono {call : StopCall} (h : call.Placed k released lost once)
    (hreleased : released = true → released' = true) (hlost : lost = true → lost' = true)
    (hwithin : once = .entered k ∨ once = .reported k → once' = .entered k ∨ once' = .reported k)
    (hdone : once = .done → once' = .done) : call.Placed k released' lost' once' := by
  cases call with
  | idle | entered => trivial
  | stored => exact hreleased h
  | marked => exact ⟨hreleased h.1, hlost h.2⟩
  | within => exact hwithin h
  | returned => exact hdone h

/-- A step of a loop leaves the calls alone. -/
theorem Renewer.calls_of_loop {x x' : Renewer} (h : x.step (.loop i e) = some x') :
    x'.calls = x.calls := by
  rw [step] at h
  split at h
  · obtain ⟨pc', -, rfl⟩ := Option.map_eq_some_iff.mp h
    rfl
  · contradiction

/-- A `Stop` moves only itself on. -/
theorem Renewer.calls_of_stop {x x' : Renewer} (he : e ∈ [.stop k, .cancel k, .claim k, .wake k])
    (h : x.step e = some x') :
    ∃ call, x'.calls = Function.update x.calls k call ∧ call ≠ .starting ∧ call ≠ .started := by
  simp only [List.mem_cons, List.not_mem_nil, or_false] at he
  rcases he with rfl | rfl | rfl | rfl
  all_goals
    rw [step] at h
    split at h <;> cases h
  · exact ⟨.stopping, rfl, by decide, by decide⟩
  · exact ⟨.claiming, rfl, by decide, by decide⟩
  · refine ⟨.waiting, ?_, by decide, by decide⟩
    split <;> rfl
  · exact ⟨.stopped, rfl, by decide, by decide⟩

namespace Background

/-- Where the calls of `stop` are, and what they have done. -/
structure Joins (x : Background) : Prop where
  call : ∀ k, (x.stops k).Placed k x.released x.lost x.stopOnce
  once : x.stopOnce ≠ .fresh → x.released = true ∧ x.lost = true
  done : x.stopOnce = .done → ∃ k, x.renewer.calls k = .stopped
  /-- Only the first call of the renewer was a `Start`. -/
  renewer : ∀ k, x.renewer.calls (k + 1) ≠ .starting ∧ x.renewer.calls (k + 1) ≠ .started
  calling : x.calling = true → x.renewer.loops = [.renewing]

theorem Init.joins {x : Background} (h : x.Init) : x.Joins := by
  obtain ⟨lost, hstart⟩ := h
  obtain ⟨renewer, hrun, rfl⟩ := Option.map_eq_some_iff.mp hstart
  have hstarted : (Renewer.new true).run [.start 0, .launch 0] = some _ := rfl
  cases hstarted.symm.trans hrun
  refine ⟨fun _ => trivial, fun hne => absurd rfl hne, nofun, fun k => ?_, nofun⟩
  simp [Renewer.put, Renewer.new]

namespace Joins

variable {x : Background}

theorem placed {call : StopCall} (h : x.Joins) (hk : x.stops k = call) :
    call.Placed k x.released x.lost x.stopOnce :=
  hk ▸ h.call k

/-- The handle is marked lost, and the call that the loop makes begins or
ends. -/
theorem flags (h : x.Joins) {lost' calling' : Bool} (hlost : x.lost = true → lost' = true)
    (hcalling : calling' = true → x.renewer.loops = [.renewing]) :
    { x with lost := lost', calling := calling' }.Joins := by
  refine ⟨fun k => (h.call k).mono id hlost id id, fun hne => ?_, h.done, h.renewer, hcalling⟩
  exact ⟨(h.once hne).1, hlost (h.once hne).2⟩

/-- The loop takes a step, and is not in a call of its own after it. -/
theorem loop (h : x.Joins) (hcalling : x.calling = false)
    (hr : x.renewer.step (.loop 0 e) = some r) : { x with renewer := r }.Joins := by
  have hcalls := Renewer.calls_of_loop hr
  refine ⟨h.call, h.once, fun hdone => ?_, fun k => ?_, fun hc => ?_⟩
  · obtain ⟨k, hk⟩ := h.done hdone
    exact ⟨k, hcalls ▸ hk⟩
  · exact hcalls ▸ h.renewer k
  · cases hcalling.symm.trans hc

theorem result (h : x.Joins) {lost' : Bool} (hlost : x.lost = true → lost' = true)
    (hs : { x with lost := lost' }.result verdict = some x') : x'.Joins := by
  obtain ⟨r, hr, rfl⟩ := Option.map_eq_some_iff.mp hs
  have hidle : { x with lost := lost', calling := false }.Joins := h.flags hlost nofun
  exact hidle.loop rfl hr

/-- While the loop's call is under way the loop itself does nothing. -/
theorem not_calling (h : x.Joins) (he : ∀ verdict, e ≠ .answer verdict)
    (hr : x.renewer.step (.loop 0 e) = some r) : x.calling = false := by
  refine Bool.eq_false_iff.mpr fun hc => ?_
  obtain ⟨pc', hnext, -⟩ := Renewer.step_loop (h.calling hc) hr
  cases e with
  | answer verdict => exact he verdict rfl
  | done | tick | check | recheck | notified | close => contradiction

/-- A call of `stop` moves on, with what it does to the handle. -/
theorem put (h : x.Joins) (k : Nat) {released' lost' : Bool}
    (hreleased : x.released = true → released' = true) (hlost : x.lost = true → lost' = true)
    {call : StopCall} (hcall : call.Placed k released' lost' x.stopOnce) :
    { x.put k call with released := released', lost := lost' }.Joins := by
  refine ⟨fun k' => ?_, fun hne => ?_, h.done, h.renewer, h.calling⟩
  · by_cases hk : k' = k
    · subst hk
      simpa [Background.put] using hcall
    · simpa [Background.put, hk] using (h.call k').mono hreleased hlost id id
  · exact ⟨hreleased (h.once hne).1, hlost (h.once hne).2⟩

/-- A call is the first to come to `stopOnce`. -/
theorem enter (h : x.Joins) (hk : x.stops k = .marked) (hfresh : x.stopOnce = .fresh) :
    { x.put k .within with stopOnce := .entered k }.Joins := by
  have hmarked : x.released = true ∧ x.lost = true := h.placed hk
  refine ⟨fun k' => ?_, fun _ => hmarked, nofun, h.renewer, h.calling⟩
  by_cases hkk : k' = k
  · subst hkk
    simp [Background.put, StopCall.Placed]
  · simpa [Background.put, hkk] using (h.call k').mono id id (by simp [hfresh]) (by simp [hfresh])

theorem reportReleased (h : x.Joins) (hentered : x.stopOnce = .entered k) :
    { x with stopOnce := .reported k, reports := .released :: x.reports }.Joins := by
  refine ⟨fun k' => ?_, fun _ => h.once (by simp [hentered]), nofun, h.renewer, h.calling⟩
  exact (h.call k').mono id id (by simp [hentered]) (by simp [hentered])

theorem stopRenewer (h : x.Joins) (hreported : x.stopOnce = .reported k)
    (he : e ∈ [.stop (k + 1), .cancel (k + 1), .claim (k + 1), .wake (k + 1)])
    (hr : x.renewer.step e = some r) : { x with renewer := r }.Joins := by
  obtain ⟨call, hcalls, hstarting, hstarted⟩ := Renewer.calls_of_stop he hr
  obtain ⟨hloops, -⟩ := Renewer.step_stop he hr
  refine ⟨h.call, h.once, fun hdone => ?_, fun k' => ?_, fun hc => hloops.trans (h.calling hc)⟩
  · cases hreported.symm.trans hdone
  · by_cases hk : k' = k
    · subst hk
      simpa [hcalls] using ⟨hstarting, hstarted⟩
    · simpa [hcalls, hk] using h.renewer k'

theorem leave (h : x.Joins) (hreported : x.stopOnce = .reported k)
    (hstopped : x.renewer.calls (k + 1) = .stopped) :
    { x.put k .returned with stopOnce := .done }.Joins := by
  refine ⟨fun k' => ?_, fun _ => h.once (by simp [hreported]), fun _ => ⟨k + 1, hstopped⟩,
    h.renewer, h.calling⟩
  by_cases hk : k' = k
  · subst hk
    simp [Background.put, StopCall.Placed]
  · have hne : k ≠ k' := Ne.symm hk
    simpa [Background.put, hk] using
      (h.call k').mono id id (by simp [hreported, hne]) (by simp [hreported])

end Joins

theorem joins_step {x x' : Background} (hsound : x.toReporting.Sound) (h : x.Joins)
    (he : x.step e = some x') : x'.Joins := by
  cases e with
  | loop e =>
      rw [step] at he
      split at he
      · next hown =>
        obtain ⟨r, hr, rfl⟩ := Option.map_eq_some_iff.mp he
        refine h.loop (h.not_calling ?_ hr) hr
        rintro verdict rfl
        contradiction
      · contradiction
  | guard overdue =>
      rw [step] at he
      split at he
      · next hmay =>
        split at he
        · exact h.result id he
        · split at he
          · exact h.result (fun _ => rfl) he
          · cases he
            obtain ⟨pc, hloops, -⟩ := hsound.loop
            refine h.flags id fun _ => ?_
            simpa [hloops] using hmay.1
      · contradiction
  | answer verdict overdue =>
      rw [step] at he
      split at he
      · split at he
        · exact h.result (fun _ => rfl) he
        · exact h.result id he
      · contradiction
  | reportLost =>
      rw [step] at he
      split at he <;> cases he
      exact ⟨h.call, h.once, h.done, h.renewer, h.calling⟩
  | markLost =>
      rw [step] at he
      split at he <;> cases he
      have hlost : { x with lost := true }.Joins := h.flags (fun _ => rfl) h.calling
      exact ⟨hlost.call, hlost.once, hlost.done, hlost.renewer, hlost.calling⟩
  | notified =>
      rw [step] at he
      split at he
      · obtain ⟨r, hr, rfl⟩ := Option.map_eq_some_iff.mp he
        refine h.loop (h.not_calling ?_ hr) hr
        rintro verdict ⟨⟩
      · contradiction
  | lose =>
      cases he
      exact h.flags (fun _ => rfl) h.calling
  | stop k =>
      rw [step] at he
      split at he <;> cases he
      exact h.put k id id trivial
  | store k =>
      rw [step] at he
      split at he <;> cases he
      exact h.put k (fun _ => rfl) id rfl
  | mark k =>
      rw [step] at he
      split at he <;> cases he
      next hk =>
      have hstored : x.released = true := h.placed hk
      exact h.put k id (fun _ => rfl) ⟨hstored, rfl⟩
  | once k =>
      rw [step] at he
      split at he
      · next hk =>
        split at he <;> cases he
        · next hfresh => exact h.enter hk hfresh
        · next hdone => exact h.put k id id hdone
      · contradiction
  | reportReleased =>
      rw [step] at he
      split at he <;> cases he
      next hentered => exact h.reportReleased hentered
  | stopRenewer e =>
      rw [step] at he
      split at he
      · next k hreported =>
        split at he
        · next hmem =>
          obtain ⟨r, hr, rfl⟩ := Option.map_eq_some_iff.mp he
          exact h.stopRenewer hreported hmem hr
        · contradiction
      · contradiction
  | leave =>
      rw [step] at he
      split at he
      · next k hreported =>
        split at he <;> cases he
        next hstopped => exact h.leave hreported hstopped
      · contradiction

theorem joins_of_reach {x : Background} (h : Reach Init Step x) : x.Joins :=
  Reach.invariant (I := Joins) (fun _ => Init.joins)
    (fun _ _ hreach hx ⟨_, he⟩ => joins_step (sound_of_reach hreach) hx he) h

/-! ## When `stop` has returned -/

/-- Nothing of the background is running. -/
structure Over (x : Background) : Prop where
  released : x.released = true
  lost : x.lost = true
  calling : x.calling = false
  loop : ∃ why, x.renewer.loops = [.ended why]

theorem over_of_done {x : Background} (h : Reach Init Step x) (hdone : x.stopOnce = .done) :
    x.Over := by
  have hjoins := joins_of_reach h
  obtain ⟨hreleased, hlost⟩ := hjoins.once (by simp [hdone])
  obtain ⟨k, hk⟩ := hjoins.done hdone
  obtain ⟨pc, hloops, -⟩ := (sound_of_reach h).loop
  have hrenewer := Renewer.sound_of_reach (renewer_reach h)
  have hcloses := hrenewer.closes_of_stopped hk
  obtain ⟨life, hlife⟩ := hrenewer.lives
  obtain ⟨rfl, -⟩ : life = .loop pc ∧ 0 = 0 := hlife.eq_loop (by simp [hloops])
  rw [hlife.closes] at hcloses
  cases pc with
  | ended why =>
      refine ⟨hreleased, hlost, Bool.eq_false_iff.mpr fun hc => ?_, why, hloops⟩
      cases hloops.symm.trans (hjoins.calling hc)
  | selecting | ticked | renewing | answered | notifying | exiting => contradiction

/-- Nothing is reported any more. -/
theorem done_step {x x' : Background} (h : Reach Init Step x) (hdone : x.stopOnce = .done)
    (hs : Step x x') : x'.stopOnce = .done ∧ x'.reports = x.reports := by
  obtain ⟨e, he⟩ := hs
  have heffect := effect_step he
  generalize x'.toReporting = y, x.Clean e = clean at heffect ⊢
  cases heffect with
  | quiet | loop | markLost => exact ⟨hdone, rfl⟩
  | reportLost hpc =>
      obtain ⟨why, hloops⟩ := (over_of_done h hdone).loop
      simp [hloops] at hpc
  | enter hfresh => cases hdone.symm.trans hfresh
  | reportReleased hentered => cases hdone.symm.trans hentered
  | stopRenewer hreported | leave hreported => cases hdone.symm.trans hreported

theorem done_steps {x x' : Background} (h : Reach Init Step x) (hdone : x.stopOnce = .done)
    (hs : Relation.ReflTransGen Step x x') : x'.stopOnce = .done ∧ x'.reports = x.reports := by
  induction hs with
  | refl => exact ⟨hdone, rfl⟩
  | tail hfirst hlast ih =>
      obtain ⟨hdone', hreports⟩ := done_step (h.steps hfirst) ih.1 hlast
      exact ⟨hdone', hreports.trans ih.2⟩

end Background

/-! ## Nobody waits forever -/

/-- The steps that are left of a call. -/
def StopCall.rank : StopCall → Nat
  | idle => 4
  | entered => 3
  | stored => 2
  | marked | within => 1
  | returned => 0

/-- The steps that are left of a `Stop`, besides those of the loop. -/
def RenewerCall.rank : RenewerCall → Nat
  | idle => 5
  | stopping => 4
  | claiming => 3
  | waiting => 2
  | starting | started | stopped => 1

/-- The steps that are left of the function of `stopOnce`. -/
def StopOnce.rank (calls : Nat → RenewerCall) : StopOnce → Nat
  | fresh => 8
  | entered _ => 7
  | reported k => (calls (k + 1)).rank + 1
  | done => 0

def LostCallback.rank : LostCallback → Nat
  | idle => 2
  | reported => 1
  | marked => 0

theorem LoopPc.next_ne_notifying {pc pc' : LoopPc} (h : pc.next true onLost e = some pc') :
    pc' ≠ .notifying := by
  unfold next at h
  grind

namespace Background

/-- The steps that are left of a loop whose context is canceled. -/
def loopRank (x : Background) : Nat :=
  match x.renewer.loops with
  | [pc] => 3 * pc.rank + if pc = .notifying then x.callback.rank else 0
  | _ => 0

/-- What is left until call `k` of `stop` returns. -/
def rank (x : Background) (k : Nat) : Nat :=
  (x.stops k).rank + x.stopOnce.rank x.renewer.calls + x.loopRank

/-- The loop has come nearer to its end, and nobody else has moved. -/
structure LoopMoves (x x' : Background) : Prop where
  stops : x'.stops = x.stops
  stopOnce : x'.stopOnce = x.stopOnce
  calls : x'.renewer.calls = x.renewer.calls
  rank : x'.loopRank < x.loopRank

theorem LoopMoves.rank_lt {x x' : Background} (h : x.LoopMoves x') (k : Nat) :
    x'.rank k < x.rank k := by
  have hlt := h.rank
  simp only [Background.rank, h.stops, h.stopOnce, h.calls]
  omega

theorem withRenewer_moves {x : Background} (hcanceled : x.renewer.canceled = true)
    (hloops : x.renewer.loops = [pc]) (hnext : pc.next true x.renewer.onLost e = some pc') :
    ∃ x', x.withRenewer (.loop 0 e) = some x' ∧ x.LoopMoves x' := by
  refine ⟨{ x with renewer := x.renewer.move 0 e pc pc' }, ?_, rfl, rfl, rfl, ?_⟩
  · simp [withRenewer, Renewer.step, hloops, hcanceled, hnext]
  · have hlt := LoopPc.rank_next hnext
    simp only [loopRank, Renewer.move, hloops, List.set_cons_zero,
      if_neg (LoopPc.next_ne_notifying hnext)]
    omega

theorem own_moves {x : Background} (hcanceled : x.renewer.canceled = true)
    (hloops : x.renewer.loops = [pc]) (hown : e.own = true)
    (hnext : pc.next true x.renewer.onLost e = some pc') :
    ∃ e x', x.step e = some x' ∧ x.LoopMoves x' := by
  obtain ⟨x', hx', hmoves⟩ := withRenewer_moves hcanceled hloops hnext
  refine ⟨.loop e, x', ?_, hmoves⟩
  rwa [step, if_pos hown]

/-- A loop whose context is canceled comes to its end by itself, wherever it
is. -/
theorem loop_moves {x : Background} (hcanceled : x.renewer.canceled = true)
    (hloops : x.renewer.loops = [pc]) (hpc : pc.rank ≠ 0) :
    ∃ e x', x.step e = some x' ∧ x.LoopMoves x' := by
  cases pc with
  | selecting => exact own_moves hcanceled hloops (e := .done) rfl rfl
  | ticked => exact own_moves hcanceled hloops (e := .check) rfl rfl
  | renewing =>
      -- whether the guards of `renew` refuse or the call fails, the loop has an answer
      have hresult (lost : Bool) :
          ∃ x', { x with lost }.result .lost = some x' ∧ x.LoopMoves x' := by
        obtain ⟨x', hx', hmoves⟩ := withRenewer_moves (x := { x with lost, calling := false })
          (e := .answer .lost) hcanceled hloops rfl
        exact ⟨x', hx', hmoves.stops, hmoves.stopOnce, hmoves.calls, hmoves.rank⟩
      cases hcalling : x.calling with
      | true =>
          obtain ⟨x', hx', hmoves⟩ := hresult true
          exact ⟨.answer .lost true, x', by simpa [step, hcalling] using hx', hmoves⟩
      | false =>
          have hmay : x.renewer.loops[0]? = some .renewing ∧ x.calling = false := by
            simp [hloops, hcalling]
          by_cases hend : x.released ∨ x.lost
          · obtain ⟨x', hx', hmoves⟩ := hresult x.lost
            refine ⟨.guard true, x', ?_, hmoves⟩
            rwa [step, if_pos hmay, if_pos hend]
          · obtain ⟨x', hx', hmoves⟩ := hresult true
            refine ⟨.guard true, x', ?_, hmoves⟩
            rwa [step, if_pos hmay, if_neg hend, if_pos rfl]
  | answered => exact own_moves hcanceled hloops (e := .recheck) rfl rfl
  | notifying =>
      cases hc : x.callback with
      | idle =>
          refine ⟨.reportLost, _, if_pos ⟨by simp [hloops], hc⟩, rfl, rfl, rfl, ?_⟩
          simp [loopRank, hloops, hc, LostCallback.rank]
      | reported =>
          refine ⟨.markLost, _, if_pos hc, rfl, rfl, rfl, ?_⟩
          simp [loopRank, hloops, hc, LostCallback.rank]
      | marked =>
          obtain ⟨x', hx', hmoves⟩ := withRenewer_moves (e := .notified) hcanceled hloops rfl
          exact ⟨.notified, x', by simpa [step, hc] using hx', hmoves⟩
  | exiting => exact own_moves hcanceled hloops (e := .close) rfl rfl
  | ended => contradiction

theorem stopRenewer_moves {x : Background} (k : Nat) (hreported : x.stopOnce = .reported j)
    (he : e ∈ [.stop (j + 1), .cancel (j + 1), .claim (j + 1), .wake (j + 1)])
    (hr : x.renewer.step e = some r)
    (hlt : (r.calls (j + 1)).rank < (x.renewer.calls (j + 1)).rank) :
    ∃ e x', x.step e = some x' ∧ x'.rank k < x.rank k := by
  obtain ⟨hloops, -⟩ := Renewer.step_stop he hr
  refine ⟨.stopRenewer e, { x with renewer := r }, ?_, ?_⟩
  · simp only [step, hreported, if_pos he, withRenewer, hr, Option.map_some]
  · simp only [rank, loopRank, hreported, StopOnce.rank, hloops]
    omega

/-- The call that stops the renewer gets on, or the loop that it waits for
does. -/
theorem reported_moves {x : Background} (h : Reach Init Step x) (k : Nat)
    (hreported : x.stopOnce = .reported j) :
    ∃ e x', x.step e = some x' ∧ x'.rank k < x.rank k := by
  have hrenewer := Renewer.sound_of_reach (renewer_reach h)
  cases hj : x.renewer.calls (j + 1) with
  | starting => exact absurd hj ((joins_of_reach h).renewer j).1
  | started => exact absurd hj ((joins_of_reach h).renewer j).2
  | idle =>
      refine stopRenewer_moves k hreported (e := .stop (j + 1)) (by simp) (if_pos hj) ?_
      simp [Renewer.put, hj, RenewerCall.rank]
  | stopping =>
      refine stopRenewer_moves k hreported (e := .cancel (j + 1)) (by simp) (if_pos hj) ?_
      simp [Renewer.put, hj, RenewerCall.rank]
  | claiming =>
      refine stopRenewer_moves k hreported (e := .claim (j + 1)) (by simp) (if_pos hj) ?_
      split <;> simp [Renewer.put, hj, RenewerCall.rank]
  | waiting =>
      obtain ⟨hcanceled, honce⟩ := hrenewer.call_eq hj
      obtain ⟨pc, hloops, -⟩ := (sound_of_reach h).loop
      -- `done` is closed, or the loop that closes it goes on
      by_cases hpc : pc.rank = 0
      · have hcloses := Renewer.closes_eq_one hrenewer honce (by simpa [Renewer.loopRank, hloops])
        have hwake : x.renewer.calls (j + 1) = .waiting ∧ x.renewer.closes ≠ 0 := ⟨hj, by omega⟩
        refine stopRenewer_moves k hreported (e := .wake (j + 1)) (by simp) (if_pos hwake) ?_
        simp [Renewer.put, hj, RenewerCall.rank]
      · obtain ⟨e, x', he, hmoves⟩ := loop_moves hcanceled hloops hpc
        exact ⟨e, x', he, hmoves.rank_lt k⟩
  | stopped =>
      refine ⟨.leave, { x.put j .returned with stopOnce := .done }, ?_, ?_⟩
      · simp [step, hreported, hj]
      · have hle : (Function.update x.stops j .returned k).rank ≤ (x.stops k).rank := by
          by_cases hk : k = j
          · simp [hk, StopCall.rank]
          · simp [hk]
        simp only [rank, loopRank, put, hreported, StopOnce.rank]
        omega

theorem rank_put_lt {x : Background} {call : StopCall} (hcall : call.rank < (x.stops k).rank)
    (released lost : Bool) : { x.put k call with released, lost }.rank k < x.rank k := by
  simp only [rank, loopRank, put, Function.update_self]
  omega

/-- As long as call `k` has not returned, something brings its return nearer. -/
theorem rank_moves {x : Background} (h : Reach Init Step x) (k : Nat) (hrank : x.rank k ≠ 0) :
    ∃ e x', x.step e = some x' ∧ x'.rank k < x.rank k := by
  have hput {call : StopCall} (hcall : call.rank < (x.stops k).rank) := rank_put_lt hcall
  have hentered {j : Nat} (hj : x.stopOnce = .entered j) :
      ∃ e x', x.step e = some x' ∧ x'.rank k < x.rank k := by
    refine ⟨.reportReleased,
      { x with stopOnce := .reported j, reports := .released :: x.reports }, ?_, ?_⟩
    · simp only [step, hj]
    · have hle : (x.renewer.calls (j + 1)).rank ≤ 5 := by
        cases x.renewer.calls (j + 1) <;> decide
      simp only [rank, loopRank, hj, StopOnce.rank]
      omega
  cases hk : x.stops k with
  | idle => exact ⟨.stop k, _, if_pos hk, hput (by rw [hk]; decide) _ _⟩
  | entered => exact ⟨.store k, _, if_pos hk, hput (by rw [hk]; decide) _ _⟩
  | stored => exact ⟨.mark k, _, if_pos hk, hput (by rw [hk]; decide) _ _⟩
  | marked =>
      -- a call that finds another one inside `stopOnce` waits for that one
      cases honce : x.stopOnce with
      | fresh =>
          refine ⟨.once k, { x.put k .within with stopOnce := .entered k }, ?_, ?_⟩
          · simp only [step, if_pos hk, honce]
          · simp [rank, loopRank, put, hk, honce, StopCall.rank, StopOnce.rank]
      | entered j => exact hentered honce
      | reported j => exact reported_moves h k honce
      | done =>
          refine ⟨.once k, x.put k .returned, ?_, hput (by rw [hk]; decide) _ _⟩
          simp only [step, if_pos hk, honce]
  | within =>
      rcases (joins_of_reach h).placed hk with honce | honce
      · exact hentered honce
      · exact reported_moves h k honce
  | returned =>
      have hdone : x.stopOnce = .done := (joins_of_reach h).placed hk
      obtain ⟨why, hloops⟩ := (over_of_done h hdone).loop
      simp [rank, loopRank, hk, hdone, hloops, StopCall.rank, StopOnce.rank, LoopPc.rank] at hrank

/-- **Stopping joins**: whatever calls of `stop` are under way and wherever the
loop is,

* a call can come to return;
* once it has, the handle is marked released and lost, the loop has ended and
  makes no call of its own, and neither it nor another call reports anything
  more, then or later. -/
theorem stop_joins {x : Background} (h : Reach Init Step x) (k : Nat) :
    (∃ es x', x.run es = some x' ∧ x'.stops k = .returned) ∧
      (x.stops k = .returned →
        ∀ x', Relation.ReflTransGen Step x x' → x'.Over ∧ x'.reports = x.reports) := by
  constructor
  · have hmoves (s : Background) (hs : Reach Init Step s) (hne : s.rank k ≠ 0) :
        ∃ e s', s.step e = some s' ∧ Reach Init Step s' ∧ s'.rank k < s.rank k := by
      obtain ⟨e, s', he, hlt⟩ := rank_moves hs k hne
      exact ⟨e, s', he, hs.step ⟨e, he⟩, hlt⟩
    obtain ⟨es, x', hrun, -, hrank⟩ := exists_foldlM_of_rank step _ (rank · k) hmoves h
    refine ⟨es, x', hrun, ?_⟩
    cases hk : x'.stops k with
    | returned => rfl
    | idle | entered | stored | marked | within => simp [rank, hk, StopCall.rank] at hrank
  · intro hk x' hs
    have hdone : x.stopOnce = .done := (joins_of_reach h).placed hk
    obtain ⟨hdone', hreports⟩ := done_steps h hdone hs
    exact ⟨over_of_done (h.steps hs) hdone', hreports⟩

/-- Two calls of `stop` come while the loop is in a call of its own: the second
one cannot go on and yet can return, and when the first one has returned
nothing is left. -/
theorem stop_joins_twoCalls :
    let es : List BackgroundEvent := [.loop .tick, .loop .check, .guard false, .stop 0, .stop 1,
      .store 0, .mark 0, .once 0, .reportReleased, .stopRenewer (.stop 1),
      .stopRenewer (.cancel 1), .store 1, .mark 1, .stopRenewer (.claim 1)]
    let rest : List BackgroundEvent := [.answer .ok false, .loop .recheck, .loop .close,
      .stopRenewer (.wake 1), .leave]
    (∃ x : Background, (startRenewal false).bind (run · es) = some x ∧ Reach Init Step x ∧
      x.calling = true ∧ x.stops 1 = .marked ∧ x.step (.once 1) = none ∧
      ∃ es' x', x.run es' = some x' ∧ x'.stops 1 = .returned) ∧
    ∃ x : Background, (startRenewal false).bind (run · (es ++ rest)) = some x ∧ Reach Init Step x ∧
      x.stops 0 = .returned ∧ x.Over ∧ x.reports = [.released] := by
  intro es rest
  constructor
  · exact exists_reach ⟨_, rfl, fun hx => ⟨rfl, rfl, rfl, (stop_joins hx 1).1⟩⟩
  · exact exists_reach ⟨_, rfl, fun hx => ⟨rfl, ((stop_joins hx 0).2 rfl _ .refl).1, rfl⟩⟩

end Background

end Distsync
