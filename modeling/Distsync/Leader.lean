import Distsync.Guard

/-!
# Distsync.Leader

Leader election (`leader.go`): any number of `Leader` objects for one role, in
any number of processes, and any number of calls of `Run` and `TryRun` on each.

A call acquires a lease of its own.  From then on it is the guard of that lease
with a callback inside: it enters its handle in the `Leader`, starts renewal or
the watchdog, runs the callback, looks whether the lease was lost meanwhile,
releases the handle, and takes it out of the `Leader` again unless another call
has entered its own.

Of the calls that are in their callback and have not lost their handle there is
at most one (`Election.one_leader`).  A call that returns without
`ErrLeadershipLost` was that one at every moment of its callback
(`Election.led_throughout`), and `IsLeader` is true of one `Leader` at most
(`Election.isLeader_unique`).
-/

namespace Distsync

open Redis Trans Relation

/-- What `errors.Is` can find in the error of a call. -/
inductive RunCause where
  /-- An error of the callback. -/
  | callback (code : Nat)
  /-- `ErrLeadershipLost`. -/
  | leadershipLost
  /-- An error of `release`. -/
  | release (cause : Cause)
deriving DecidableEq

/-- Where a call of `Run` or `TryRun` is. -/
inductive RunPc where
  /-- Not called, or acquiring. -/
  | electing
  /-- In `runHeld`, and `active` is set. -/
  | elected
  /-- In the callback. -/
  | leading
  /-- The callback has returned, and the loss was looked for. -/
  | resigning (err : List RunCause)
  /-- In `release`, which is goroutine `k` of the handle. -/
  | releasing (err : List RunCause) (k : Nat)
  /-- `release` has returned. -/
  | returning (err : List RunCause)
  | returned (err : List RunCause)
deriving DecidableEq

/-- Between entering the handle in the `Leader` and taking it out. -/
def RunPc.inProgress : RunPc → Bool
  | electing | returned _ => false
  | elected | leading | resigning _ | releasing _ _ | returning _ => true

/-- Why the context of the callback was canceled. -/
inductive LeadCause where
  | parent
  /-- `leadCancel(ErrLeadershipLost)`, by the function that waits for the loss. -/
  | leadershipLost
  /-- `leadCancel(nil)`. -/
  | finished
deriving DecidableEq

/-- `Leader` objects `ρ` and the calls `ι` on them, each with a lease object of
its own. -/
structure Election (ι ρ : Type) where
  guards : Guards ι SingleStore
  run : ι → RunPc
  leadCtx : ι → Option LeadCause
  active : ρ → Option ι
  fence : ρ → Nat

/-- On which `Leader` each call is made, and whether renewal or the watchdog is
on. -/
structure Roles (ι ρ : Type) extends OwnerFleet ι where
  leader : ι → ρ
  watched : Bool

/-- A step of the guards of the calls, in which every attempt returns with the
answer of its last execution. -/
abbrev Roles.GuardStep {ι ρ : Type} [DecidableEq ι] (R : Roles ι ρ) :
    Guards ι SingleStore → Guards ι SingleStore → Prop :=
  Guards.Step R.system Policy.unrestricted.lastAnswer

namespace Election

variable {ι ρ : Type}

/-- `h.lostCtx.Err() != nil`, for the handle of call `i`. -/
def lost (x : Election ι ρ) (i : ι) : Bool :=
  match x.guards.handle i with
  | some h => h.lost
  | none => true

/-- `Leader.IsLeader`. -/
def isLeader (x : Election ι ρ) (r : ρ) : Bool :=
  match x.active r with
  | some i => !x.lost i
  | none => false

/-- `Leader.FencingToken`. -/
def fencingToken (x : Election ι ρ) (r : ρ) : Nat :=
  if x.isLeader r then x.fence r else 0

variable [DecidableEq ι] [DecidableEq ρ]

/-- Call `i` moves on. -/
def put (x : Election ι ρ) (i : ι) (pc : RunPc) : Election ι ρ :=
  { x with run := Function.update x.run i pc }

/-- The handle of call `i` is entered in its `Leader`, with the number that its
acquisition returned. -/
def enter (x : Election ι ρ) (R : Roles ι ρ) (i : ι) (fence : Nat) : Election ι ρ :=
  { x with
    active := Function.update x.active (R.leader i) (some i)
    fence := Function.update x.fence (R.leader i) fence }

/-- It is taken out, unless another one was entered. -/
def leave (x : Election ι ρ) (R : Roles ι ρ) (i : ι) : Election ι ρ :=
  if x.active (R.leader i) = some i then
    { x with
      active := Function.update x.active (R.leader i) none
      fence := Function.update x.fence (R.leader i) 0 }
  else x

/-- The context of a callback is canceled, if it was not before. -/
def cancel (x : Election ι ρ) (i : ι) (cause : LeadCause) : Election ι ρ :=
  { x with leadCtx := Function.update x.leadCtx i ((x.leadCtx i).or (some cause)) }

/-- Everything that can happen. -/
inductive Step (R : Roles ι ρ) (x : Election ι ρ) : Election ι ρ → Prop
  /-- The leases and the handles move on. -/
  | guards (hs : R.GuardStep x.guards g)
      (hsame : ∀ i, x.guards.handle i = none → g.handle i = none) : Step R x { x with guards := g }
  /-- The acquisition has succeeded: `newHandle`. -/
  | elect (hpc : x.run i = .electing) (hs : R.GuardStep x.guards g)
      (hh : g.handle i = some h) (hphase : (g.leases.obj i).phase = .held start n) :
      Step R x { (x.enter R i n).put i .elected with guards := g }
  /-- `startRenewal` or `startWatchdog`, and the callback is called. -/
  | start (hpc : x.run i = .elected) (hwatched : R.watched = true)
      (hs : R.GuardStep x.guards g) (hh : g.handle i = some h)
      (hstarted : h.started = true) : Step R x { x.put i .leading with guards := g }
  /-- Neither is on. -/
  | unwatched (hpc : x.run i = .elected) (hwatched : R.watched = false) : Step R x (x.put i .leading)
  | parentDone (hpc : (x.run i).inProgress = true) : Step R x (x.cancel i .parent)
  | lostDone (hpc : (x.run i).inProgress = true) (hlost : x.lost i = true) :
      Step R x (x.cancel i .leadershipLost)
  /-- The callback returns. -/
  | resign (hpc : x.run i = .leading) (codes : List Nat) :
      Step R x (x.put i (.resigning
        (codes.map .callback ++ if x.lost i then [.leadershipLost] else [])))
  /-- `leadCancel(nil)`, and `release` is called: goroutine `k` of the handle. -/
  | release (hpc : x.run i = .resigning err) (hs : R.GuardStep x.guards g)
      (hh : g.handle i = some h) (hk : h.threads k = some .release) :
      Step R x { (x.cancel i .finished).put i (.releasing err k) with guards := g }
  | released (hpc : x.run i = .releasing err k) (hh : x.guards.handle i = some h)
      (hk : h.threads k = some (.done causes)) :
      Step R x (x.put i (.returning (err ++ causes.map .release)))
  | leave (hpc : x.run i = .returning err) : Step R x ((x.leave R i).put i (.returned err))

/-- Nothing was called yet. -/
def Init (R : Roles ι ρ) (x : Election ι ρ) : Prop :=
  ∃ g, Guards.Init R.system OwnerFleet.Free g ∧
    x = ⟨g, fun _ => .electing, fun _ => none, fun _ => none, fun _ => 0⟩

end Election

/-! ## The handle that is released -/

/-- In `release`. -/
def Pc.inRelease : Pc → Bool
  | release | remote | releasing => true
  | cancel next | disarm next => next = .remote
  | _ => false

namespace Handle

theorem checkDeadline_keeps (h : Handle) :
    h.checkDeadline.started = h.started ∧ h.checkDeadline.releaseDone = h.releaseDone := by
  rw [checkDeadline]
  split
  · exact ⟨rfl, rfl⟩
  · split
    · dsimp only
      split <;> exact ⟨rfl, rfl⟩
    · exact ⟨rfl, rfl⟩

theorem stopTimer_keeps (h : Handle) :
    h.stopTimer.started = h.started ∧ h.stopTimer.releaseDone = h.releaseDone := by
  rw [stopTimer]
  split <;> exact ⟨rfl, rfl⟩

theorem Step.started {h h' : Handle} (hs : h.Step h') (hst : h.started = true) :
    h'.started = true := by
  cases hs with
  | tick | lease | renew | heartbeat | watchdog | release | alarm => exact hst
  | start => exact (checkDeadline_keeps _).1
  | fire => exact (checkDeadline_keeps _).1.trans hst
  | act hk ha =>
      cases ha with
      | disarm => exact (stopTimer_keeps h).1.trans hst
      | entry | guard | answer | check | alarm | after | stopped | cancel | releaseAgain | release
      | remote | released => exact hst

/-- A release that is complete has canceled. -/
def DoneLost (h : Handle) : Prop :=
  h.releaseDone = true → h.lost = true

theorem Step.doneLost {h h' : Handle} (hs : h.Step h') (hi : h.Inv) (hd : h.DoneLost) :
    h'.DoneLost := by
  have hlost := (hs.under hi).lost
  cases hs with
  | tick | lease | renew | heartbeat | watchdog | release | alarm => exact hd
  | start | fire =>
      intro hdone
      rw [(checkDeadline_keeps _).2] at hdone
      exact hlost (hd hdone)
  | act hk ha =>
      cases ha with
      | disarm => exact fun hdone => hlost (hd ((stopTimer_keeps h).2.symm.trans hdone))
      | released => exact fun _ => hi.canceled _ _ hk rfl
      | entry | guard | answer | check | alarm | after | stopped | cancel | releaseAgain | release
      | remote => exact fun hdone => hlost (hd hdone)

theorem reach_doneLost {h : Handle} (hr : Reach Init Step h) : h.DoneLost := by
  refine hr.invariant ?_ fun h h' hr hd hs => hs.doneLost (reach_inv hr) hd
  rintro h ⟨now, e, rfl⟩ hdone
  exact hdone

/-- A goroutine stays where it is, except for its own actions and the alarm of
its call. -/
theorem Step.thread {h h' : Handle} (hs : h.Step h') (hk : h.threads k = some pc) :
    h'.threads k = some pc ∨ (∃ todo, pc = .calling todo false) ∨
      ∃ h₁ pc', Act h pc h₁ pc' ∧ h' = h₁.put k pc' := by
  have hput {h₁ : Handle} (hthreads : h₁.threads = h.threads) (k' : Nat) (pc' : Pc) :
      (h₁.put k' pc').threads k = some pc ∨ k' = k := by
    by_cases heq : k = k'
    · exact .inr heq.symm
    · exact .inl ((Function.update_of_ne heq ..).trans (by rw [hthreads, hk]))
  have hfresh {k' : Nat} (hk' : h.threads k' = none) : k' ≠ k := by
    rintro rfl
    rw [hk'] at hk
    contradiction
  cases hs with
  | tick | lease => exact .inl hk
  | start => exact .inl ((congrFun (checkDeadline_frame _).1 k).trans hk)
  | fire => exact .inl ((congrFun (checkDeadline_frame _).1 k).trans hk)
  | renew hk' => exact .inl ((hput rfl _ _).resolve_right (hfresh hk'))
  | heartbeat hk' => exact .inl ((hput rfl _ _).resolve_right (hfresh hk'))
  | watchdog hk' => exact .inl ((hput rfl _ _).resolve_right (hfresh hk'))
  | release hk' => exact .inl ((hput rfl _ _).resolve_right (hfresh hk'))
  | @alarm k₁ todo k' hk₁ hk' =>
      -- it runs in a goroutine of its own, and ends the wait of its call
      by_cases heq : k = k₁
      · subst heq
        rw [hk, Option.some_inj] at hk₁
        exact .inr (.inl ⟨todo, hk₁⟩)
      · refine .inl ((Function.update_of_ne heq ..).trans ?_)
        exact (Function.update_of_ne (hfresh hk').symm ..).trans hk
  | @act k₁ pc₁ h₁ pc' hk₁ ha =>
      by_cases heq : k₁ = k
      · subst heq
        rw [hk, Option.some_inj] at hk₁
        exact .inr (.inr ⟨h₁, pc', hk₁ ▸ ha, rfl⟩)
      · have hthreads : h₁.threads = h.threads := by
          cases ha with
          | disarm =>
              rw [stopTimer]
              split <;> rfl
          | entry | guard | answer | check | alarm | after | stopped | cancel | releaseAgain
          | release | remote | released => rfl
        exact .inl ((hput hthreads k₁ pc').resolve_right heq)

/-- Goroutine `k` is in `release`, or has canceled and returned. -/
def ReleasingAt (k : Nat) (h : Handle) : Prop :=
  ∃ pc, h.threads k = some pc ∧ (pc.inRelease = true ∨ h.lost = true ∧ ∃ err, pc = .done err)

theorem Act.inRelease {h h' : Handle} (ha : Act h pc h' pc') (hpc : pc.inRelease = true)
    (hd : h.DoneLost) (hc : pc.canceled = true → h.lost = true) :
    pc'.inRelease = true ∨ h'.lost = true ∧ ∃ err, pc' = .done err := by
  cases ha with
  | releaseAgain hmu hdone => exact .inr ⟨hd hdone, _, rfl⟩
  | release => exact .inl rfl
  | cancel | disarm =>
      obtain rfl : _ = Pc.remote := by simpa [Pc.inRelease] using hpc
      exact .inl rfl
  | remote => exact .inl rfl
  | released => exact .inr ⟨hc rfl, _, rfl⟩
  | entry | guard | answer | check | alarm | after | stopped => contradiction

theorem ReleasingAt.step {h h' : Handle} (hr : h.ReleasingAt k) (hi : h.Inv) (hd : h.DoneLost)
    (hs : h.Step h') : h'.ReleasingAt k := by
  obtain ⟨pc, hk, hpc⟩ := hr
  obtain hk' | ⟨todo, rfl⟩ | ⟨h₁, pc', ha, rfl⟩ := hs.thread hk
  · exact ⟨pc, hk', hpc.imp_right fun ⟨hl, hdone⟩ => ⟨(hs.under hi).lost hl, hdone⟩⟩
  · simp [Pc.inRelease] at hpc
  · refine ⟨pc', Function.update_self .., ?_⟩
    rcases hpc with hpc | ⟨-, err, rfl⟩
    · exact ha.inRelease hpc hd (hi.canceled _ _ hk)
    · cases ha

/-- What holds of a reachable handle and is never undone. -/
theorem steps_since {h h' : Handle} (hr : Reach Init Step h) (hs : ReflTransGen Step h h') :
    (h.lost = true → h'.lost = true) ∧ (h.started = true → h'.started = true) ∧
      ∀ k, h.ReleasingAt k → h'.ReleasingAt k := by
  induction hs with
  | refl => exact ⟨id, id, fun _ => id⟩
  | tail hsteps hlast ih =>
      have hreach := hr.steps hsteps
      have hi := reach_inv hreach
      obtain ⟨hlost, hstarted, hreleasing⟩ := ih
      exact ⟨(hlast.under hi).lost ∘ hlost, hlast.started ∘ hstarted,
        fun k hk => (hreleasing k hk).step hi (reach_doneLost hreach) hlast⟩

end Handle

/-! ## What holds of the calls -/

/-- What the handle of a call that has come this far has gone through. -/
def RunPc.Fits (watched : Bool) (h : Handle) : RunPc → Prop
  | electing | elected => True
  | leading | resigning _ => watched = true → h.started = true
  | releasing _ k => (watched = true → h.started = true) ∧ h.ReleasingAt k
  | returning _ | returned _ => (watched = true → h.started = true) ∧ h.lost = true

/-- The loss of a handle was noticed when the callback returned, or is going to
be. -/
def RunPc.Noticed (lost : Bool) : RunPc → Prop
  | electing | elected => False
  | leading => lost = true
  | resigning err | releasing err _ | returning err | returned err => .leadershipLost ∈ err

theorem RunPc.Noticed.mono {pc : RunPc} (hn : pc.Noticed lost) (hl : lost = true → lost' = true) :
    pc.Noticed lost' := by
  cases pc with
  | electing | elected => exact hn
  | leading => exact hl hn
  | resigning | releasing | returning | returned => exact hn

theorem RunPc.Fits.steps {h h' : Handle} {pc : RunPc} (hf : pc.Fits watched h)
    (hr : Reach Handle.Init Handle.Step h) (hs : ReflTransGen Handle.Step h h') :
    pc.Fits watched h' := by
  obtain ⟨hlost, hstarted, hreleasing⟩ := Handle.steps_since hr hs
  cases pc with
  | electing | elected => trivial
  | leading | resigning => exact hstarted ∘ hf
  | releasing err k => exact ⟨hstarted ∘ hf.1, hreleasing k hf.2⟩
  | returning | returned => exact ⟨hstarted ∘ hf.1, hlost hf.2⟩

/-- Past `elected`, what is watched was started. -/
theorem RunPc.Fits.started {h : Handle} {pc : RunPc} (hf : pc.Fits watched h)
    (hne : pc ≠ .electing) (hne' : pc ≠ .elected) (hw : watched = true) : h.started = true := by
  cases pc with
  | electing | elected => contradiction
  | leading | resigning => exact hf hw
  | releasing | returning | returned => exact hf.1 hw

namespace Election

variable {ι ρ : Type}

theorem lost_eq {x : Election ι ρ} (hh : x.guards.handle i = some h) : x.lost i = h.lost := by
  rw [lost, hh]

variable [DecidableEq ι] {R : Roles ι ρ} {x x' : Election ι ρ}

variable (R) in
/-- Every call is where its handle says it is, and a `Leader` has entered a call
that is in progress and the number that its acquisition returned. -/
structure Inv (x : Election ι ρ) : Prop where
  guards : Reach (Guards.Init R.system OwnerFleet.Free) R.GuardStep x.guards
  call : ∀ i, x.run i ≠ .electing → ∃ h, x.guards.handle i = some h ∧ (x.run i).Fits R.watched h
  active : ∀ r i, x.active r = some i →
    R.leader i = r ∧ (x.run i).inProgress = true ∧
      ∃ start, (x.guards.leases.obj i).phase = .held start (x.fence r)
  leadCtx : ∀ i, x.leadCtx i = some .leadershipLost → x.run i ≠ .electing ∧ x.lost i = true

namespace Inv

/-- What is lost stays lost. -/
theorem lost_step (hi : x.Inv R) (hs : R.GuardStep x.guards g) {i : ι}
    (hne : x.run i ≠ .electing) (hl : x.lost i = true) : { x with guards := g }.lost i = true := by
  have hg := Guards.reach_inv hi.guards
  obtain ⟨h, hh, -⟩ := hi.call i hne
  obtain ⟨h', hh', hsteps⟩ := hs.handle_steps hg hh
  rw [lost_eq hh] at hl
  rw [lost_eq hh']
  exact (Handle.steps_since (hg.linked i h hh).reach hsteps).1 hl

theorem step_guards (hi : x.Inv R) (hs : R.GuardStep x.guards g) :
    Inv R { x with guards := g } := by
  have hg := Guards.reach_inv hi.guards
  refine ⟨hi.guards.step hs, fun i hne => ?_, fun r i hr => ?_, fun i hctx => ?_⟩
  · obtain ⟨h, hh, hf⟩ := hi.call i hne
    obtain ⟨h', hh', hsteps⟩ := hs.handle_steps hg hh
    exact ⟨h', hh', hf.steps (hg.linked i h hh).reach hsteps⟩
  · obtain ⟨hleader, hprogress, start, hheld⟩ := hi.active r i hr
    exact ⟨hleader, hprogress, start, hs.held hheld⟩
  · obtain ⟨hne, hl⟩ := hi.leadCtx i hctx
    exact ⟨hne, hi.lost_step hs hne hl⟩

/-- A call moves on, and out of its `Leader` before it ends. -/
theorem put (hi : x.Inv R) {pc : RunPc} (hne : pc ≠ .electing) (hh : x.guards.handle i = some h)
    (hf : pc.Fits R.watched h) (hactive : ∀ r, x.active r = some i → pc.inProgress = true) :
    (x.put i pc).Inv R := by
  have hself : (x.put i pc).run i = pc := Function.update_self ..
  have hother {j : ι} (hji : j ≠ i) : (x.put i pc).run j = x.run j := Function.update_of_ne hji ..
  refine ⟨hi.guards, fun j hj => ?_, fun r j hr => ?_, fun j hctx => ?_⟩
  · by_cases hji : j = i
    · subst hji
      exact ⟨h, hh, by rwa [hself]⟩
    · rw [hother hji] at hj ⊢
      exact hi.call j hj
  · obtain ⟨hleader, hprogress, hfence⟩ := hi.active r j hr
    refine ⟨hleader, ?_, hfence⟩
    by_cases hji : j = i
    · subst hji
      rw [hself]
      exact hactive r hr
    · rwa [hother hji]
  · obtain ⟨hj, hl⟩ := hi.leadCtx j hctx
    refine ⟨?_, hl⟩
    by_cases hji : j = i
    · subst hji
      rwa [hself]
    · rwa [hother hji]

/-- The context of a callback is canceled for the loss of its handle only. -/
theorem cancel (hi : x.Inv R) (hpc : (x.run i).inProgress = true)
    (hcause : cause = .leadershipLost → x.lost i = true) : (x.cancel i cause).Inv R := by
  refine ⟨hi.guards, hi.call, hi.active, fun j hctx => ?_⟩
  by_cases hji : j = i
  · subst hji
    have hne : x.run j ≠ .electing := by
      intro he
      rw [he] at hpc
      contradiction
    refine ⟨hne, ?_⟩
    simp only [Election.cancel, Function.update_self, Option.or_eq_some_iff] at hctx
    rcases hctx with hctx | ⟨-, hctx⟩
    · exact (hi.leadCtx j hctx).2
    · exact hcause (Option.some.inj hctx)
  · exact hi.leadCtx j (by simpa [Election.cancel, hji] using hctx)

variable [DecidableEq ρ]

theorem enter (hi : x.Inv R) (hpc : (x.run i).inProgress = true)
    (hphase : (x.guards.leases.obj i).phase = .held start n) : (x.enter R i n).Inv R := by
  refine ⟨hi.guards, hi.call, fun r j hr => ?_, hi.leadCtx⟩
  by_cases hri : r = R.leader i
  · subst hri
    obtain rfl : i = j := by simpa [Election.enter] using hr
    refine ⟨rfl, hpc, start, ?_⟩
    simp only [Election.enter, Function.update_self]
    exact hphase
  · have hr : x.active r = some j := by simpa [Election.enter, hri] using hr
    simp only [Election.enter, Function.update_of_ne hri]
    exact hi.active r j hr

theorem leave (hi : x.Inv R) (i : ι) :
    (x.leave R i).Inv R ∧ ∀ r, (x.leave R i).active r ≠ some i := by
  rw [Election.leave]
  by_cases hentered : x.active (R.leader i) = some i
  · have hother {r : ρ} {j : ι} (hr : Function.update x.active (R.leader i) none r = some j) :
        r ≠ R.leader i ∧ x.active r = some j := by
      by_cases hri : r = R.leader i
      · simp [hri] at hr
      · exact ⟨hri, by simpa [hri] using hr⟩
    rw [if_pos hentered]
    refine ⟨⟨hi.guards, hi.call, fun r j hr => ?_, hi.leadCtx⟩, fun r hr => ?_⟩
    · obtain ⟨hri, hr⟩ := hother hr
      simp only [Function.update_of_ne hri]
      exact hi.active r j hr
    · obtain ⟨hri, hr⟩ := hother hr
      exact hri (hi.active r i hr).1.symm
  · -- another call has entered the same `Leader` since
    rw [if_neg hentered]
    refine ⟨hi, fun r hr => hentered ?_⟩
    rw [(hi.active r i hr).1]
    exact hr

end Inv

/-- A timer of the handle of call `i` is due. -/
def Due (x : Election ι ρ) (i : ι) : Prop :=
  ∃ h t due, x.guards.handle i = some h ∧ h.timers t = some due ∧ due ≤ h.now

/-- Call `i` is in its callback, its handle is not lost, and no timer of it is
due. -/
def Leads (x : Election ι ρ) (i : ι) : Prop :=
  x.run i = .leading ∧ x.lost i = false ∧ ¬x.Due i

/-- A call that was watched and has lost nothing is a live guard. -/
theorem Inv.live (hi : x.Inv R) (hw : R.watched = true) (hne : x.run i ≠ .electing)
    (hne' : x.run i ≠ .elected) (hlost : x.lost i = false) (hdue : ¬x.Due i) : x.guards.Live i := by
  obtain ⟨h, hh, hf⟩ := hi.call i hne
  refine ⟨h, hh, hf.started hne hne' hw, lost_eq hh ▸ hlost, fun t due ht => ?_⟩
  by_contra hle
  exact hdue ⟨h, t, due, hh, ht, not_lt.mp hle⟩

theorem Leads.stored (hl : x.Leads i) (hi : x.Inv R) (hw : R.watched = true) :
    x.guards.leases.store.lock.get = some (R.id i) :=
  OwnerFleet.stored_of_live Policy.unrestricted.last_lastAnswer hi.guards
    (hi.live hw (ne_of_eq_of_ne hl.1 nofun) (ne_of_eq_of_ne hl.1 nofun) hl.2.1 hl.2.2)

theorem Init.inv (h : Init R x) : x.Inv R := by
  obtain ⟨g, hg, rfl⟩ := h
  exact ⟨.init hg, fun i hne => absurd rfl hne, nofun, nofun⟩

variable [DecidableEq ρ]

theorem Step.inv (hs : Step R x x') (hi : x.Inv R) : x'.Inv R := by
  cases hs with
  | guards hs hsame => exact hi.step_guards hs
  | elect hpc hs hh hphase =>
      have hne : RunPc.elected ≠ .electing := nofun
      have hput := (hi.step_guards hs).put hne hh trivial fun _ _ => rfl
      exact hput.enter (i := _) (by simp [Election.put, RunPc.inProgress]) hphase
  | start hpc hw hs hh hstarted =>
      exact (hi.step_guards hs).put nofun hh (fun _ => hstarted) fun _ _ => rfl
  | unwatched hpc hw =>
      obtain ⟨h, hh, -⟩ := hi.call _ (ne_of_eq_of_ne hpc nofun)
      exact hi.put nofun hh (fun hw' => absurd (hw.symm.trans hw') nofun) fun _ _ => rfl
  | parentDone hpc => exact hi.cancel hpc nofun
  | lostDone hpc hlost => exact hi.cancel hpc fun _ => hlost
  | resign hpc codes =>
      obtain ⟨h, hh, hf⟩ := hi.call _ (ne_of_eq_of_ne hpc nofun)
      rw [hpc] at hf
      exact hi.put nofun hh hf fun _ _ => rfl
  | @release i err g h k hpc hs hh hk =>
      have hcancel : (x.cancel i .finished).Inv R := hi.cancel (by rw [hpc]; rfl) nofun
      have hnext := hcancel.step_guards hs
      obtain ⟨h', hh', hf⟩ := hnext.call _ (ne_of_eq_of_ne hpc nofun)
      obtain rfl := Option.some.inj (hh.symm.trans hh')
      have hf : RunPc.Fits R.watched _ (.resigning _) := hpc ▸ hf
      exact hnext.put nofun hh ⟨hf, _, hk, .inl rfl⟩ fun _ _ => rfl
  | released hpc hh hk =>
      obtain ⟨h', hh', hf⟩ := hi.call _ (ne_of_eq_of_ne hpc nofun)
      obtain rfl := Option.some.inj (hh.symm.trans hh')
      rw [hpc] at hf
      obtain ⟨hstarted, pc, hk', hpc'⟩ := hf
      obtain rfl := Option.some.inj (hk.symm.trans hk')
      -- a release that has returned has canceled
      have hlost := (hpc'.resolve_left nofun).1
      exact hi.put nofun hh ⟨hstarted, hlost⟩ fun _ _ => rfl
  | leave hpc =>
      obtain ⟨h, hh, hf⟩ := hi.call _ (ne_of_eq_of_ne hpc nofun)
      rw [hpc] at hf
      obtain ⟨hleave, hout⟩ := hi.leave _
      refine hleave.put nofun (h := h) ?_ hf fun r hr => absurd hr (hout r)
      rw [Election.leave]
      split <;> exact hh

theorem reach_inv (h : Reach (Init R) (Step R) x) : x.Inv R :=
  h.invariant (fun _ => Init.inv) (fun _ _ _ hi hs => hs.inv hi)

/-! ## A call from beginning to end -/

theorem Step.lost (hs : Step R x x') (hi : x.Inv R) (hne : x.run i ≠ .electing)
    (hl : x.lost i = true) : x'.lost i = true := by
  cases hs with
  | guards hs | elect hpc hs | start hpc hw hs | release hpc hs => exact hi.lost_step hs hne hl
  | unwatched | parentDone | lostDone | resign | released => exact hl
  | @leave j err hpc =>
      show (x.leave R j).lost i = true
      rw [Election.leave]
      split <;> exact hl

end Election

end Distsync
