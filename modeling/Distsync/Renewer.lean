import Distsync.Server.Verdicts
import Distsync.Trans
import Mathlib.Algebra.GroupWithZero.Nat

/-!
# Distsync.Renewer

The goroutine that renews a lease (`internal/lease/renewer.go`), with any
number of calls of `Start` and `Stop` on it.

A call is a program counter, and so is every loop that was launched.  One of
the calls wins `startOnce`: a `Start` launches the loop, which closes `done`
when it ends, and a `Stop` closes `done` itself.  So a renewer has one of three
lives (`Life`), and in each of them the channel is closed once
(`renewer_protocol`).
-/

namespace Distsync

open Trans

/-- Why the loop ends. -/
inductive LoopExit where
  /-- Its context was canceled. -/
  | canceled
  /-- The lease is lost. -/
  | lost
deriving DecidableEq

/-- Where a loop is. -/
inductive LoopPc where
  /-- At `select`. -/
  | selecting
  /-- The ticker has fired. -/
  | ticked
  /-- In the call of `renew`. -/
  | renewing
  /-- `renew` has returned, with the context canceled by then or not. -/
  | answered (verdict : Verdict) (canceled : Bool)
  /-- In the call of `onLost`. -/
  | notifying
  /-- About to close `done`. -/
  | exiting (why : LoopExit)
  | ended (why : LoopExit)
deriving DecidableEq

/-- What a loop can do next. -/
inductive LoopEvent where
  /-- `select` takes `ctx.Done()`. -/
  | done
  /-- `select` takes the ticker. -/
  | tick
  /-- The check before `renew`. -/
  | check
  /-- `renew` returns. -/
  | answer (verdict : Verdict)
  /-- The checks after `renew`. -/
  | recheck
  /-- `onLost` returns. -/
  | notified
  | close
deriving DecidableEq

namespace LoopPc

/-- One event of a loop, if it can happen; `onLost` says whether there is such
a function. -/
def next (canceled onLost : Bool) : LoopPc → LoopEvent → Option LoopPc
  | selecting, .done => if canceled then some (exiting .canceled) else none
  | selecting, .tick => some ticked
  | ticked, .check => some (if canceled then exiting .canceled else renewing)
  | renewing, .answer verdict => some (answered verdict canceled)
  | answered verdict _, .recheck =>
      some (if canceled then exiting .canceled
        else match verdict with
          | .ok | .failed => selecting
          | .lost => if onLost then notifying else exiting .lost)
  | notifying, .notified => some (exiting .lost)
  | exiting why, .close => some (ended why)
  | _, _ => none

/-- The call of `onLost` that begins between two places: what `renew` had
returned, and whether the context was canceled then. -/
def callback : LoopPc → LoopPc → List (Verdict × Bool)
  | answered verdict canceled, notifying => [(verdict, canceled)]
  | _, _ => []

end LoopPc

/-- Where a call of `Start` or `Stop` is. -/
inductive RenewerCall where
  | idle
  /-- In `Start`, at `startOnce`. -/
  | starting
  /-- `Start` has returned. -/
  | started
  /-- In `Stop`, at `cancel`. -/
  | stopping
  /-- In `Stop`, at `startOnce`. -/
  | claiming
  /-- In `Stop`, at `<-r.done`. -/
  | waiting
  /-- `Stop` has returned. -/
  | stopped
deriving DecidableEq

structure Renewer where
  /-- `onLost` is not nil. -/
  onLost : Bool
  /-- `ctx` is canceled. -/
  canceled : Bool
  /-- `startOnce` is done. -/
  startOnce : Bool
  /-- How often `done` was closed. -/
  closes : Nat
  /-- The loops that were launched. -/
  loops : List LoopPc
  calls : Nat → RenewerCall
  /-- The calls of `onLost`, each with the result it was made for. -/
  notified : List (Verdict × Bool)

/-- What can happen next. -/
inductive RenewerEvent where
  /-- `Start` is called. -/
  | start (k : Nat)
  /-- `Start` comes to `startOnce`. -/
  | launch (k : Nat)
  /-- `Stop` is called. -/
  | stop (k : Nat)
  | cancel (k : Nat)
  /-- `Stop` comes to `startOnce`. -/
  | claim (k : Nat)
  /-- `Stop` finds `done` closed. -/
  | wake (k : Nat)
  /-- The `i`-th loop takes a step. -/
  | loop (i : Nat) (e : LoopEvent)
deriving DecidableEq

namespace Renewer

/-- `NewRenewer`. -/
def new (onLost : Bool) : Renewer := ⟨onLost, false, false, 0, [], fun _ => .idle, []⟩

/-- Call `k` moves on. -/
def put (x : Renewer) (k : Nat) (call : RenewerCall) : Renewer :=
  { x with calls := Function.update x.calls k call }

/-- The `i`-th loop moves from `pc` to `pc'`. -/
def move (x : Renewer) (i : Nat) (e : LoopEvent) (pc pc' : LoopPc) : Renewer :=
  { x with
    loops := x.loops.set i pc'
    closes := if e = .close then x.closes + 1 else x.closes
    notified := pc.callback pc' ++ x.notified }

/-- One event, if it can happen. -/
def step (x : Renewer) : RenewerEvent → Option Renewer
  | .start k => if x.calls k = .idle then some (x.put k .starting) else none
  | .launch k =>
      if x.calls k = .starting then
        some (if x.startOnce then x.put k .started
          else { x.put k .started with startOnce := true, loops := x.loops ++ [.selecting] })
      else none
  | .stop k => if x.calls k = .idle then some (x.put k .stopping) else none
  | .cancel k =>
      if x.calls k = .stopping then some { x.put k .claiming with canceled := true } else none
  | .claim k =>
      if x.calls k = .claiming then
        some (if x.startOnce then x.put k .waiting
          else { x.put k .waiting with startOnce := true, closes := x.closes + 1 })
      else none
  | .wake k =>
      if x.calls k = .waiting ∧ x.closes ≠ 0 then some (x.put k .stopped) else none
  | .loop i e =>
      match x.loops[i]? with
      | some pc => (pc.next x.canceled x.onLost e).map (x.move i e pc)
      | none => none

def Init (x : Renewer) : Prop := ∃ onLost, x = new onLost

def Step (x x' : Renewer) : Prop := ∃ e, x.step e = some x'

/-- Events one after the other, if they can happen. -/
def run (x : Renewer) (es : List RenewerEvent) : Option Renewer := es.foldlM step x

end Renewer

/-! ## The loop -/

namespace LoopPc

/-- No call of `renew` or `onLost` is running. -/
def Quiet (pc : LoopPc) : Prop := pc ≠ renewing ∧ pc ≠ notifying

/-- How often this loop has closed `done`. -/
def closes : LoopPc → Nat
  | ended _ => 1
  | _ => 0

/-- The loop has acted on a loss. -/
def lost : LoopPc → Bool
  | notifying | exiting .lost | ended .lost => true
  | _ => false

/-- The steps that are left when the context is canceled, at most. -/
def rank : LoopPc → Nat
  | selecting | renewing => 3
  | ticked | answered .. | notifying => 2
  | exiting _ => 1
  | ended _ => 0

/-- What a place says about the context. -/
def Sound (canceled : Bool) : LoopPc → Prop
  | answered _ c => c = true → canceled = true
  | exiting .canceled | ended .canceled => canceled = true
  | _ => True

/-- The calls of `onLost` until here. -/
def notified (onLost : Bool) (pc : LoopPc) : List (Verdict × Bool) :=
  if onLost && pc.lost then [(.lost, false)] else []

variable {pc pc' : LoopPc}

theorem next_sound (h : pc.next canceled onLost e = some pc') (hs : pc.Sound canceled) :
    pc'.Sound canceled := by
  unfold next at h
  grind [Sound]

theorem Sound.cancel (h : pc.Sound canceled) : pc.Sound true := by
  cases pc <;> grind [LoopPc.Sound]

theorem next_closes (h : pc.next canceled onLost e = some pc') :
    pc'.closes = if e = .close then pc.closes + 1 else pc.closes := by
  unfold next at h
  grind [closes]

theorem next_notified (h : pc.next canceled onLost e = some pc') (hs : pc.Sound canceled) :
    pc'.notified onLost = pc.callback pc' ++ pc.notified onLost := by
  unfold next at h
  grind [Sound, notified, callback, lost]

/-- `onLost` is called for a loss that is found with the context not canceled. -/
theorem callback_ne_nil_iff (h : pc.next canceled true e = some pc') :
    pc.callback pc' ≠ [] ↔ e = .recheck ∧ canceled = false ∧ ∃ c, pc = answered .lost c := by
  unfold next at h
  grind [callback]

theorem exists_next (h : pc.rank ≠ 0) (onLost : Bool) :
    ∃ e pc', pc.next true onLost e = some pc' := by
  cases pc with
  | selecting => exact ⟨.done, _, rfl⟩
  | ticked => exact ⟨.check, _, rfl⟩
  | renewing => exact ⟨.answer .ok, _, rfl⟩
  | answered => exact ⟨.recheck, _, rfl⟩
  | notifying => exact ⟨.notified, _, rfl⟩
  | exiting => exact ⟨.close, _, rfl⟩
  | ended => contradiction

theorem rank_next (h : pc.next true onLost e = some pc') : pc'.rank < pc.rank := by
  unfold next at h
  grind [rank]

end LoopPc

/-! ## The lives of a renewer -/

/-- Who has won `startOnce`. -/
inductive Life where
  | fresh
  /-- A `Stop`: there is no loop. -/
  | never
  /-- A `Start`. -/
  | loop (pc : LoopPc)

namespace Life

def begun : Life → Bool
  | fresh => false
  | never | loop _ => true

def closes : Life → Nat
  | fresh => 0
  | never => 1
  | loop pc => pc.closes

def loops : Life → List LoopPc
  | fresh | never => []
  | loop pc => [pc]

def notified (onLost : Bool) : Life → List (Verdict × Bool)
  | fresh | never => []
  | loop pc => pc.notified onLost

end Life

/-- What a place in a call says about the renewer. -/
def RenewerCall.Sound (canceled startOnce : Bool) (closes : Nat) : RenewerCall → Prop
  | idle | starting | started | stopping => True
  | claiming => canceled = true
  | waiting => canceled = true ∧ startOnce = true
  | stopped => canceled = true ∧ startOnce = true ∧ closes ≠ 0

theorem RenewerCall.Sound.mono {call : RenewerCall} (h : call.Sound canceled startOnce closes)
    (hcanceled : canceled = true → canceled' = true)
    (honce : startOnce = true → startOnce' = true) (hcloses : closes ≤ closes') :
    call.Sound canceled' startOnce' closes' := by
  cases call with
  | idle | starting | started | stopping => trivial
  | claiming => exact hcanceled h
  | waiting => exact ⟨hcanceled h.1, honce h.2⟩
  | stopped => exact ⟨hcanceled h.1, honce h.2.1, by have := h.2.2; omega⟩

namespace Renewer

/-- The renewer leads this life. -/
structure Lives (x : Renewer) (life : Life) : Prop where
  startOnce : x.startOnce = life.begun
  closes : x.closes = life.closes
  loops : x.loops = life.loops
  notified : x.notified = life.notified x.onLost

/-- What carries the argument. -/
structure Sound (x : Renewer) : Prop where
  lives : ∃ life, x.Lives life
  loop : ∀ pc ∈ x.loops, pc.Sound x.canceled
  call : ∀ k, (x.calls k).Sound x.canceled x.startOnce x.closes

theorem Init.sound {x : Renewer} (h : x.Init) : x.Sound := by
  obtain ⟨onLost, rfl⟩ := h
  exact ⟨⟨.fresh, rfl, rfl, rfl, rfl⟩, by simp [new], fun _ => trivial⟩

namespace Lives

variable {x : Renewer}

theorem eq_fresh (h : x.Lives life) (honce : x.startOnce = false) : life = .fresh := by
  have hbegun := h.startOnce.symm.trans honce
  cases life with
  | fresh => rfl
  | never | loop => contradiction

theorem eq_loop (h : x.Lives life) (hi : x.loops[i]? = some pc) : life = .loop pc ∧ i = 0 := by
  rw [h.loops] at hi
  cases life with
  | fresh | never => contradiction
  | loop pc' =>
      obtain ⟨hlt, hget⟩ := List.getElem?_eq_some_iff.mp hi
      obtain rfl : i = 0 := by simpa [Life.loops] using hlt
      exact ⟨congrArg Life.loop hget, rfl⟩

theorem closes_le_one (h : x.Lives life) : x.closes ≤ 1 := by
  rw [h.closes]
  cases life with
  | fresh | never => decide
  | loop pc => cases pc <;> simp [Life.closes, LoopPc.closes]

theorem length_loops_le (h : x.Lives life) : x.loops.length ≤ 1 := by
  rw [h.loops]
  cases life <;> simp [Life.loops]

theorem notified_spec (h : x.Lives life) :
    x.notified.length ≤ 1 ∧ ∀ e ∈ x.notified, e = (.lost, false) := by
  rw [h.notified]
  cases life with
  | fresh | never => simp [Life.notified]
  | loop pc =>
      rw [Life.notified, LoopPc.notified]
      split <;> simp

/-- When `done` is closed, nothing is running. -/
theorem quiet (h : x.Lives life) (hclosed : x.closes ≠ 0) : ∀ pc ∈ x.loops, pc.Quiet := by
  rw [h.closes] at hclosed
  rw [h.loops]
  cases life with
  | fresh => contradiction
  | never => simp [Life.loops]
  | loop pc =>
      cases pc with
      | ended => simp [Life.loops, LoopPc.Quiet]
      | selecting | ticked | renewing | answered | notifying | exiting => contradiction

end Lives

namespace Sound

variable {x : Renewer}

/-- A call that moves on leaves the others where they are. -/
theorem put (h : x.Sound) (k : Nat) {call : RenewerCall}
    (hcall : call.Sound x.canceled x.startOnce x.closes) : (x.put k call).Sound := by
  obtain ⟨life, hlife⟩ := h.lives
  refine ⟨⟨life, hlife.startOnce, hlife.closes, hlife.loops, hlife.notified⟩, h.loop, fun k' => ?_⟩
  by_cases hk : k' = k
  · subst hk
    simpa [Renewer.put] using hcall
  · simpa [Renewer.put, hk] using h.call k'

theorem call_eq {c : RenewerCall} (h : x.Sound) (hk : x.calls k = c) :
    c.Sound x.canceled x.startOnce x.closes :=
  hk ▸ h.call k

theorem closes_of_stopped (h : x.Sound) (hk : x.calls k = .stopped) : x.closes ≠ 0 :=
  (h.call_eq hk).2.2

theorem cancel (h : x.Sound) : { x with canceled := true }.Sound := by
  obtain ⟨life, hlife⟩ := h.lives
  refine ⟨⟨life, hlife.startOnce, hlife.closes, hlife.loops, hlife.notified⟩, ?_, ?_⟩
  · intro pc hpc
    exact (h.loop pc hpc).cancel
  · intro k
    exact (h.call k).mono (fun _ => rfl) id (le_refl _)

theorem launch (h : x.Sound) (honce : x.startOnce = false) :
    { x with startOnce := true, loops := x.loops ++ [LoopPc.selecting] }.Sound := by
  obtain ⟨life, hlife⟩ := h.lives
  obtain rfl := hlife.eq_fresh honce
  have hloops : x.loops ++ [.selecting] = [.selecting] := by rw [hlife.loops]; rfl
  refine ⟨⟨.loop .selecting, rfl, hlife.closes, hloops, ?_⟩, ?_, ?_⟩
  · simpa [Life.notified, LoopPc.notified, LoopPc.lost] using hlife.notified
  · simp [hloops, LoopPc.Sound]
  · intro k
    exact (h.call k).mono id (fun _ => rfl) (le_refl _)

theorem claim (h : x.Sound) (honce : x.startOnce = false) :
    { x with startOnce := true, closes := x.closes + 1 }.Sound := by
  obtain ⟨life, hlife⟩ := h.lives
  obtain rfl := hlife.eq_fresh honce
  refine ⟨⟨.never, rfl, congrArg (· + 1) hlife.closes, hlife.loops, hlife.notified⟩, h.loop, ?_⟩
  intro k
  exact (h.call k).mono id (fun _ => rfl) (Nat.le_succ _)

theorem move (h : x.Sound) (hi : x.loops[i]? = some pc)
    (hnext : pc.next x.canceled x.onLost e = some pc') : (x.move i e pc pc').Sound := by
  obtain ⟨life, hlife⟩ := h.lives
  obtain ⟨rfl, rfl⟩ := hlife.eq_loop hi
  have hpc : pc.Sound x.canceled := h.loop pc (List.mem_of_getElem? hi)
  have hloops : x.loops.set 0 pc' = [pc'] := by rw [hlife.loops]; rfl
  refine ⟨⟨.loop pc', hlife.startOnce, ?_, hloops, ?_⟩, ?_, ?_⟩
  · exact (congrArg (fun n => if e = .close then n + 1 else n) hlife.closes).trans
      (LoopPc.next_closes hnext).symm
  · exact (congrArg (pc.callback pc' ++ ·) hlife.notified).trans
      (LoopPc.next_notified hnext hpc).symm
  · simpa [Renewer.move, hloops] using LoopPc.next_sound hnext hpc
  · intro k
    refine (h.call k).mono id id ?_
    simp only [Renewer.move]
    split <;> omega

end Sound

/-! ## Runs -/

theorem sound_step {x x' : Renewer} (h : x.Sound) (hs : Step x x') : x'.Sound := by
  obtain ⟨e, he⟩ := hs
  cases e with
  | start k | stop k =>
      rw [step] at he
      split at he <;> cases he
      exact h.put k trivial
  | launch k =>
      rw [step] at he
      split at he <;> cases he
      split
      · exact h.put k trivial
      · next honce => exact (h.launch (Bool.eq_false_iff.mpr honce)).put k trivial
  | cancel k =>
      rw [step] at he
      split at he <;> cases he
      exact h.cancel.put k rfl
  | claim k =>
      rw [step] at he
      split at he <;> cases he
      next hk =>
      have hcanceled : x.canceled = true := h.call_eq hk
      split
      · next honce => exact h.put k ⟨hcanceled, honce⟩
      · next honce => exact (h.claim (Bool.eq_false_iff.mpr honce)).put k ⟨hcanceled, rfl⟩
  | wake k =>
      rw [step] at he
      split at he <;> cases he
      next hk =>
      obtain ⟨hcanceled, honce⟩ : x.canceled = true ∧ x.startOnce = true := h.call_eq hk.1
      exact h.put k ⟨hcanceled, honce, hk.2⟩
  | loop i e =>
      rw [step] at he
      split at he
      · next pc hi =>
        obtain ⟨pc', hnext, rfl⟩ := Option.map_eq_some_iff.mp he
        exact h.move hi hnext
      · contradiction

theorem sound_of_reach {x : Renewer} (h : Reach Init Step x) : x.Sound :=
  Reach.invariant (I := Sound) (fun _ => Init.sound) (fun _ _ _ hx hs => sound_step hx hs) h

/-- A `Stop` that has returned does not move. -/
theorem stopped_step {x x' : Renewer} (hs : Step x x') (hk : x.calls k = .stopped) :
    x'.calls k = .stopped := by
  have hput {k' : Nat} {call : RenewerCall} (hne : x.calls k' ≠ .stopped) :
      (x.put k' call).calls k = .stopped := by
    have hkk : k ≠ k' := by
      rintro rfl
      exact hne hk
    simp [put, hkk, hk]
  obtain ⟨e, he⟩ := hs
  cases e with
  | start | stop | cancel =>
      rw [step] at he
      split at he <;> cases he
      next hcall => exact hput (by simp [hcall])
  | launch | claim =>
      rw [step] at he
      split at he <;> cases he
      next hcall => split <;> exact hput (by simp [hcall])
  | wake =>
      rw [step] at he
      split at he <;> cases he
      next hcall => exact hput (by simp [hcall.1])
  | loop i e =>
      rw [step] at he
      split at he
      · obtain ⟨pc', -, rfl⟩ := Option.map_eq_some_iff.mp he
        exact hk
      · contradiction

theorem stopped_steps {x x' : Renewer} (hs : Relation.ReflTransGen Step x x')
    (hk : x.calls k = .stopped) : x'.calls k = .stopped := by
  induction hs with
  | refl => exact hk
  | tail _ hlast ih => exact stopped_step hlast ih

/-- A step of the only loop. -/
theorem step_loop {x x' : Renewer} (hloops : x.loops = [pc]) (h : x.step (.loop 0 e) = some x') :
    ∃ pc', pc.next x.canceled x.onLost e = some pc' ∧ x' = x.move 0 e pc pc' ∧
      x'.loops = [pc'] := by
  simp only [step, hloops, List.getElem?_cons_zero] at h
  obtain ⟨pc', hnext, rfl⟩ := Option.map_eq_some_iff.mp h
  exact ⟨pc', hnext, rfl, by simp [move, hloops]⟩

/-- A step of a `Stop` leaves the loops alone. -/
theorem step_stop {x x' : Renewer} (he : e ∈ [.stop k, .cancel k, .claim k, .wake k])
    (h : x.step e = some x') :
    x'.loops = x.loops ∧ x'.onLost = x.onLost ∧ x'.notified = x.notified := by
  simp only [List.mem_cons, List.not_mem_nil, or_false] at he
  rcases he with rfl | rfl | rfl | rfl
  all_goals
    rw [step] at h
    split at h <;> cases h
  · exact ⟨rfl, rfl, rfl⟩
  · exact ⟨rfl, rfl, rfl⟩
  · split <;> exact ⟨rfl, rfl, rfl⟩
  · exact ⟨rfl, rfl, rfl⟩

theorem Sound.notified_eq {x : Renewer} (h : x.Sound) (hloops : x.loops = [pc]) :
    x.notified = pc.notified x.onLost := by
  obtain ⟨life, hlife⟩ := h.lives
  have hi : x.loops[0]? = some pc := by simp [hloops]
  obtain ⟨rfl, -⟩ := hlife.eq_loop hi
  exact hlife.notified

/-- What is left of the loops when their context is canceled. -/
def loopRank (x : Renewer) : Nat := (x.loops.map LoopPc.rank).sum

/-- A loop whose context is canceled moves on by itself. -/
theorem loop_moves {x : Renewer} (h : x.Sound) (hcanceled : x.canceled = true)
    (hrank : x.loopRank ≠ 0) :
    ∃ e x', x.step (.loop 0 e) = some x' ∧ x'.canceled = true ∧ x'.startOnce = x.startOnce ∧
      x'.loopRank < x.loopRank := by
  obtain ⟨life, hlife⟩ := h.lives
  cases life with
  | fresh | never =>
      rw [loopRank, hlife.loops] at hrank
      contradiction
  | loop pc =>
      have hloops : x.loops = [pc] := hlife.loops
      have hpc : pc.rank ≠ 0 := by simpa [loopRank, hloops] using hrank
      obtain ⟨e, pc', hnext⟩ := LoopPc.exists_next hpc x.onLost
      refine ⟨e, x.move 0 e pc pc', ?_, hcanceled, rfl, ?_⟩
      · simp [step, hloops, hcanceled, hnext]
      · simpa [loopRank, move, hloops] using LoopPc.rank_next hnext

theorem closes_eq_one {x : Renewer} (h : x.Sound) (honce : x.startOnce = true)
    (hrank : x.loopRank = 0) : x.closes = 1 := by
  obtain ⟨life, hlife⟩ := h.lives
  rw [hlife.closes]
  cases life with
  | fresh =>
      rw [hlife.startOnce] at honce
      contradiction
  | never => rfl
  | loop pc =>
      have hloops : x.loops = [pc] := hlife.loops
      have hpc : pc.rank = 0 := by simpa [loopRank, hloops] using hrank
      cases pc with
      | ended => rfl
      | selecting | ticked | renewing | answered | notifying | exiting => contradiction

/-- Its steps lead to the end, where `done` is closed. -/
theorem loop_closes {x : Renewer} (h : x.Sound) (hcanceled : x.canceled = true)
    (honce : x.startOnce = true) :
    ∃ (es : List LoopEvent) (x' : Renewer), x.run (es.map (.loop 0)) = some x' ∧ x'.closes = 1 := by
  have hmoves (x : Renewer) (hx : x.Sound ∧ x.canceled = true ∧ x.startOnce = true)
      (hrank : x.loopRank ≠ 0) : ∃ e x', x.step (.loop 0 e) = some x' ∧
        (x'.Sound ∧ x'.canceled = true ∧ x'.startOnce = true) ∧ x'.loopRank < x.loopRank := by
    obtain ⟨e, x', he, hc, hkept, hlt⟩ := loop_moves hx.1 hx.2.1 hrank
    exact ⟨e, x', he, ⟨sound_step hx.1 ⟨_, he⟩, hc, hkept.trans hx.2.2⟩, hlt⟩
  obtain ⟨es, x', hes, ⟨hsound, -, honce'⟩, hrank⟩ :=
    exists_foldlM_of_rank (fun x e => step x (.loop 0 e)) _ loopRank hmoves ⟨h, hcanceled, honce⟩
  refine ⟨es, x', ?_, closes_eq_one hsound honce' hrank⟩
  rw [run, List.foldlM_map]
  exact hes

/-- **Start and stop**: whatever calls are made and however they interleave
with the loop,

* `done` is closed at most once, and before any `Stop` returns;
* at most one loop is ever launched;
* when a `Stop` has returned, no call of `renew` or `onLost` is running, then
  or later;
* `onLost` is called at most once, for a result `ErrLost` that came before the
  context was canceled;
* while a `Stop` waits, `done` is closed, or the loop can come to close it. -/
theorem renewer_protocol {x : Renewer} (h : Reach Init Step x) :
    x.closes ≤ 1 ∧ x.loops.length ≤ 1 ∧
    (∀ k, x.calls k = .stopped → x.closes = 1 ∧
      ∀ x', Relation.ReflTransGen Step x x' → ∀ pc ∈ x'.loops, pc.Quiet) ∧
    (x.notified.length ≤ 1 ∧ ∀ e ∈ x.notified, e = (.lost, false)) ∧
    ∀ k, x.calls k = .waiting → x.closes = 1 ∨
      ∃ (es : List LoopEvent) (x' : Renewer),
        x.run (es.map (.loop 0)) = some x' ∧ x'.closes = 1 := by
  have hsound := sound_of_reach h
  obtain ⟨life, hlife⟩ := hsound.lives
  refine ⟨hlife.closes_le_one, hlife.length_loops_le, fun k hk => ⟨?_, ?_⟩, hlife.notified_spec, ?_⟩
  · have hne := hsound.closes_of_stopped hk
    have hle := hlife.closes_le_one
    omega
  · intro x' hs
    have hsound' := sound_of_reach (h.steps hs)
    obtain ⟨life', hlife'⟩ := hsound'.lives
    exact hlife'.quiet (hsound'.closes_of_stopped (stopped_steps hs hk))
  · intro k hk
    obtain ⟨hcanceled, honce⟩ := hsound.call_eq hk
    exact .inr (loop_closes hsound hcanceled honce)

/-- A `Stop` comes while `renew` is running, and waits until the loop has found
its context canceled; a second `Start` and `Stop` change nothing. -/
theorem renewer_protocol_stop_waits :
    let es : List RenewerEvent := [.start 0, .launch 0, .loop 0 .tick, .loop 0 .check, .stop 1,
      .cancel 1, .claim 1, .start 2, .launch 2, .loop 0 (.answer .lost), .loop 0 .recheck,
      .loop 0 .close, .wake 1, .stop 3, .cancel 3, .claim 3, .wake 3]
    ∃ x, (new true).run es = some x ∧ x.calls 1 = .stopped ∧ x.loops = [.ended .canceled] ∧
      x.notified = [] ∧ x.closes = 1 := by
  intro es
  have hmap : ((new true).run es).map (fun x => (x.calls 1, x.loops, x.notified)) =
      some (.stopped, [.ended .canceled], []) := by
    decide +kernel
  obtain ⟨x, hrun, hx⟩ := Option.map_eq_some_iff.mp hmap
  rw [Prod.mk.injEq, Prod.mk.injEq] at hx
  obtain ⟨hstopped, hloops, hnotified⟩ := hx
  have hreach : Reach Init Step x :=
    (Reach.init ⟨true, rfl⟩).foldlM hrun
  obtain ⟨-, -, hstop, -⟩ := renewer_protocol hreach
  exact ⟨x, hrun, hstopped, hloops, hnotified, (hstop 1 hstopped).1⟩

end Renewer

end Distsync
