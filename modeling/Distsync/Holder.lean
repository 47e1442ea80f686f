import Distsync.Server.Verdicts
import Distsync.Trans
import Mathlib.Logic.Function.Basic

/-!
# Distsync.Holder

The instance-level `Unlock`.  A `Mutex` keeps the guard that was acquired last
in its field `holder`, and `Unlock` releases that one; an `RWMutex` does so
twice, with `writeHolder` for `Unlock` and `readHolder` for `RUnlock`.

The field is read, the guard is released, and the field is cleared, with
`holderMu` held for the first and for the last only.  Any number of goroutines
do this, and acquire, and release guards themselves.  An `Unlock` that succeeds
has released the guard that was the newest when it began, and none that is newer
is dropped from the field (`Holder.unlock_releases`).
-/

namespace Distsync

open Trans

/-- A call of `Unlock`.  Guards are numbered as they are stored; `newest` is the
last one that was stored when the call began. -/
inductive UnlockCall where
  /-- It has read guard `g` from the field and releases it. -/
  | releasing (newest : Option Nat) (g : Nat)
  /-- The release has returned `nil` or `ErrLost`. -/
  | released (newest : Option Nat) (g : Nat) (verdict : Verdict)
  | returned (newest : Option Nat) (verdict : Verdict)
deriving DecidableEq

/-- A field `holder` with the calls on its instance, and the guards stored in it
so far. -/
structure Holder where
  /-- How many guards have been stored. -/
  guards : Nat
  holder : Option Nat
  /-- `releaseDone` of each guard. -/
  releaseDone : Nat → Bool
  calls : Nat → Option UnlockCall

/-- What can happen next. -/
inductive HolderEvent where
  /-- `setHolder` with a new guard. -/
  | setHolder
  /-- Call `i` of `Unlock` reads the field. -/
  | read (i : Nat)
  /-- The release of its guard returns. -/
  | release (i : Nat) (verdict : Verdict)
  /-- It clears the field and returns. -/
  | clear (i : Nat)
  /-- A guard is released by its own `Unlock`. -/
  | unlockGuard (g : Nat) (verdict : Verdict)
deriving DecidableEq

namespace Holder

def init : Holder := ⟨0, none, fun _ => false, fun _ => none⟩

/-- The guard that was stored last. -/
def newest (x : Holder) : Option Nat := if x.guards = 0 then none else some (x.guards - 1)

/-- What `release` of a guard can return: `nil` once it is done, and it is done
by `nil` and by `ErrLost`. -/
def CanRelease (x : Holder) (g : Nat) (verdict : Verdict) : Prop :=
  x.releaseDone g = true → verdict = .ok

instance (x : Holder) (g : Nat) (verdict : Verdict) : Decidable (x.CanRelease g verdict) :=
  inferInstanceAs (Decidable (_ → _))

def afterRelease (x : Holder) (g : Nat) (verdict : Verdict) : Nat → Bool :=
  Function.update x.releaseDone g (x.releaseDone g || verdict != .failed)

def setCall (x : Holder) (i : Nat) (c : UnlockCall) : Nat → Option UnlockCall :=
  Function.update x.calls i (some c)

/-- One event, if it can happen. -/
def step (x : Holder) : HolderEvent → Option Holder
  | .setHolder => some { x with guards := x.guards + 1, holder := some x.guards }
  | .read i =>
      if x.calls i = none then
        match x.holder with
        | none => some { x with calls := x.setCall i (.returned x.newest .ok) }
        | some g => some { x with calls := x.setCall i (.releasing x.newest g) }
      else none
  | .release i verdict =>
      match x.calls i with
      | some (.releasing newest g) =>
          if x.CanRelease g verdict then
            some { x with
              releaseDone := x.afterRelease g verdict
              calls := x.setCall i
                (if verdict = .failed then .returned newest verdict
                  else .released newest g verdict) }
          else none
      | _ => none
  | .clear i =>
      match x.calls i with
      | some (.released newest g verdict) =>
          some { x with
            holder := if x.holder = some g then none else x.holder
            calls := x.setCall i (.returned newest verdict) }
      | _ => none
  | .unlockGuard g verdict =>
      if g < x.guards ∧ x.CanRelease g verdict then
        some { x with releaseDone := x.afterRelease g verdict }
      else none

def Step (x x' : Holder) : Prop := ∃ e, x.step e = some x'

/-- What holds of a call where it is. -/
def CallInv (x : Holder) : UnlockCall → Prop
  | .releasing newest g => newest = some g
  | .released newest g verdict => newest = some g ∧ x.releaseDone g = true ∧ verdict ≠ .failed
  | .returned newest verdict => verdict ≠ .failed → ∀ g, newest = some g → x.releaseDone g = true

structure Inv (x : Holder) : Prop where
  holder : ∀ g, x.holder = some g → x.newest = some g
  cleared : x.holder = none → ∀ g, x.newest = some g → x.releaseDone g = true
  calls : ∀ i c, x.calls i = some c → x.CallInv c

/-! ## Steps keep the invariant -/

theorem CallInv.mono {x x' : Holder} (hdone : ∀ g, x.releaseDone g = true → x'.releaseDone g = true)
    (h : x.CallInv c) : x'.CallInv c := by
  cases c with
  | releasing newest g => exact h
  | released newest g verdict => exact ⟨h.1, hdone g h.2.1, h.2.2⟩
  | returned newest verdict => exact fun hv g hg => hdone g (h hv g hg)

/-- A call moves on. -/
theorem Inv.setCall {x : Holder} (hi : x.Inv) {x' : Holder}
    (hdone : ∀ g, x.releaseDone g = true → x'.releaseDone g = true) (hc : x'.CallInv c) :
    ∀ j c', x.setCall i c j = some c' → x'.CallInv c' := by
  intro j c' hj
  rcases update_eq_some hj with ⟨-, rfl⟩ | ⟨-, hj⟩
  · exact hc
  · exact (hi.calls j c' hj).mono hdone

/-- A release that is done stays done. -/
theorem afterRelease_of_done {x : Holder} (g : Nat) (verdict : Verdict)
    (h : x.releaseDone g' = true) : x.afterRelease g verdict g' = true := by
  rw [afterRelease, Function.update_apply]
  split
  · next heq => rw [← heq, h, Bool.true_or]
  · exact h

theorem afterRelease_self {x : Holder} (g : Nat) (hv : verdict ≠ .failed) :
    x.afterRelease g verdict g = true := by
  rw [afterRelease, Function.update_self]
  simp [hv]

theorem inv_init : init.Inv := ⟨nofun, fun _ _ hg => (nomatch hg), nofun⟩

/-- The field has the guard that was just stored. -/
theorem Inv.store {x : Holder} (hi : x.Inv) :
    Inv { x with guards := x.guards + 1, holder := some x.guards } := by
  refine ⟨?_, nofun, fun i c hc => (hi.calls i c hc).mono fun _ => id⟩
  rintro _ ⟨⟩
  rfl

theorem Inv.read {x : Holder} (hi : x.Inv) (hx : x.step (.read i) = some x') : x'.Inv := by
  rw [step] at hx
  obtain ⟨-, hx⟩ := Option.ite_none_right_eq_some.mp hx
  split at hx
  · next hh =>
    cases hx
    have hcall : x.CallInv (.returned x.newest .ok) := fun _ => hi.cleared hh
    exact ⟨hi.holder, hi.cleared, hi.setCall (fun _ => id) (hcall.mono fun _ => id)⟩
  · next g hh =>
    cases hx
    exact ⟨hi.holder, hi.cleared, hi.setCall (fun _ => id) (hi.holder g hh)⟩

theorem Inv.release {x : Holder} (hi : x.Inv) (hx : x.step (.release i verdict) = some x') :
    x'.Inv := by
  rw [step] at hx
  split at hx
  · next newest g hcall =>
    obtain ⟨-, hx⟩ := Option.ite_none_right_eq_some.mp hx
    have hnewest : newest = some g := hi.calls i _ hcall
    cases hx
    have hdone (g' : Nat) : x.releaseDone g' = true → x.afterRelease g verdict g' = true :=
      afterRelease_of_done g verdict
    refine ⟨hi.holder, fun hh g' hg' => hdone g' (hi.cleared hh g' hg'), hi.setCall hdone ?_⟩
    split
    · next hv => exact fun hne => absurd hv hne
    · next hv => exact ⟨hnewest, afterRelease_self g hv, hv⟩
  · contradiction

/-- The guard that is dropped from the field is released; a newer one stays. -/
theorem Inv.clear {x : Holder} (hi : x.Inv) (hx : x.step (.clear i) = some x') : x'.Inv := by
  rw [step] at hx
  split at hx
  · next newest g verdict hcall =>
    obtain ⟨rfl, hdone, -⟩ := hi.calls i _ hcall
    cases hx
    refine ⟨?_, ?_, hi.setCall (fun _ => id) fun _ g' hg' => Option.some.inj hg' ▸ hdone⟩
    · intro g' hg'
      dsimp only at hg'
      split at hg'
      · contradiction
      · exact hi.holder g' hg'
    · intro hh g' hg'
      dsimp only at hh
      split at hh
      · -- what was in the field is the newest guard, and it is the one released
        next heq =>
        cases (hi.holder g heq).symm.trans hg'
        exact hdone
      · exact hi.cleared hh g' hg'
  · contradiction

theorem Inv.unlockGuard {x : Holder} (hi : x.Inv) (hx : x.step (.unlockGuard g verdict) = some x') :
    x'.Inv := by
  obtain ⟨-, hx⟩ := Option.ite_none_right_eq_some.mp hx
  cases hx
  have hdone (g' : Nat) : x.releaseDone g' = true → x.afterRelease g verdict g' = true :=
    afterRelease_of_done g verdict
  exact ⟨hi.holder, fun hh g' hg' => hdone g' (hi.cleared hh g' hg'),
    fun i c hc => (hi.calls i c hc).mono hdone⟩

theorem Step.inv {x x' : Holder} (hs : Step x x') (hi : x.Inv) : x'.Inv := by
  obtain ⟨e, he⟩ := hs
  cases e with
  | setHolder => exact Option.some.inj he ▸ hi.store
  | read i => exact hi.read he
  | release i verdict => exact hi.release he
  | clear i => exact hi.clear he
  | unlockGuard g verdict => exact hi.unlockGuard he

/-- **Unlock releases the newest guard**: in every interleaving of acquisitions
and releases on one instance, the field has the guard that was stored last,
unless the release of that one is done; and when a call of `Unlock` has returned
`nil` or `ErrLost`, the release of the guard that was the newest when it began is
done. -/
theorem unlock_releases {x : Holder} (h : Reach (· = init) Step x) :
    (∀ g, x.newest = some g → x.holder = some g ∨ x.releaseDone g = true) ∧
      ∀ i newest verdict, x.calls i = some (.returned newest verdict) → verdict ≠ .failed →
        ∀ g, newest = some g → x.releaseDone g = true := by
  have hi : x.Inv := h.invariant (fun s hs => hs ▸ inv_init) fun _ _ _ hi hs => hs.inv hi
  refine ⟨fun g hg => ?_, fun i newest verdict hcall => hi.calls i _ hcall⟩
  cases hh : x.holder with
  | none => exact .inr (hi.cleared hh g hg)
  | some g' => exact .inl ((hi.holder g' hh).symm.trans hg)

/-- A second guard is acquired while `Unlock` releases the first: that one is
released, and the second stays in the field. -/
theorem unlock_releases_overtaken :
    ∃ x, Reach (· = init) Step x ∧ x.newest = some 1 ∧ x.holder = some 1 ∧
      x.releaseDone 0 = true := by
  have hrun := (Reach.init rfl : Reach (· = init) Step init).foldlM (show
    [.setHolder, .read 0, .setHolder, .release 0 .ok, .clear 0].foldlM step init = some _ from rfl)
  obtain ⟨hholder, hcalls⟩ := unlock_releases hrun
  have hlocked : ¬Function.update (fun _ => false) 0 true 1 = true := by decide
  exact ⟨_, hrun, rfl, (hholder 1 rfl).resolve_right hlocked,
    hcalls 0 (some 0) .ok rfl (by decide) 0 rfl⟩

end Holder

end Distsync
