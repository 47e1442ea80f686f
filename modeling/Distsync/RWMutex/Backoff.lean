import Distsync.RWMutex
import Mathlib.Algebra.Order.Field.Basic
import Mathlib.Data.Rat.Floor
import Mathlib.Tactic.Linarith

/-!
# Distsync.RWMutex.Backoff

A contender that waits, and the timeout after which the others take it for
crashed.

Between two attempts a contender is silent for as long as its retry policy
says.  Its entry is purged, and the queue keys expire, after twice the TTL
without an attempt.  The one is set by the policy and the other by the TTL, so
whether a live contender keeps its place depends on both
(`Waiter.queued_of_fits`).
-/

namespace Distsync

open Redis Trans

/-! ## Retry policies -/

/-- `retryPolicy`, in nanoseconds. -/
structure RetryPolicy where
  base : Int
  max : Int

/-- `0.8 + 0.4*rand.Float64()`. -/
structure Jitter where
  factor : ℚ
  le_factor : 4 / 5 ≤ factor
  factor_lt : factor < 6 / 5

namespace RetryPolicy

/-- The policy of `New`. -/
def default : RetryPolicy := ⟨50000000, 2000000000⟩

def resolvedBase (p : RetryPolicy) : Int := if p.base ≤ 0 then 50000000 else p.base

def resolvedMax (p : RetryPolicy) : Int := if p.max ≤ 0 then 2000000000 else p.max

/-- `retryPolicy.delay`, in exact arithmetic.  The duration is an `int64` in the
source: with a maximum so large that the largest jitter takes it beyond 2^63
nanoseconds the conversion overflows there. -/
def delay (p : RetryPolicy) (attempt : Nat) (jitter : Jitter) : Int :=
  let d : ℚ := p.resolvedBase * 2 ^ attempt
  let d := if d > p.resolvedMax then (p.resolvedMax : ℚ) else d
  ⌊d * jitter.factor⌋

/-- The longest delay, with the largest jitter, is within the waiter
timeout. -/
def Fits (p : RetryPolicy) (ttl : Int) : Prop :=
  6 * p.resolvedMax ≤ 5 * (waiterTimeout ttl * 1000000 + 1)

theorem resolvedBase_pos (p : RetryPolicy) : 0 < p.resolvedBase := by
  rw [resolvedBase]
  split <;> omega

theorem resolvedMax_pos (p : RetryPolicy) : 0 < p.resolvedMax := by
  rw [resolvedMax]
  split <;> omega

theorem Fits.waiterTimeout_pos {p : RetryPolicy} (h : p.Fits ttl) : 0 < waiterTimeout ttl := by
  have hmax := p.resolvedMax_pos
  rw [Fits] at h
  omega

theorem delay_nonneg (p : RetryPolicy) (attempt : Nat) (jitter : Jitter) :
    0 ≤ p.delay attempt jitter := by
  have hbase : (0 : ℚ) < p.resolvedBase := by exact_mod_cast p.resolvedBase_pos
  have hmax : (0 : ℚ) < p.resolvedMax := by exact_mod_cast p.resolvedMax_pos
  have hjitter : 0 < jitter.factor := lt_of_lt_of_le (by norm_num) jitter.le_factor
  rw [delay, Int.floor_nonneg]
  split <;> positivity

theorem delay_le {p : RetryPolicy} (h : p.Fits ttl) (attempt : Nat) (jitter : Jitter) :
    p.delay attempt jitter ≤ waiterTimeout ttl * 1000000 := by
  have hmax : (0 : ℚ) < p.resolvedMax := by exact_mod_cast p.resolvedMax_pos
  have hfits : 6 * (p.resolvedMax : ℚ) ≤ 5 * (waiterTimeout ttl * 1000000 + 1) := by
    exact_mod_cast h
  have hjitter : 0 < jitter.factor := lt_of_lt_of_le (by norm_num) jitter.le_factor
  have hclip (d : ℚ) : (if d > p.resolvedMax then (p.resolvedMax : ℚ) else d) ≤ p.resolvedMax := by
    split
    · exact le_refl _
    · next hle => exact not_lt.mp hle
  rw [delay, ← Int.lt_add_one_iff, Int.floor_lt]
  push_cast
  calc _ ≤ (p.resolvedMax : ℚ) * jitter.factor :=
        mul_le_mul_of_nonneg_right (hclip _) hjitter.le
    _ < p.resolvedMax * (6 / 5) := mul_lt_mul_of_pos_left jitter.factor_lt hmax
    _ ≤ waiterTimeout ttl * 1000000 + 1 := by linarith

end RetryPolicy

/-! ## An entry that stays -/

namespace RWStore

/-- `m` is queued with the time stamp `ts`, and both keys last until `e`. -/
def Keeps (s : RWStore) (m : String) (ts e : Int) : Prop :=
  (∃ z d, s.waiters = .present z (some d) ∧ e ≤ d ∧ ∃ sc, z.score m = some sc) ∧
    ∃ f d, s.waiterTs = .present f (some d) ∧ e ≤ d ∧ f.lookup m = some ts

theorem Keeps.score {s : RWStore} (h : s.Keeps m ts e) : ∃ sc, s.queue.score m = some sc := by
  obtain ⟨⟨z, d, hw, -, hsc⟩, -⟩ := h
  rwa [queue_present hw]

theorem Keeps.stamp {s : RWStore} (h : s.Keeps m ts e) : s.stamp m = some ts := by
  obtain ⟨-, f, d, hts, -, hf⟩ := h
  rw [RWStore.stamp, hts]
  exact hf

theorem Keeps.of_eq {s s' : RWStore} (h : s.Keeps m ts e) (hw : s'.waiters = s.waiters)
    (hts : s'.waiterTs = s.waiterTs) : s'.Keeps m ts e := by
  rw [Keeps, hw, hts]
  exact h

theorem Keeps.evict {s : RWStore} (h : s.Keeps m ts e) (ht : t ≤ e) : (s.evict t).Keeps m ts e := by
  obtain ⟨⟨z, d, hw, hd, hz⟩, f, d', hts, hd', hf⟩ := h
  refine ⟨⟨z, d, ?_, hd, hz⟩, f, d', ?_, hd', hf⟩
  · rw [RWStore.evict, hw]
    exact if_neg (by omega)
  · rw [RWStore.evict, hts]
    exact if_neg (by omega)

theorem Keeps.zremWaiter {s : RWStore} (h : s.Keeps m ts e) (hne : m ≠ m') :
    (s.zremWaiter m').Keeps m ts e := by
  obtain ⟨⟨z, d, hw, hd, sc, hz⟩, hts⟩ := h
  have hscore : (z.rem m').score m = some sc := by rw [ZSet.score_rem_of_ne z hne, hz]
  have hnonempty : z.rem m' ≠ ∅ := fun he => by
    rw [he] at hscore
    contradiction
  refine ⟨⟨z.rem m', d, ?_, hd, sc, hscore⟩, hts⟩
  rw [RWStore.zremWaiter, hw]
  exact if_neg hnonempty

theorem Keeps.hdelWaiter {s : RWStore} (h : s.Keeps m ts e) (hne : m ≠ m') :
    (s.hdelWaiter m').Keeps m ts e := by
  obtain ⟨hw, f, d, hts, hd, hf⟩ := h
  have hlookup : (f.erase m').lookup m = some ts := by rw [Finmap.lookup_erase_ne hne, hf]
  have hnonempty : f.erase m' ≠ ∅ := fun he => by
    rw [he] at hlookup
    contradiction
  refine ⟨hw, f.erase m', d, ?_, hd, hlookup⟩
  rw [RWStore.hdelWaiter, hts]
  exact if_neg hnonempty

theorem Keeps.leave {s : RWStore} (h : s.Keeps m ts e) (hne : m ≠ m') :
    (s.leave m').Keeps m ts e :=
  (h.zremWaiter hne).hdelWaiter hne

/-- The purge stops at a recent stamp. -/
theorem Keeps.purgeLoop {s : RWStore} (h : s.Keeps m ts e) (hlimit : limit ≤ ts) (fuel : Nat) :
    (s.purgeLoop limit fuel).Keeps m ts e := by
  induction fuel generalizing s with
  | zero => exact h
  | succ fuel ih =>
      rw [RWStore.purgeLoop]
      split
      · exact h
      · next m₀ _ =>
        split
        · exact h
        · next ts₀ hts₀ =>
          split
          · next hlt =>
            refine ih (h.leave ?_)
            rintro rfl
            cases h.stamp.symm.trans hts₀
            omega
          · exact h

/-- Another contender that prepares its decision gives the keys a later
deadline, and purges what has been silent for longer. -/
theorem Keeps.prepare {s : RWStore} (h : s.Keeps m ts e) (hne : m ≠ m') (hwt : 0 < wt)
    (he : e ≤ t + wt) (hrecent : now - wt ≤ ts) : (s.prepare t m' now wt).Keeps m ts e := by
  refine Keeps.purgeLoop (s := s.enter t m' now wt) ?_ hrecent _
  obtain ⟨z, hw, hz⟩ := s.enter_waiters t m' now hwt
  refine ⟨⟨z, t + wt, hw, he, ?_⟩, _, t + wt, s.enter_waiterTs t m' now hwt, he, ?_⟩
  · rw [hz, if_neg hne]
    exact h.score
  · rw [Finmap.lookup_insert_of_ne _ hne]
    exact h.stamp

/-- The contender itself is queued when it has prepared its own. -/
theorem keeps_prepare (t : Int) (m : String) (now : Int) (hwt : 0 < wt) (s : RWStore) :
    (s.prepare t m now wt).Keeps m now (t + wt) := by
  refine Keeps.purgeLoop (s := s.enter t m now wt) ?_ (by omega) _
  obtain ⟨z, hw, hz⟩ := s.enter_waiters t m now hwt
  refine ⟨⟨z, t + wt, hw, le_refl _, s.number m, ?_⟩,
    _, t + wt, s.enter_waiterTs t m now hwt, le_refl _, ?_⟩
  · rw [hz, if_pos rfl]
  · exact Finmap.lookup_insert _

end RWStore

/-! ## A contender among others -/

/-- A command that somebody else has the server execute at time `t`.  All
contenders have the same TTL, and read the same clock. -/
def Contender.Concurs (c : Contender) (t : Int) : RWCmd → Prop
  | .readLock token _ now wt =>
      readerMember token ≠ c.member ∧ now = t ∧ wt = waiterTimeout c.ttl
  | .writeLock token _ now wt =>
      writerMember token ≠ c.member ∧ now = t ∧ wt = waiterTimeout c.ttl
  | .zrem m | .hdel m => m ≠ c.member
  | _ => True

instance (c : Contender) (t : Int) : DecidablePred (c.Concurs t)
  | .readLock .. | .writeLock .. => inferInstanceAs (Decidable (_ ∧ _ ∧ _))
  | .zrem m | .hdel m => inferInstanceAs (Decidable (m ≠ c.member))
  | .readerRenew .. | .readerRelease _ | .writerRenew .. | .writerRelease _ | .expireWriter
  | .sweep => inferInstanceAs (Decidable True)

namespace RWStore

theorem Keeps.run {s : RWStore} {c : Contender} (h : s.Keeps c.member ts e) {cmd : RWCmd}
    (hcmd : c.Concurs t cmd) (hwt : 0 < waiterTimeout c.ttl) (he : e ≤ t + waiterTimeout c.ttl)
    (hrecent : t - waiterTimeout c.ttl ≤ ts) : (cmd.run t s).1.Keeps c.member ts e := by
  cases cmd with
  | readLock token ttl now wt =>
      obtain ⟨hne, rfl, rfl⟩ := hcmd
      have hprep := h.prepare hne.symm hwt he hrecent
      rcases rwReadLock_cases now token ttl now (waiterTimeout c.ttl) s with
        ⟨-, heq⟩ | ⟨-, heq⟩ | ⟨-, -, -, heq⟩
      · rw [RWCmd.run, heq]
        exact h
      · rw [RWCmd.run, heq]
        exact hprep
      · rw [RWCmd.run, heq]
        exact (hprep.leave hne.symm).of_eq rfl rfl
  | writeLock token ttl now wt =>
      obtain ⟨hne, rfl, rfl⟩ := hcmd
      have hprep := h.prepare hne.symm hwt he hrecent
      rcases rwWriteLock_cases now token ttl now (waiterTimeout c.ttl) s with
        ⟨-, heq⟩ | ⟨-, z, r, -, -, heq⟩ | ⟨-, -, -, -, heq⟩
      · rw [RWCmd.run, heq]
        exact h
      · rw [RWCmd.run, heq]
        exact hprep.of_eq rfl rfl
      · rw [RWCmd.run, heq]
        exact (hprep.leave hne.symm).of_eq rfl rfl
  | zrem m => exact h.zremWaiter hcmd.symm
  | hdel m => exact h.hdelWaiter hcmd.symm
  | readerRenew | readerRelease | writerRenew | writerRelease | expireWriter | sweep =>
      exact h.of_eq rfl rfl

end RWStore

/-- Where a call of `Lock` or `RLock` is. -/
inductive WaitPhase where
  | idle
  /-- The attempt with this number was refused at `last`, the next is made at
  `due`. -/
  | waiting (attempt : Nat) (last due : Int)
  /-- Granted, failed or given up. -/
  | ended
deriving DecidableEq

/-- The time passes until the next attempt, not beyond it. -/
def WaitPhase.Admits (clock : Int) : WaitPhase → Prop
  | waiting _ _ due => clock ≤ due
  | idle | ended => True

instance (clock : Int) : DecidablePred (WaitPhase.Admits clock)
  | .waiting _ _ due => inferInstanceAs (Decidable (clock ≤ due))
  | .idle | .ended => inferInstanceAs (Decidable True)

/-- The keys, the clock (in nanoseconds) that all share, and one contender. -/
structure Waiter where
  store : RWStore
  clock : Int
  phase : WaitPhase

/-- What can happen next. -/
inductive WaitEvent where
  /-- Time passes until `clock`. -/
  | tick (clock : Int)
  /-- A command of somebody else is executed. -/
  | others (cmd : RWCmd)
  /-- The contender makes its first attempt, or the one that is due. -/
  | attempt (jitter : Jitter)
  /-- The contender gives up and dequeues itself. -/
  | giveUp

namespace Waiter

variable (c : Contender) (p : RetryPolicy)

/-- Commands are executed at once. -/
def exec (cmd : RWCmd) (x : Waiter) : RWStore × Reply := cmd.exec (unixMilli x.clock) x.store

/-- Attempt number `n`, and the delay if it is refused. -/
def tryAcquire (n : Nat) (jitter : Jitter) (x : Waiter) : Waiter :=
  let r := x.exec (c.lockCmd x.clock)
  { x with
    store := r.1
    phase := if r.2 = .nil then .waiting n x.clock (x.clock + p.delay n jitter) else .ended }

/-- One event, if it can happen. -/
def step (x : Waiter) : WaitEvent → Option Waiter
  | .tick clock =>
      if x.clock ≤ clock ∧ x.phase.Admits clock then some { x with clock } else none
  | .others cmd =>
      if c.Concurs (unixMilli x.clock) cmd then some { x with store := (x.exec cmd).1 } else none
  | .attempt jitter =>
      match x.phase with
      | .idle => some (x.tryAcquire c p 0 jitter)
      | .waiting n _ due => if x.clock = due then some (x.tryAcquire c p (n + 1) jitter) else none
      | .ended => none
  | .giveUp =>
      match x.phase with
      | .waiting _ _ _ =>
          let x := { x with store := (x.exec (.zrem c.member)).1 }
          some { x with store := (x.exec (.hdel c.member)).1, phase := .ended }
      | .idle | .ended => none

/-- The contender has not begun, and nobody knows its token. -/
def Init (x : Waiter) : Prop :=
  x.phase = .idle ∧ (c.role = .writer → x.store.writer.get ≠ some c.id)

def Step (x x' : Waiter) : Prop := ∃ e, x.step c p e = some x'

/-- Events one after the other, if they can happen. -/
def run (x : Waiter) (es : List WaitEvent) : Option Waiter := es.foldlM (step c p) x

/-- While it waits, the contender has its entry in the queue. -/
def Queued (x : Waiter) : Prop :=
  ∀ n last due, x.phase = .waiting n last due →
    ∃ sc, (x.store.evict (unixMilli x.clock)).queue.score c.member = some sc

/-- What carries the argument: the entry is stamped with the last attempt and
lasts for the timeout after it, and the next attempt is due within that. -/
structure Alive (x : Waiter) : Prop where
  unknown : x.phase ≠ .ended → c.role = .writer → x.store.writer.get ≠ some c.id
  waiting : ∀ n last due, x.phase = .waiting n last due →
    last ≤ x.clock ∧ x.clock ≤ due ∧ due ≤ last + waiterTimeout c.ttl * 1000000 ∧
      x.store.Keeps c.member (unixMilli last) (unixMilli last + waiterTimeout c.ttl)

variable {c p}

theorem reach_run {x x' : Waiter} (hx : Reach (Init c) (Step c p) x) {es : List WaitEvent}
    (h : x.run c p es = some x') : Reach (Init c) (Step c p) x' :=
  hx.foldlM h

/-- The server's time is within the timeout. -/
theorem Alive.recent {x : Waiter} (h : x.Alive c) (hw : x.phase = .waiting n last due) :
    unixMilli last ≤ unixMilli x.clock ∧
      unixMilli x.clock ≤ unixMilli last + waiterTimeout c.ttl := by
  obtain ⟨hlast, hclock, hdue, -⟩ := h.waiting n last due hw
  rw [unixMilli, unixMilli]
  omega

theorem Alive.queued {x : Waiter} (h : x.Alive c) : x.Queued c := by
  intro n last due hw
  obtain ⟨-, -, -, hkeeps⟩ := h.waiting n last due hw
  exact (hkeeps.evict (h.recent hw).2).score

/-- Nobody else stores the contender's token as the writer. -/
theorem writer_of_concurs {s : RWStore} (hrole : c.role = .writer) {cmd : RWCmd}
    (hcmd : c.Concurs t cmd) (h : (cmd.run t s).1.writer.get = some c.id) :
    s.writer.get = some c.id := by
  cases cmd with
  | readLock token ttl now wt => rwa [RWCmd.run, (rwReadLock_writer t token ttl now wt s).1] at h
  | writeLock token ttl now wt =>
      have hne : token ≠ c.id := by
        rintro rfl
        exact hcmd.1 (by rw [Contender.member, hrole, Role.member])
      rcases rwWriteLock_cases t token ttl now wt s with
        ⟨-, heq⟩ | ⟨-, z, r, -, -, heq⟩ | ⟨-, -, -, -, heq⟩ <;> rw [RWCmd.run, heq] at h
      · exact h
      · rwa [RWStore.prepare_writer] at h
      · exact absurd (Option.some_inj.mp h) hne
  | writerRenew token ttl =>
      rcases get_singleRenew t token ttl s.writer with hsame | hnone
      · exact hsame.symm.trans h
      · exact absurd (h.symm.trans hnone) (Option.some_ne_none _)
  | writerRelease token =>
      rcases singleRelease_cases token s.writer with ⟨-, heq⟩ | ⟨-, heq⟩ <;>
        rw [RWCmd.run, heq] at h
      · contradiction
      · exact h
  | expireWriter => contradiction
  | readerRenew | readerRelease | zrem | hdel | sweep => exact h

/-- A refused attempt leaves the contender queued. -/
theorem keeps_of_refused {x : Waiter} (hwt : 0 < waiterTimeout c.ttl)
    (hunknown : c.role = .writer → x.store.writer.get ≠ some c.id)
    (hnil : (x.exec (c.lockCmd x.clock)).2 = .nil) :
    (x.exec (c.lockCmd x.clock)).1.writer = (x.store.evict (unixMilli x.clock)).writer ∧
      (x.exec (c.lockCmd x.clock)).1.Keeps c.member (unixMilli x.clock)
        (unixMilli x.clock + waiterTimeout c.ttl) := by
  have hprep := RWStore.keeps_prepare (unixMilli x.clock) c.member (unixMilli x.clock) hwt
    (x.store.evict (unixMilli x.clock))
  obtain ⟨role, id, ttl⟩ := c
  cases role with
  | reader =>
      change (rwReadLock _ id _ _ _ _).2 = .nil at hnil
      change (rwReadLock _ id _ _ _ _).1.writer = _ ∧ (rwReadLock _ id _ _ _ _).1.Keeps _ _ _
      rcases rwReadLock_cases (unixMilli x.clock) id (milliseconds ttl) (unixMilli x.clock)
        (waiterTimeout ttl) (x.store.evict (unixMilli x.clock)) with
        ⟨-, heq⟩ | ⟨-, heq⟩ | ⟨-, -, -, heq⟩
      · rw [heq] at hnil
        contradiction
      · rw [heq]
        exact ⟨RWStore.prepare_writer .., hprep⟩
      · rw [heq] at hnil
        contradiction
  | writer =>
      change (rwWriteLock _ id _ _ _ _).2 = .nil at hnil
      change (rwWriteLock _ id _ _ _ _).1.writer = _ ∧ (rwWriteLock _ id _ _ _ _).1.Keeps _ _ _
      rcases rwWriteLock_cases (unixMilli x.clock) id (milliseconds ttl) (unixMilli x.clock)
        (waiterTimeout ttl) (x.store.evict (unixMilli x.clock)) with
        ⟨hown, -⟩ | ⟨-, z, r, -, -, heq⟩ | ⟨-, -, -, -, heq⟩
      · exact absurd hown (RWStore.writer_evict_ne (hunknown rfl) _)
      · rw [heq]
        exact ⟨RWStore.prepare_writer .., hprep.of_eq rfl rfl⟩
      · rw [heq] at hnil
        contradiction

theorem alive_tryAcquire (hfits : p.Fits c.ttl) {x : Waiter}
    (hunknown : c.role = .writer → x.store.writer.get ≠ some c.id) (n : Nat) (jitter : Jitter) :
    (x.tryAcquire c p n jitter).Alive c := by
  rw [tryAcquire]
  by_cases hnil : (x.exec (c.lockCmd x.clock)).2 = .nil
  · obtain ⟨hwriter, hkeeps⟩ := keeps_of_refused hfits.waiterTimeout_pos hunknown hnil
    have hdelay := RetryPolicy.delay_le hfits n jitter
    have hnonneg := p.delay_nonneg n jitter
    rw [if_pos hnil]
    refine ⟨fun _ hrole => ?_, ?_⟩
    · exact hwriter ▸ RWStore.writer_evict_ne (hunknown hrole) _
    · rintro _ _ _ ⟨⟩
      exact ⟨le_refl _, by simp only; omega, by omega, hkeeps⟩
  · rw [if_neg hnil]
    exact ⟨fun h => absurd rfl h, nofun⟩

theorem alive_step (hfits : p.Fits c.ttl) {x x' : Waiter} (h : x.Alive c) (hs : Step c p x x') :
    x'.Alive c := by
  obtain ⟨e, he⟩ := hs
  cases e with
  | tick clock =>
      rw [step] at he
      split at he
      · next hmay =>
        cases he
        refine ⟨h.unknown, fun n last due hw => ?_⟩
        obtain ⟨hlast, -, hdue, hkeeps⟩ := h.waiting n last due hw
        have hphase : x.phase = .waiting n last due := hw
        have hadmits := hmay.2
        rw [hphase] at hadmits
        exact ⟨hlast.trans hmay.1, hadmits, hdue, hkeeps⟩
      · contradiction
  | others cmd =>
      rw [step] at he
      split at he
      · next hcmd =>
        cases he
        refine ⟨fun hphase hrole hown => ?_, fun n last due hw => ?_⟩
        · exact RWStore.writer_evict_ne (h.unknown hphase hrole) _ (writer_of_concurs hrole hcmd hown)
        · obtain ⟨hlast, hclock, hdue, hkeeps⟩ := h.waiting n last due hw
          obtain ⟨hle, hle'⟩ := h.recent hw
          have hevict := hkeeps.evict hle'
          exact ⟨hlast, hclock, hdue,
            hevict.run hcmd hfits.waiterTimeout_pos (by omega) (by omega)⟩
      · contradiction
  | attempt jitter =>
      rw [step] at he
      split at he
      · next hphase =>
        cases he
        exact alive_tryAcquire hfits (h.unknown (by rw [hphase]; nofun)) 0 jitter
      · next n last due hphase =>
        split at he
        · cases he
          exact alive_tryAcquire hfits (h.unknown (by rw [hphase]; nofun)) (n + 1) jitter
        · contradiction
      · contradiction
  | giveUp =>
      rw [step] at he
      split at he
      · cases he
        exact ⟨fun h => absurd rfl h, nofun⟩
      · contradiction
      · contradiction

/-- **A live waiter keeps its place**: if the longest delay of the retry policy
is within the waiter timeout, then in every run, whatever the others have the
server do, a contender that makes its attempts when they are due is in the
queue from its first attempt until it is granted or gives up. -/
theorem queued_of_fits (hfits : p.Fits c.ttl) {x : Waiter} (h : Reach (Init c) (Step c p) x) :
    x.Queued c := by
  refine Alive.queued (Reach.invariant (I := Alive c) ?_ ?_ h)
  · rintro x ⟨hphase, hunknown⟩
    exact ⟨fun _ => hunknown, fun n last due hw => by rw [hphase] at hw; contradiction⟩
  · intro x x' _ halive hs
    exact alive_step hfits halive hs

/-- The default TTL and the default policy. -/
theorem queued_of_fits_default :
    let c : Contender := ⟨.writer, "a", 10000000000⟩
    let start : Waiter := ⟨.init, 0, .idle⟩
    let jitter : Jitter := ⟨1, by decide +kernel, by decide +kernel⟩
    let es : List WaitEvent := [.others (.writeLock "w" 10000 0 20000), .attempt jitter,
      .tick 50000000, .attempt jitter, .tick 60000000]
    ∃ x, start.run c .default es = some x ∧ x.phase = .waiting 1 50000000 150000000 ∧
      x.Queued c := by
  intro c start jitter es
  have hmap : (start.run c .default es).map Waiter.phase =
      some (.waiting 1 50000000 150000000) := by
    decide +kernel
  obtain ⟨x, hrun, hphase⟩ := Option.map_eq_some_iff.mp hmap
  have hfits : RetryPolicy.default.Fits c.ttl := by
    rw [RetryPolicy.Fits]
    decide +kernel
  have hreach := reach_run (.init ⟨rfl, fun _ => by decide +kernel⟩) hrun
  exact ⟨x, hrun, hphase, queued_of_fits hfits hreach⟩

/-- **A live waiter that is taken for crashed**: a TTL of 100 ms with the default
policy, while `w` holds the lock.  The third delay of `a` is 220 ms, and the
queue keys expire after 200.  `b` comes 19 ms before the next attempt of `a` is
due, and is granted the lock that `a` has been waiting for. -/
theorem live_waiter_expires :
    let c : Contender := ⟨.writer, "a", 100000000⟩
    let start : Waiter := ⟨.init, 0, .idle⟩
    let even : Jitter := ⟨1, by decide +kernel, by decide +kernel⟩
    let long : Jitter := ⟨11 / 10, by decide +kernel, by decide +kernel⟩
    let es : List WaitEvent := [.others (.writeLock "w" 100 0 200), .attempt even,
      .tick 50000000, .others (.writerRenew "w" 100), .attempt even,
      .tick 150000000, .attempt long, .tick 351000000]
    ∃ x, start.run c .default es = some x ∧ Reach (Init c) (Step c .default) x ∧
      x.phase = .waiting 2 150000000 370000000 ∧ ¬x.Queued c ∧
      (x.step c .default (.others (.writeLock "b" 100 351 200))).map (fun x => x.store.writer.get) =
        some (some "b") := by
  intro c start even long es
  have hmap : (start.run c .default es).map (fun x =>
      (x.phase, (x.store.evict (unixMilli x.clock)).queue.score c.member,
        (x.step c .default (.others (.writeLock "b" 100 351 200))).map
          fun x => x.store.writer.get)) =
      some (.waiting 2 150000000 370000000, none, some (some "b")) := by
    decide +kernel
  obtain ⟨x, hrun, hx⟩ := Option.map_eq_some_iff.mp hmap
  rw [Prod.mk.injEq, Prod.mk.injEq] at hx
  obtain ⟨hphase, hnone, hgranted⟩ := hx
  refine ⟨x, hrun, reach_run (.init ⟨rfl, fun _ => by decide +kernel⟩) hrun, hphase, fun h => ?_,
    hgranted⟩
  obtain ⟨sc, hsc⟩ := h _ _ _ hphase
  cases hnone.symm.trans hsc

end Waiter

end Distsync
