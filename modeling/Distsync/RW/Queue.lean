import Distsync.RW

/-!
# Distsync.RW.Queue

The arrival queue of a read-write lock over whole runs.

The order lives in three keys that expire separately: the queue, the time
stamps and the sequence counter.  Every attempt gives all three the same
deadline, so while there is a queue there is a counter that has reached all
its numbers (`Numbered`), and as long as nobody deletes the stamp of a queued
member, there is a stamp for every entry (`Stamped`).

A run is followed together with two facts about each entry that the keys do
not hold: which execution created it, and the timestamp of the last attempt
executed for it.
-/

namespace Distsync

open Redis Trans

namespace RWStore

/-! ## Entering the queue -/

/-- What an attempt does to the queue before the purge. -/
def enter (t : Int) (m : String) (now waiterTimeout : Int) (s : RWStore) : RWStore :=
  (s.join m now).touch t waiterTimeout

/-- The number of a contender: the one it has, or the next one. -/
def number (m : String) (s : RWStore) : Nat := (s.queue.score m).getD (s.seq.get.getD 0 + 1)

theorem number_of_some {s : RWStore} (h : s.queue.score m = some sc) : s.number m = sc := by
  rw [number, h]
  rfl

theorem number_of_none {s : RWStore} (h : s.queue.score m = none) :
    s.number m = s.seq.get.getD 0 + 1 := by
  rw [number, h]
  rfl

/-- A queued member needs a queue. -/
theorem present_of_score {s : RWStore} (h : s.queue.score m = some sc) :
    ∃ z d, s.waiters = .present z d ∧ z.score m = some sc := by
  rw [queue] at h
  cases hw : s.waiters with
  | absent =>
      rw [hw] at h
      contradiction
  | present z d =>
      rw [hw] at h
      exact ⟨z, d, rfl, h⟩

theorem queue_present {s : RWStore} (h : s.waiters = .present z d) : s.queue = z := by
  rw [queue, h]
  rfl

/-- While there is a queue there is a counter with the same deadline, and it
has reached every number in the queue. -/
def Numbered (s : RWStore) : Prop :=
  ∀ z d, s.waiters = .present z d →
    ∃ n, s.seq = .present n d ∧ ∀ m sc, z.score m = some sc → sc ≤ n

theorem Numbered.le {s : RWStore} (h : s.Numbered) (hm : s.queue.score m = some sc) :
    sc ≤ s.seq.get.getD 0 := by
  obtain ⟨z, d, hw, hz⟩ := present_of_score hm
  obtain ⟨n, hseq, hle⟩ := h z d hw
  rw [hseq]
  exact hle m sc hz

/-- **A newcomer's number is larger than any in the queue.** -/
theorem Numbered.lt_number {s : RWStore} (h : s.Numbered) (hnew : s.queue.score m = none)
    (hm : s.queue.score m' = some sc) : sc < s.number m := by
  rw [number_of_none hnew]
  exact Nat.lt_succ_of_le (h.le hm)

/-- The queue after joining it: the caller has its number, nothing else
changed. -/
theorem join_waiters (m : String) (now : Int) (s : RWStore) :
    ∃ z d, (s.join m now).waiters = .present z d ∧
      ∀ m', z.score m' = if m' = m then some (s.number m) else s.queue.score m' := by
  cases hm : s.queue.score m with
  | some sc =>
      obtain ⟨z, d, hw, hz⟩ := present_of_score hm
      refine ⟨z, d, ?_, fun m' => ?_⟩
      · rw [join_of_some hm, hw]
      · rw [number_of_some hm, queue_present hw]
        split
        · next heq => rw [heq, hz]
        · rfl
  | none =>
      have hne : s.queue.add m (s.number m) ≠ ∅ := by
        intro he
        have hs := ZSet.score_add_self s.queue m (s.number m)
        rw [he] at hs
        contradiction
      refine ⟨s.queue.add m (s.number m), s.waiters.deadline, ?_, fun m' => ?_⟩
      · rw [join_of_none hm, ← number_of_none hm]
        exact if_neg hne
      · rw [ZSet.score_add]

/-- The counter after joining: it has reached the caller's number as well. -/
theorem Numbered.join_seq {s : RWStore} (h : s.Numbered) (m : String) (now : Int) :
    ∃ n d, (s.join m now).seq = .present n d ∧ s.number m ≤ n ∧
      ∀ m' sc, s.queue.score m' = some sc → sc ≤ n := by
  cases hm : s.queue.score m with
  | some sc =>
      obtain ⟨z, d, hw, hz⟩ := present_of_score hm
      obtain ⟨n, hseq, hle⟩ := h z d hw
      refine ⟨n, d, ?_, ?_, fun m' sc' hm' => ?_⟩
      · rw [join_of_some hm, hseq]
      · rw [number_of_some hm]
        exact hle m sc hz
      · rw [queue_present hw] at hm'
        exact hle m' sc' hm'
  | none =>
      refine ⟨_, s.seq.deadline, ?_, le_of_eq (number_of_none hm), fun m' sc hm' => ?_⟩
      · rw [join_of_none hm, Slot.incr_eq]
      · exact (h.le hm').trans (Nat.le_succ _)

/-- With a timeout that is not positive, the refresh deletes the queue. -/
theorem enter_of_nonpos (t : Int) (m : String) (now : Int) (hwt : wt ≤ 0) (s : RWStore) :
    (s.enter t m now wt).waiters = .absent := Slot.pexpire_of_nonpos t _ hwt

/-- Otherwise the queue has a new deadline, and the caller is in it. -/
theorem enter_waiters (t : Int) (m : String) (now : Int) (hwt : 0 < wt) (s : RWStore) :
    ∃ z, (s.enter t m now wt).waiters = .present z (some (t + wt)) ∧
      ∀ m', z.score m' = if m' = m then some (s.number m) else s.queue.score m' := by
  obtain ⟨z, d, hw, hz⟩ := s.join_waiters m now
  refine ⟨z, ?_, hz⟩
  rw [enter, touch, hw, Slot.pexpire, if_neg (by omega)]

/-- The counter has the same deadline. -/
theorem Numbered.enter_spec {s : RWStore} (h : s.Numbered) (t : Int) (m : String) (now : Int)
    (hwt : 0 < wt) :
    ∃ z n, (s.enter t m now wt).waiters = .present z (some (t + wt)) ∧
      (s.enter t m now wt).seq = .present n (some (t + wt)) ∧
      (∀ m', z.score m' = if m' = m then some (s.number m) else s.queue.score m') ∧
      s.number m ≤ n ∧ ∀ m' sc, s.queue.score m' = some sc → sc ≤ n := by
  obtain ⟨z, hw, hz⟩ := s.enter_waiters t m now hwt
  obtain ⟨n, d, hseq, hle, hle'⟩ := h.join_seq m now
  refine ⟨z, n, hw, ?_, hz, hle, hle'⟩
  rw [enter, touch, hseq, Slot.pexpire, if_neg (by omega)]

theorem Numbered.enter {s : RWStore} (h : s.Numbered) (t : Int) (m : String) (now wt : Int) :
    (s.enter t m now wt).Numbered := by
  intro z d hw
  by_cases hwt : wt ≤ 0
  · rw [enter_of_nonpos t m now hwt] at hw
    contradiction
  · obtain ⟨z', n, hw', hseq, hz, hle, hle'⟩ := h.enter_spec t m now (Int.not_le.mp hwt)
    rw [hw'] at hw
    cases hw
    refine ⟨n, hseq, fun m' sc hm' => ?_⟩
    rw [hz] at hm'
    split at hm'
    · cases hm'
      exact hle
    · exact hle' m' sc hm'

/-- Who is queued after an attempt has entered. -/
theorem score_enter {s : RWStore}
    (hm : (s.enter t m now wt).queue.score m' = some sc) :
    m' = m ∧ sc = s.number m ∨ m' ≠ m ∧ s.queue.score m' = some sc := by
  by_cases hwt : wt ≤ 0
  · rw [queue, enter_of_nonpos t m now hwt] at hm
    contradiction
  · obtain ⟨z, hw, hz⟩ := s.enter_waiters t m now (Int.not_le.mp hwt)
    rw [queue_present hw, hz] at hm
    split at hm
    · next heq => exact .inl ⟨heq, (Option.some.inj hm).symm⟩
    · next hne => exact .inr ⟨hne, hm⟩

/-! ## Everything else only lets entries go -/

/-- Entries may have gone, and with the last one the queue; those that are
left have kept their number, and counter and deadline are what they were. -/
def Shrinks (s s' : RWStore) : Prop :=
  ∀ z' d, s'.waiters = .present z' d → s'.seq = s.seq ∧
    ∃ z, s.waiters = .present z d ∧ ∀ m sc, z'.score m = some sc → z.score m = some sc

theorem shrinks_of_eq {s s' : RWStore} (hw : s'.waiters = s.waiters) (hseq : s'.seq = s.seq) :
    s.Shrinks s' :=
  fun z' _ hz' => ⟨hseq, z', hw ▸ hz', fun _ _ hm => hm⟩

theorem Shrinks.trans {s s' s'' : RWStore} (h : s.Shrinks s') (h' : s'.Shrinks s'') :
    s.Shrinks s'' := by
  intro z'' d hz''
  obtain ⟨hseq', z', hz', hsub'⟩ := h' z'' d hz''
  obtain ⟨hseq, z, hz, hsub⟩ := h z' d hz'
  exact ⟨hseq'.trans hseq, z, hz, fun m sc hm => hsub m sc (hsub' m sc hm)⟩

/-- Entries that are left have kept their number. -/
theorem Shrinks.score {s s' : RWStore} (h : s.Shrinks s') (hm : s'.queue.score m = some sc) :
    s.queue.score m = some sc := by
  obtain ⟨z', d, hw', hz'⟩ := present_of_score hm
  obtain ⟨-, z, hw, hsub⟩ := h z' d hw'
  rw [queue_present hw]
  exact hsub m sc hz'

theorem Numbered.of_shrinks {s s' : RWStore} (h : s.Numbered) (hs : s.Shrinks s') :
    s'.Numbered := by
  intro z' d hz'
  obtain ⟨hseq, z, hz, hsub⟩ := hs z' d hz'
  obtain ⟨n, hn, hle⟩ := h z d hz
  exact ⟨n, hseq.trans hn, fun m sc hm => hle m sc (hsub m sc hm)⟩

theorem shrinks_zremWaiter (m : String) (s : RWStore) : s.Shrinks (s.zremWaiter m) := by
  intro z' d hz'
  obtain ⟨hne, rfl, hd⟩ := Slot.modify_eq_present hz'
  cases hw : s.waiters with
  | absent =>
      rw [hw] at hne
      exact absurd rfl hne
  | present z e =>
      rw [hw, Slot.deadline_present] at hd
      subst hd
      refine ⟨rfl, z, rfl, fun m' sc hm' => ?_⟩
      have hrem : (z.rem m).score m' = some sc := hm'
      rw [ZSet.score_rem] at hrem
      split at hrem
      · contradiction
      · exact hrem

theorem shrinks_leave (m : String) (s : RWStore) : s.Shrinks (s.leave m) := shrinks_zremWaiter m s

theorem shrinks_purge (now wt : Int) (s : RWStore) : s.Shrinks (s.purge now wt) :=
  purgeLoop_induct (P := s.Shrinks) _ (fun s' m h => h.trans (shrinks_leave m s')) _
    (shrinks_of_eq rfl rfl)

/-- Queue and counter expire together. -/
theorem Numbered.shrinks_evict {s : RWStore} (h : s.Numbered) (t : Int) :
    s.Shrinks (s.evict t) := by
  intro z d hw
  have hkeep : s.waiters.evict t = s.waiters :=
    Slot.get_evict_eq_some (Slot.get_eq_some_iff.mpr ⟨d, hw⟩)
  have hwaiters : s.waiters = .present z d := hkeep.symm.trans hw
  obtain ⟨n, hseq, -⟩ := h z d hwaiters
  refine ⟨?_, z, hwaiters, fun _ _ hm => hm⟩
  rw [hwaiters] at hkeep
  rw [RWStore.evict, hseq]
  exact Slot.evict_eq_of_deadline hkeep

end RWStore

/-! ## Attempts -/

/-- A lock attempt as the queue sees it. -/
structure Attempt where
  member : String
  ttl : Int
  now : Int
  waiterTimeout : Int
deriving DecidableEq

namespace RWCmd

/-- The attempt that a command makes. -/
def attempt : RWCmd → Option Attempt
  | readLock token ttl now wt => some ⟨readerMember token, ttl, now, wt⟩
  | writeLock token ttl now wt => some ⟨writerMember token, ttl, now, wt⟩
  | _ => none

/-- The attempt finds its own grant in the keys and returns it. -/
def replays (s : RWStore) : RWCmd → Bool
  | readLock token _ now _ => ownsAt now s.readers token
  | writeLock token _ _ _ => s.writer.get = some token
  | _ => false

/-- The attempt that a command makes in the queue; a replay makes none. -/
def queues (s : RWStore) (c : RWCmd) : Option Attempt := if c.replays s then none else c.attempt

theorem queues_eq_some {s : RWStore} {c : RWCmd} (h : c.queues s = some a) :
    c.replays s = false ∧ c.attempt = some a := by
  rw [queues] at h
  split at h
  · contradiction
  · next hr => exact ⟨by simpa using hr, h⟩

theorem replays_of_queues {s : RWStore} {c : RWCmd} (h : c.queues s = none)
    (ha : c.attempt ≠ none) : c.replays s = true := by
  rw [queues] at h
  split at h
  · next hr => exact hr
  · exact absurd h ha

/-- The store in which an attempt decides. -/
def prepared (t : Int) (s : RWStore) (a : Attempt) : RWStore :=
  s.prepare t a.member a.now a.waiterTimeout

/-- Without queue work a command only lets entries go. -/
theorem run_shrinks {s : RWStore} {c : RWCmd} (h : c.queues s = none) (t : Int) :
    s.Shrinks (c.run t s).1 := by
  cases c with
  | readLock token ttl now wt =>
      have hown : ownsAt now s.readers token = true := replays_of_queues h (by simp [attempt])
      rw [run, rwReadLock, if_pos hown]
      exact RWStore.shrinks_of_eq rfl rfl
  | writeLock token ttl now wt =>
      rw [run, rwWriteLock, if_pos (of_decide_eq_true (replays_of_queues h (by simp [attempt])))]
      exact RWStore.shrinks_of_eq rfl rfl
  | zrem m => exact RWStore.shrinks_zremWaiter m s
  | readerRenew | readerRelease | writerRenew | writerRelease | hdel | expireWriter | sweep =>
      exact RWStore.shrinks_of_eq rfl rfl

/-- An attempt enters the queue; from then on it only lets entries go. -/
theorem run_shrinks_enter {s : RWStore} {c : RWCmd} (h : c.queues s = some a) (t : Int) :
    (s.enter t a.member a.now a.waiterTimeout).Shrinks (c.run t s).1 := by
  obtain ⟨hr, ha⟩ := queues_eq_some h
  have hpurge := RWStore.shrinks_purge a.now a.waiterTimeout
    (s.enter t a.member a.now a.waiterTimeout)
  cases c with
  | readLock token ttl now wt =>
      cases ha
      rcases rwReadLock_cases t token ttl now wt s with ⟨hown, -⟩ | ⟨-, heq⟩ | ⟨-, -, -, heq⟩
      · exact absurd (hown.symm.trans hr) nofun
      · rw [run, heq]
        exact hpurge
      · rw [run, heq]
        exact hpurge.trans (RWStore.shrinks_leave _ _)
  | writeLock token ttl now wt =>
      cases ha
      rcases rwWriteLock_cases t token ttl now wt s with
        ⟨hown, -⟩ | ⟨-, z, r, -, -, heq⟩ | ⟨-, -, -, -, heq⟩
      · exact absurd hown (of_decide_eq_false hr)
      · rw [run, heq]
        exact hpurge
      · rw [run, heq]
        exact hpurge.trans (RWStore.shrinks_leave _ _)
  | readerRenew | readerRelease | writerRenew | writerRelease | zrem | hdel | expireWriter
  | sweep => contradiction

end RWCmd

/-! ## Runs -/

/-- The keys, and what they do not hold: the execution that created the entry
of each member, the timestamp of the last attempt executed for it, and the
number of executions so far. -/
structure Tracked where
  store : RWStore
  born : String → Nat
  last : String → Int
  steps : Nat

namespace Tracked

/-- A command executed at server time `t`. -/
def step (t : Int) (c : RWCmd) (x : Tracked) : Tracked :=
  let s := x.store.evict t
  match c.queues s with
  | none => { x with store := (c.exec t x.store).1, steps := x.steps + 1 }
  | some a =>
      { store := (c.exec t x.store).1
        born := if s.queue.score a.member = none then Function.update x.born a.member x.steps
          else x.born
        last := Function.update x.last a.member a.now
        steps := x.steps + 1 }

@[simp] theorem step_store (t : Int) (c : RWCmd) (x : Tracked) :
    (x.step t c).store = (c.exec t x.store).1 := by
  rw [step]; split <;> rfl

@[simp] theorem step_steps (t : Int) (c : RWCmd) (x : Tracked) :
    (x.step t c).steps = x.steps + 1 := by
  rw [step]; split <;> rfl

/-- A command that makes no attempt creates no entry. -/
theorem step_of_none {x : Tracked} (h : c.queues (x.store.evict t) = none) :
    (x.step t c).born = x.born ∧ (x.step t c).last = x.last := by
  rw [step, h]
  exact ⟨rfl, rfl⟩

theorem step_last {x : Tracked} (h : c.queues (x.store.evict t) = some a) :
    (x.step t c).last = Function.update x.last a.member a.now := by
  rw [step, h]

/-- A retry keeps its entry. -/
theorem step_born_of_some {x : Tracked} (h : c.queues (x.store.evict t) = some a)
    (hm : (x.store.evict t).queue.score a.member = some k) : (x.step t c).born = x.born := by
  rw [step, h]
  exact if_neg (by rw [hm]; nofun)

theorem step_born_of_none {x : Tracked} (h : c.queues (x.store.evict t) = some a)
    (hm : (x.store.evict t).queue.score a.member = none) :
    (x.step t c).born = Function.update x.born a.member x.steps := by
  rw [step, h]
  exact if_pos hm

/-- An unused lock. -/
def Init (x : Tracked) : Prop := x.store = .init

/-- Any command at any time. -/
def Step (x x' : Tracked) : Prop := ∃ t c, x' = x.step t c

end Tracked

/-! ## The queue is in order of arrival -/

/-- The queue is in the order in which its entries were created, all of them
before execution number `steps`. -/
structure InOrder (s : RWStore) (born : String → Nat) (steps : Nat) : Prop where
  numbered : s.Numbered
  born_lt : ∀ m sc, s.queue.score m = some sc → born m < steps
  order : ∀ m m' sc sc', s.queue.score m = some sc → s.queue.score m' = some sc' →
    sc < sc' → born m < born m'
  inj : ∀ m m' sc, s.queue.score m = some sc → s.queue.score m' = some sc → m = m'

namespace InOrder

variable {s : RWStore} {born : String → Nat} {steps : Nat}

/-- Letting entries go keeps the order. -/
theorem of_shrinks (h : InOrder s born steps) (hs : s.Shrinks s') (hle : steps ≤ steps') :
    InOrder s' born steps' where
  numbered := h.numbered.of_shrinks hs
  born_lt m sc hm := (h.born_lt m sc (hs.score hm)).trans_le hle
  order m m' sc sc' hm hm' := h.order m m' sc sc' (hs.score hm) (hs.score hm')
  inj m m' sc hm hm' := h.inj m m' sc (hs.score hm) (hs.score hm')

theorem evict (h : InOrder s born steps) (t : Int) : InOrder (s.evict t) born steps :=
  h.of_shrinks (h.numbered.shrinks_evict t) (le_refl _)

/-- A retry changes nothing about the order. -/
theorem enter_of_some (h : InOrder s born steps) (hm : s.queue.score m = some k)
    (t now wt : Int) : InOrder (s.enter t m now wt) born (steps + 1) := by
  have hold : ∀ {m' sc}, (s.enter t m now wt).queue.score m' = some sc →
      s.queue.score m' = some sc := by
    intro m' sc hm'
    rcases RWStore.score_enter hm' with ⟨rfl, rfl⟩ | ⟨-, hm'⟩
    · rw [hm, RWStore.number_of_some hm]
    · exact hm'
  exact ⟨h.numbered.enter t m now wt,
    fun m' sc hm' => (h.born_lt m' sc (hold hm')).trans (Nat.lt_succ_self _),
    fun m₁ m₂ sc₁ sc₂ h₁ h₂ => h.order m₁ m₂ sc₁ sc₂ (hold h₁) (hold h₂),
    fun m₁ m₂ sc h₁ h₂ => h.inj m₁ m₂ sc (hold h₁) (hold h₂)⟩

/-- A new entry is the youngest and has the largest number. -/
theorem enter_of_none (h : InOrder s born steps) (hm : s.queue.score m = none)
    (t now wt : Int) :
    InOrder (s.enter t m now wt) (Function.update born m steps) (steps + 1) := by
  have hnew : ∀ {m' sc}, s.queue.score m' = some sc → sc < s.number m :=
    fun hm' => h.numbered.lt_number hm hm'
  refine ⟨h.numbered.enter t m now wt, ?_, ?_, ?_⟩
  · intro m' sc hm'
    rcases RWStore.score_enter hm' with ⟨rfl, -⟩ | ⟨hne, hold⟩
    · rw [Function.update_self]
      exact Nat.lt_succ_self _
    · rw [Function.update_of_ne hne]
      exact (h.born_lt m' sc hold).trans (Nat.lt_succ_self _)
  · intro m₁ m₂ sc₁ sc₂ h₁ h₂ hlt
    rcases RWStore.score_enter h₁ with ⟨rfl, rfl⟩ | ⟨hne₁, hold₁⟩ <;>
      rcases RWStore.score_enter h₂ with ⟨rfl, rfl⟩ | ⟨hne₂, hold₂⟩
    · exact absurd hlt (lt_irrefl _)
    · exact absurd hlt (hnew hold₂).asymm
    · rw [Function.update_self, Function.update_of_ne hne₁]
      exact h.born_lt m₁ sc₁ hold₁
    · rw [Function.update_of_ne hne₁, Function.update_of_ne hne₂]
      exact h.order m₁ m₂ sc₁ sc₂ hold₁ hold₂ hlt
  · intro m₁ m₂ sc h₁ h₂
    rcases RWStore.score_enter h₁ with ⟨rfl, rfl⟩ | ⟨-, hold₁⟩ <;>
      rcases RWStore.score_enter h₂ with ⟨rfl, hsc⟩ | ⟨-, hold₂⟩
    · rfl
    · exact absurd (hnew hold₂) (lt_irrefl _)
    · exact absurd (hsc ▸ hnew hold₁) (lt_irrefl _)
    · exact h.inj m₁ m₂ sc hold₁ hold₂

/-- Who is older has the smaller number. -/
theorem score_lt (h : InOrder s born steps) (hm : s.queue.score m = some sc)
    (hm' : s.queue.score m' = some sc') (hlt : born m < born m') : sc < sc' := by
  rcases lt_trichotomy sc sc' with hsc | rfl | hsc
  · exact hsc
  · rw [h.inj m m' sc hm hm'] at hlt
    exact absurd hlt (lt_irrefl _)
  · exact absurd (h.order m' m sc' sc hm' hm hsc) hlt.asymm

end InOrder

namespace Tracked

theorem inOrder_step {x : Tracked} (h : InOrder x.store x.born x.steps) (t : Int) (c : RWCmd) :
    InOrder (x.step t c).store (x.step t c).born (x.step t c).steps := by
  have hevict := h.evict t
  rw [step_store, step_steps]
  cases hq : c.queues (x.store.evict t) with
  | none =>
      rw [(step_of_none hq).1]
      exact hevict.of_shrinks (RWCmd.run_shrinks hq t) (Nat.le_succ _)
  | some a =>
      have hshrinks := RWCmd.run_shrinks_enter hq t
      cases hm : (x.store.evict t).queue.score a.member with
      | some k =>
          rw [step_born_of_some hq hm]
          exact (hevict.enter_of_some hm t _ _).of_shrinks hshrinks (le_refl _)
      | none =>
          rw [step_born_of_none hq hm]
          exact (hevict.enter_of_none hm t _ _).of_shrinks hshrinks (le_refl _)

theorem reach_inOrder {x : Tracked} (h : Reach Init Step x) :
    InOrder x.store x.born x.steps := by
  refine Reach.invariant (I := fun x => InOrder x.store x.born x.steps) ?_ ?_ h
  · intro x hx
    have hempty : ∀ {m sc}, x.store.queue.score m ≠ some sc := by
      rw [hx]
      nofun
    refine ⟨?_, fun m sc hm => absurd hm hempty, fun m _ sc _ hm => absurd hm hempty,
      fun m _ sc hm => absurd hm hempty⟩
    rw [hx]
    nofun
  · rintro x x' - ih ⟨t, c, rfl⟩
    exact inOrder_step ih t c

end Tracked

/-! ## Grants are first come, first served -/

theorem isWriterMember_readerMember (token : String) :
    isWriterMember (readerMember token) = false := by
  simp [isWriterMember, readerMember]

/-- An attempt with an entry ahead of it that it conflicts with is not
granted: a writer with any entry, a reader with a writer's. -/
theorem RWCmd.not_granted {s : RWStore} {c : RWCmd} (hq : c.queues s = some a)
    (hm : (prepared t s a).queue.score m = some sc) (hlt : sc < s.number a.member)
    (hwriter : isWriterMember a.member = true ∨ isWriterMember m = true) (n : Nat) :
    (c.run t s).2 ≠ .int n := by
  obtain ⟨hr, ha⟩ := queues_eq_some hq
  cases c with
  | readLock token ttl now wt =>
      cases ha
      rw [isWriterMember_readerMember] at hwriter
      have hw : isWriterMember m = true := hwriter.resolve_left nofun
      rcases rwReadLock_cases t token ttl now wt s with ⟨hown, -⟩ | ⟨-, heq⟩ | ⟨-, -, hany, heq⟩
      · exact absurd (hown.symm.trans hr) nofun
      · rw [run, heq]
        nofun
      · have hbelow := List.any_eq_false.mp hany m (ZSet.mem_below.mpr ⟨sc, hm, hlt⟩)
        exact absurd hw hbelow
  | writeLock token ttl now wt =>
      cases ha
      rcases rwWriteLock_cases t token ttl now wt s with
        ⟨hown, -⟩ | ⟨-, z, r, -, hr, heq⟩ | ⟨-, -, -, hhead, -⟩
      · exact absurd hown (of_decide_eq_false hr)
      · rw [run, heq]
        rcases hr with rfl | ⟨rfl, -⟩ <;> nofun
      · rcases hhead with hhead | hhead
        · rw [ZSet.head?_eq_none_iff] at hhead
          rw [prepared, hhead] at hm
          contradiction
        · -- the head would be the caller, but its number is larger
          obtain ⟨k, hk, hmin⟩ := ZSet.score_head?_le hhead
          have hk' := (RWStore.shrinks_purge _ _ _).score hk
          rcases RWStore.score_enter hk' with ⟨-, rfl⟩ | ⟨hne, -⟩
          · exact absurd hlt (not_lt.mpr (hmin m sc hm))
          · exact absurd rfl hne
  | readerRenew | readerRelease | writerRenew | writerRelease | zrem | hdel | expireWriter
  | sweep => contradiction

/-- **First come, first served.**  When an attempt executes, every entry older
than the caller's that is still in the queue after the purge blocks it, unless
both are readers.  An entry that stays in the queue keeps its number and its
age, whoever executes what; and a newcomer's number is larger than that of
every entry in the queue. -/
theorem fifo_grants {x : Tracked} (h : Reach Tracked.Init Tracked.Step x) (t : Int) (c : RWCmd) :
    (∀ a m, c.queues (x.store.evict t) = some a →
      (RWCmd.prepared t (x.store.evict t) a).queue.score m ≠ none →
      (x.step t c).born m < (x.step t c).born a.member →
      isWriterMember a.member = true ∨ isWriterMember m = true →
      ∀ n, (c.exec t x.store).2 ≠ .int n) ∧
    (∀ m sc sc', (x.store.evict t).queue.score m = some sc →
      (x.step t c).store.queue.score m = some sc' → sc' = sc ∧ (x.step t c).born m = x.born m) ∧
    (∀ a k, c.queues (x.store.evict t) = some a →
      (x.store.evict t).queue.score a.member = none →
      ((x.store.evict t).join a.member a.now).queue.score a.member = some k →
      ∀ m sc, (x.store.evict t).queue.score m = some sc → sc < k) := by
  have hinv := (Tracked.reach_inOrder h).evict t
  refine ⟨?_, ?_, ?_⟩
  · intro a m hq hm hborn hwriter
    obtain ⟨sc, hsc⟩ := Option.ne_none_iff_exists'.mp hm
    refine RWCmd.not_granted hq hsc ?_ hwriter
    have hne : m ≠ a.member := by
      rintro rfl
      exact absurd hborn (lt_irrefl _)
    rcases RWStore.score_enter ((RWStore.shrinks_purge _ _ _).score hsc) with
      ⟨heq, -⟩ | ⟨-, hold⟩
    · exact absurd heq hne
    · cases hmem : (x.store.evict t).queue.score a.member with
      | some k =>
          rw [Tracked.step_born_of_some hq hmem] at hborn
          rw [RWStore.number_of_some hmem]
          exact hinv.score_lt hold hmem hborn
      | none => exact hinv.numbered.lt_number hmem hold
  · intro m sc sc' hm hm'
    rw [Tracked.step_store] at hm'
    cases hq : c.queues (x.store.evict t) with
    | none =>
        have hold := (RWCmd.run_shrinks hq t).score hm'
        rw [(Tracked.step_of_none hq).1]
        exact ⟨Option.some.inj (hold.symm.trans hm), rfl⟩
    | some a =>
        rcases RWStore.score_enter ((RWCmd.run_shrinks_enter hq t).score hm') with
          ⟨rfl, rfl⟩ | ⟨hne, hold⟩
        · rw [Tracked.step_born_of_some hq hm]
          exact ⟨RWStore.number_of_some hm, rfl⟩
        · refine ⟨Option.some.inj (hold.symm.trans hm), ?_⟩
          cases hmem : (x.store.evict t).queue.score a.member with
          | some k => rw [Tracked.step_born_of_some hq hmem]
          | none => rw [Tracked.step_born_of_none hq hmem, Function.update_of_ne hne]
  · intro a k hq hnew hk m sc hm
    obtain ⟨z, d, hw, hz⟩ := (x.store.evict t).join_waiters a.member a.now
    rw [RWStore.queue_present hw, hz, if_pos rfl] at hk
    cases hk
    exact hinv.numbered.lt_number hnew hm

/-- The lock is free, but the second writer waits for the first. -/
theorem fifo_grants_twoWriters :
    let x := (((⟨.init, fun _ => 0, fun _ => 0, 0⟩ : Tracked).step 0
      (.writeLock "h" 1000 0 2000)).step 10 (.writeLock "y" 1000 10 2000)).step 20
      (.writerRelease "h")
    let c := RWCmd.writeLock "x" 1000 30 2000
    x.store.writer = .absent ∧ ∀ n, (c.exec 30 x.store).2 ≠ .int n := by
  intro x c
  have hinit : Reach Tracked.Init Tracked.Step ⟨.init, fun _ => 0, fun _ => 0, 0⟩ := .init rfl
  have hreach : Reach Tracked.Init Tracked.Step x :=
    ((hinit.step ⟨_, _, rfl⟩).step ⟨_, _, rfl⟩).step ⟨_, _, rfl⟩
  exact ⟨by decide +kernel, (fifo_grants hreach 30 c).1 ⟨"W:x", 1000, 30, 2000⟩ "W:y"
    (by decide +kernel) (by decide +kernel) (by decide +kernel) (by decide +kernel)⟩

end Distsync
