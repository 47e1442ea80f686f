import Distsync.RW.Queue

/-!
# Distsync.RW.Progress

The queue drains: an attempt that finds the lock free is granted when
everything ahead of it has been silent for longer than the waiter timeout.

The purge loop stops at a head without a time stamp.  So this rests on every
entry having one, which the scripts take care of, but `Dequeue` does not: its
two commands are not atomic, and an attempt of the same member executed
between them leaves an entry that nobody can purge.
-/

namespace Distsync

open Redis Trans

namespace RWStore

/-! ## Every entry has its stamp -/

/-- While there is a queue there are stamps with the same deadline, and every
entry has the stamp of the last attempt executed for it. -/
def Stamped (s : RWStore) (last : String → Int) : Prop :=
  ∀ z d, s.waiters = .present z d → z ≠ ∅ ∧
    ∃ f, s.waiterTs = .present f d ∧ ∀ m sc, z.score m = some sc → f.lookup m = some (last m)

theorem Stamped.stamp {s : RWStore} (h : s.Stamped last) (hm : s.queue.score m = some sc) :
    s.stamp m = some (last m) := by
  obtain ⟨z, d, hw, hz⟩ := present_of_score hm
  obtain ⟨-, f, hts, hf⟩ := h z d hw
  rw [RWStore.stamp, hts]
  exact hf m sc hz

theorem Stamped.of_eq {s s' : RWStore} (h : s.Stamped last) (hw : s'.waiters = s.waiters)
    (hts : s'.waiterTs = s.waiterTs) : s'.Stamped last := by
  intro z d hz
  obtain ⟨hne, f, hf, hlast⟩ := h z d (hw ▸ hz)
  exact ⟨hne, f, hts.trans hf, hlast⟩

theorem Stamped.zremWaiter {s : RWStore} (h : s.Stamped last) (m : String) :
    (s.zremWaiter m).Stamped last := by
  intro z' d hz'
  obtain ⟨-, z, hw, hsub⟩ := shrinks_zremWaiter m s z' d hz'
  obtain ⟨hne, rfl, -⟩ := Slot.modify_eq_present hz'
  obtain ⟨-, f, hts, hf⟩ := h z d hw
  exact ⟨hne, f, hts, fun m' sc hm' => hf m' sc (hsub m' sc hm')⟩

/-- Deleting a stamp that belongs to no entry. -/
theorem Stamped.hdelWaiter {s : RWStore} (h : s.Stamped last) (hm : s.queue.score m = none) :
    (s.hdelWaiter m).Stamped last := by
  intro z d hw
  have hwaiters : s.waiters = .present z d := hw
  obtain ⟨hne, f, hts, hf⟩ := h z d hwaiters
  rw [queue_present hwaiters] at hm
  have hkeep : ∀ m' sc, z.score m' = some sc → (f.erase m).lookup m' = some (last m') := by
    intro m' sc hm'
    rw [Finmap.lookup_erase_ne, hf m' sc hm']
    rintro rfl
    rw [hm] at hm'
    contradiction
  refine ⟨hne, f.erase m, ?_, hkeep⟩
  obtain ⟨m', hm'⟩ := not_forall.mp (mt ZSet.eq_empty_iff.mpr hne)
  obtain ⟨sc, hsc⟩ := Option.ne_none_iff_exists'.mp hm'
  have hfne : f.erase m ≠ ∅ := by
    intro he
    have hl := hkeep m' sc hsc
    rw [he] at hl
    contradiction
  rw [RWStore.hdelWaiter, hts]
  exact if_neg hfne

/-- The scripts remove entry and stamp together. -/
theorem Stamped.leave {s : RWStore} (h : s.Stamped last) (m : String) :
    (s.leave m).Stamped last := by
  refine (h.zremWaiter m).hdelWaiter ?_
  rw [queue_zremWaiter, ZSet.score_rem_self]

theorem Stamped.purgeLoop {s : RWStore} (h : s.Stamped last) (limit : Int) (fuel : Nat) :
    (s.purgeLoop limit fuel).Stamped last :=
  purgeLoop_induct (P := fun s => s.Stamped last) limit (fun _ m h => h.leave m) fuel h

/-- Queue and stamps expire together. -/
theorem Stamped.evict {s : RWStore} (h : s.Stamped last) (t : Int) : (s.evict t).Stamped last := by
  intro z d hw
  have hkeep : s.waiters.evict t = s.waiters :=
    Slot.get_evict_eq_some (Slot.get_eq_some_iff.mpr ⟨d, hw⟩)
  have hwaiters : s.waiters = .present z d := hkeep.symm.trans hw
  obtain ⟨hne, f, hts, hf⟩ := h z d hwaiters
  refine ⟨hne, f, ?_, hf⟩
  rw [hwaiters] at hkeep
  rw [RWStore.evict, hts]
  exact Slot.evict_eq_of_deadline hkeep

/-- Joining stamps the caller. -/
theorem join_waiterTs (m : String) (now : Int) (s : RWStore) :
    ∃ d, (s.join m now).waiterTs = .present (s.waiterTs.contents.insert m now) d := by
  have hne : s.waiterTs.contents.insert m now ≠ ∅ := by
    intro he
    have hl := Finmap.lookup_insert (a := m) (b := now) s.waiterTs.contents
    rw [he] at hl
    contradiction
  refine ⟨s.waiterTs.deadline, ?_⟩
  cases hm : s.queue.score m with
  | some sc =>
      rw [join_of_some hm]
      exact if_neg hne
  | none =>
      rw [join_of_none hm]
      exact if_neg hne

theorem enter_waiterTs (t : Int) (m : String) (now : Int) (hwt : 0 < wt) (s : RWStore) :
    (s.enter t m now wt).waiterTs =
      .present (s.waiterTs.contents.insert m now) (some (t + wt)) := by
  obtain ⟨d, hts⟩ := s.join_waiterTs m now
  rw [RWStore.enter, touch, hts, Slot.pexpire, if_neg (by omega)]

theorem Stamped.enter {s : RWStore} (h : s.Stamped last) (t : Int) (m : String) (now wt : Int) :
    (s.enter t m now wt).Stamped (Function.update last m now) := by
  intro z d hz
  by_cases hwt : wt ≤ 0
  · rw [enter_of_nonpos t m now hwt] at hz
    contradiction
  obtain ⟨z', hw, hscore⟩ := s.enter_waiters t m now (Int.not_le.mp hwt)
  cases hw.symm.trans hz
  refine ⟨?_, s.waiterTs.contents.insert m now, s.enter_waiterTs t m now (Int.not_le.mp hwt), ?_⟩
  · intro he
    have hm := hscore m
    rw [he, if_pos rfl] at hm
    contradiction
  · intro m' sc hm'
    rw [hscore] at hm'
    by_cases heq : m' = m
    · rw [heq, Function.update_self, Finmap.lookup_insert]
    · rw [if_neg heq] at hm'
      rw [Function.update_of_ne heq, Finmap.lookup_insert_of_ne _ heq]
      exact h.stamp hm'

/-! ## The purge gets through -/

/-- With every entry stamped, what the purge leaves at the head is recent. -/
theorem Stamped.purgeLoop_head {s : RWStore} (h : s.Stamped last) (limit : Int)
    (hfuel : s.queue.card ≤ fuel) (hhead : (s.purgeLoop limit fuel).queue.head? = some m) :
    limit ≤ last m := by
  induction fuel generalizing s with
  | zero =>
      have hempty : s.queue = ∅ :=
        ZSet.eq_empty_iff.mpr (ZSet.card_eq_zero_iff.mp (Nat.le_zero.mp hfuel))
      rw [RWStore.purgeLoop, hempty] at hhead
      contradiction
  | succ fuel ih =>
      rw [RWStore.purgeLoop] at hhead
      cases hh : s.queue.head? with
      | none =>
          simp only [hh] at hhead
          contradiction
      | some m₀ =>
          obtain ⟨b, hb, -⟩ := ZSet.score_head?_le hh
          simp only [hh, h.stamp hb] at hhead
          by_cases hlt : last m₀ < limit
          · rw [if_pos hlt] at hhead
            refine ih (h.leave m₀) ?_ hhead
            have hcard := ZSet.card_rem_lt hb
            rw [queue_leave]
            omega
          · rw [if_neg hlt, hh] at hhead
            cases hhead
            omega

/-- An entry with a recent stamp survives the purge. -/
theorem purgeLoop_score {s : RWStore} (hm : s.queue.score m = some sc)
    (hts : s.stamp m = some ts) (hlimit : limit ≤ ts) (fuel : Nat) :
    (s.purgeLoop limit fuel).queue.score m = some sc := by
  induction fuel generalizing s with
  | zero => exact hm
  | succ fuel ih =>
      rw [RWStore.purgeLoop]
      cases hh : s.queue.head? with
      | none => exact hm
      | some m₀ =>
          simp only
          cases hts₀ : s.stamp m₀ with
          | none => exact hm
          | some ts₀ =>
              simp only
              by_cases hlt : ts₀ < limit
              · have hne : m ≠ m₀ := by
                  rintro rfl
                  cases hts.symm.trans hts₀
                  omega
                rw [if_pos hlt]
                refine ih ?_ ?_
                · rw [queue_leave, ZSet.score_rem_of_ne _ hne, hm]
                · rw [stamp_leave, Finmap.lookup_erase_ne hne]
                  exact hts
              · rw [if_neg hlt]
                exact hm

/-- So the caller is still queued when a script decides, unless the queue is
gone altogether. -/
theorem prepare_score (t : Int) (m : String) (now : Int) (hwt : 0 < wt) (s : RWStore) :
    (s.prepare t m now wt).queue.score m = some (s.number m) := by
  obtain ⟨z, hw, hz⟩ := s.enter_waiters t m now hwt
  have hscore : (s.enter t m now wt).queue.score m = some (s.number m) := by
    rw [queue_present hw, hz, if_pos rfl]
  have hstamp : (s.enter t m now wt).stamp m = some now := by
    rw [RWStore.stamp, s.enter_waiterTs t m now hwt]
    exact Finmap.lookup_insert _
  exact purgeLoop_score hscore hstamp (by omega) _

theorem prepare_waiters (t : Int) (m : String) (now : Int) (hwt : 0 < wt) (s : RWStore) :
    ∃ z, (s.prepare t m now wt).waiters = .present z (some (t + wt)) ∧
      z.score m = some (s.number m) := by
  obtain ⟨z, d, hw, hz⟩ := present_of_score (s.prepare_score t m now hwt)
  obtain ⟨-, z', hw', -⟩ := shrinks_purge now wt (s.enter t m now wt) z d hw
  obtain ⟨z'', hw'', -⟩ := s.enter_waiters t m now hwt
  cases hw'.symm.trans hw''
  exact ⟨z, hw, hz⟩

theorem prepare_waiters_of_nonpos (t : Int) (m : String) (now : Int) (hwt : wt ≤ 0) (s : RWStore) :
    (s.prepare t m now wt).waiters = .absent := by
  cases hw : (s.prepare t m now wt).waiters with
  | absent => rfl
  | present z d =>
      obtain ⟨-, z', hw', -⟩ := shrinks_purge now wt (s.enter t m now wt) z d hw
      rw [enter_of_nonpos t m now hwt] at hw'
      contradiction

end RWStore

/-! ## Stamps over whole runs -/

namespace RWCmd

/-- The command deletes no stamp of a queued member. -/
def Clean (s : RWStore) (c : RWCmd) : Prop := ∀ m, c = .hdel m → s.queue.score m = none

theorem run_stamped {s : RWStore} (h : s.Stamped last) {c : RWCmd} (hq : c.queues s = none)
    (hclean : c.Clean s) (t : Int) : (c.run t s).1.Stamped last := by
  cases c with
  | readLock token ttl now wt =>
      have hown : ownsAt now s.readers token = true := replays_of_queues hq (by simp [attempt])
      rw [run, rwReadLock, if_pos hown]
      exact h
  | writeLock token ttl now wt =>
      rw [run, rwWriteLock, if_pos (of_decide_eq_true (replays_of_queues hq (by simp [attempt])))]
      exact h
  | zrem m => exact h.zremWaiter m
  | hdel m => exact h.hdelWaiter (hclean m rfl)
  | readerRenew | readerRelease | writerRenew | writerRelease | expireWriter | sweep =>
      exact h.of_eq rfl rfl

theorem run_stamped_attempt {s : RWStore} (h : s.Stamped last) {c : RWCmd}
    (hq : c.queues s = some a) (t : Int) :
    (c.run t s).1.Stamped (Function.update last a.member a.now) := by
  obtain ⟨hr, ha⟩ := queues_eq_some hq
  have hprep : (prepared t s a).Stamped (Function.update last a.member a.now) :=
    (h.enter t a.member a.now a.waiterTimeout).purgeLoop _ _
  cases c with
  | readLock token ttl now wt =>
      cases ha
      rcases rwReadLock_cases t token ttl now wt s with ⟨hown, -⟩ | ⟨-, heq⟩ | ⟨-, -, -, heq⟩
      · exact absurd (hown.symm.trans hr) nofun
      · rw [run, heq]
        exact hprep
      · rw [run, heq]
        exact (hprep.leave _).of_eq rfl rfl
  | writeLock token ttl now wt =>
      cases ha
      rcases rwWriteLock_cases t token ttl now wt s with
        ⟨hown, -⟩ | ⟨-, z, r, -, -, heq⟩ | ⟨-, -, -, -, heq⟩
      · exact absurd hown (of_decide_eq_false hr)
      · rw [run, heq]
        exact hprep.of_eq rfl rfl
      · rw [run, heq]
        exact (hprep.leave _).of_eq rfl rfl
  | readerRenew | readerRelease | writerRenew | writerRelease | zrem | hdel | expireWriter
  | sweep => contradiction

end RWCmd

/-- Any command that deletes no stamp of a queued member. -/
def Tracked.CleanStep (x x' : Tracked) : Prop :=
  ∃ t c, c.Clean (x.store.evict t) ∧ x' = x.step t c

theorem Tracked.reach_of_clean {x : Tracked} (h : Reach Init CleanStep x) : Reach Init Step x :=
  h.mono fun _ _ ⟨t, c, _, heq⟩ => ⟨t, c, heq⟩

theorem Tracked.reach_stamped {x : Tracked} (h : Reach Init CleanStep x) :
    x.store.Stamped x.last := by
  refine Reach.invariant (I := fun x => x.store.Stamped x.last) ?_ ?_ h
  · intro x hx
    rw [hx]
    nofun
  · rintro x x' - ih ⟨t, c, hclean, rfl⟩
    have hevict := ih.evict t
    rw [step_store]
    cases hq : c.queues (x.store.evict t) with
    | none =>
        rw [(step_of_none hq).2]
        exact RWCmd.run_stamped hevict hq hclean t
    | some a =>
        rw [step_last hq]
        exact RWCmd.run_stamped_attempt hevict hq t

/-! ## Progress -/

/-- With everything ahead silent for too long, the purge leaves nothing ahead
of the caller. -/
theorem number_le_of_silent {s : RWStore} (hs : s.Stamped last)
    (hahead : ∀ m sc, s.queue.score m = some sc → sc < s.number a.member →
      last m < a.now - a.waiterTimeout)
    (hm : (RWCmd.prepared t s a).queue.score m = some sc) : s.number a.member ≤ sc := by
  by_contra hlt
  have hent := hs.enter t a.member a.now a.waiterTimeout
  cases hh : (RWCmd.prepared t s a).queue.head? with
  | none =>
      rw [ZSet.head?_eq_none_iff] at hh
      rw [hh] at hm
      contradiction
  | some m₀ =>
      -- the head would be ahead of the caller, and recent
      obtain ⟨b, hb, hmin⟩ := ZSet.score_head?_le hh
      have hble := hmin m sc hm
      have hrecent := hent.purgeLoop_head _ (le_refl _) hh
      rcases RWStore.score_enter ((RWStore.shrinks_purge _ _ _).score hb) with ⟨-, rfl⟩ | ⟨hne, hold⟩
      · omega
      · have hsilent := hahead m₀ b hold (by omega)
        rw [Function.update_of_ne hne] at hrecent
        omega

/-- So the caller is at the head, if there is a queue at all. -/
theorem head_of_silent {s : RWStore} (hn : s.Numbered)
    (hinj : ∀ m m' sc, s.queue.score m = some sc → s.queue.score m' = some sc → m = m')
    (hs : s.Stamped last)
    (hahead : ∀ m sc, s.queue.score m = some sc → sc < s.number a.member →
      last m < a.now - a.waiterTimeout) :
    (RWCmd.prepared t s a).queue.head? = none ∨
      (RWCmd.prepared t s a).queue.head? = some a.member := by
  by_cases hwt : a.waiterTimeout ≤ 0
  · refine .inl (ZSet.head?_eq_none_iff.mpr (ZSet.eq_empty_iff.mpr fun m => ?_))
    by_contra hm
    obtain ⟨sc, hsc⟩ := Option.ne_none_iff_exists'.mp hm
    have hent : (s.enter t a.member a.now a.waiterTimeout).queue.score m = some sc :=
      (RWStore.shrinks_purge _ _ _).score hsc
    rw [RWStore.queue, RWStore.enter_of_nonpos t _ _ hwt] at hent
    contradiction
  · have hkept : (RWCmd.prepared t s a).queue.score a.member = some (s.number a.member) :=
      s.prepare_score t a.member a.now (Int.not_le.mp hwt)
    refine .inr (ZSet.head?_eq_of_lt hkept fun m sc hm hne => ?_)
    refine lt_of_le_of_ne (number_le_of_silent hs hahead hm) ?_
    rintro rfl
    rcases RWStore.score_enter ((RWStore.shrinks_purge _ _ _).score hm) with ⟨heq, -⟩ | ⟨-, hold⟩
    · exact hne heq
    · cases hmem : s.queue.score a.member with
      | some k =>
          rw [RWStore.number_of_some hmem] at hold
          exact hne (hinj m a.member k hold hmem)
      | none => exact absurd (hn.lt_number hmem hold) (lt_irrefl _)

/-- Everything ahead of the attempt has been silent for longer than its waiter
timeout. -/
def Tracked.SilentAhead (x : Tracked) (t : Int) (a : Attempt) : Prop :=
  ∀ m sc, (x.store.evict t).queue.score m = some sc → sc < (x.store.evict t).number a.member →
    x.last m < a.now - a.waiterTimeout

theorem Tracked.silentAhead_iff {x : Tracked} : x.SilentAhead t a ↔
    ∀ m ∈ (x.store.evict t).queue.below ((x.store.evict t).number a.member),
      x.last m < a.now - a.waiterTimeout := by
  constructor
  · intro h m hm
    obtain ⟨sc, hsc, hlt⟩ := ZSet.mem_below.mp hm
    exact h m sc hsc hlt
  · intro h m sc hsc hlt
    exact h m (ZSet.mem_below.mpr ⟨sc, hsc, hlt⟩)

instance (x : Tracked) (t : Int) (a : Attempt) : Decidable (x.SilentAhead t a) :=
  decidable_of_iff _ Tracked.silentAhead_iff.symm

/-- **The queue does not wedge**: as long as no stamp of a queued member is
deleted, every entry has the stamp of its last attempt, and an attempt that
finds no writer and no live reader is granted when every entry ahead of it
made its last attempt more than the waiter timeout ago. -/
theorem granted_of_silent {x : Tracked} (h : Reach Tracked.Init Tracked.CleanStep x) :
    (∀ m sc, x.store.queue.score m = some sc → x.store.stamp m = some (x.last m)) ∧
    ∀ t c a, RWCmd.attempt c = some a → 0 < a.ttl → (x.store.evict t).writer = .absent →
      (∀ m sc, x.store.readers.score m = some sc → sc ≤ a.now) → x.SilentAhead t a →
      ∃ n, (c.exec t x.store).2 = .int n := by
  refine ⟨fun m sc hm => (Tracked.reach_stamped h).stamp hm, ?_⟩
  intro t c a ha httl hw hr hahead
  have hinv := (Tracked.reach_inOrder (Tracked.reach_of_clean h)).evict t
  have hs := (Tracked.reach_stamped h).evict t
  cases c with
  | readLock token ttl now wt =>
      cases ha
      refine ⟨1, rwReadLock_granted t token ttl now wt hw ?_⟩
      refine List.any_eq_false.mpr fun m hm => ?_
      -- not even an entry that is not a writer's is left ahead
      obtain ⟨sc, hsc, hlt⟩ := ZSet.mem_below.mp hm
      exact absurd hlt (not_lt.mpr (number_le_of_silent hs hahead hsc))
  | writeLock token ttl now wt =>
      cases ha
      have hfree : (x.store.evict t).readers.remUpTo now = ∅ := by
        refine ZSet.eq_empty_iff.mpr fun m => ?_
        rw [ZSet.score_remUpTo]
        refine Option.filter_eq_none_iff.mpr fun sc hsc => ?_
        have := hr m sc hsc
        simpa using this
      exact ⟨_, rwWriteLock_granted t token now wt hw hfree httl
        (head_of_silent (a := ⟨writerMember token, ttl, now, wt⟩) hinv.numbered hinv.inj hs
          hahead)⟩
  | readerRenew | readerRelease | writerRenew | writerRelease | zrem | hdel | expireWriter
  | sweep => contradiction

/-- A writer that died at the head of the queue is purged after its silence. -/
theorem granted_of_silent_deadWriter :
    let x := ((((⟨.init, fun _ => 0, fun _ => 0, 0⟩ : Tracked).step 0
      (.writeLock "h" 1000 0 2000)).step 10 (.writeLock "y" 1000 10 2000)).step 20
      (.writerRelease "h")).step 1500 (.writeLock "x" 1000 1500 2000)
    let c := RWCmd.writeLock "x" 1000 2100 2000
    x.store.queue.head? = some "W:y" ∧ ∃ n, (c.exec 2100 x.store).2 = .int n := by
  intro x c
  have hinit : Reach Tracked.Init Tracked.CleanStep ⟨.init, fun _ => 0, fun _ => 0, 0⟩ := .init rfl
  have hreach : Reach Tracked.Init Tracked.CleanStep x := by
    refine (((hinit.step ⟨_, _, ?_, rfl⟩).step ⟨_, _, ?_, rfl⟩).step ⟨_, _, ?_, rfl⟩).step
      ⟨_, _, ?_, rfl⟩
    all_goals nofun
  refine ⟨by decide +kernel, (granted_of_silent hreach).2 2100 c ⟨"W:x", 1000, 2100, 2000⟩ rfl
    (by decide) (by decide +kernel) ?_ (by decide +kernel)⟩
  have hnone : x.store.readers = ∅ := by decide +kernel
  rw [hnone]
  nofun

/-- **Dequeue can wedge the queue**: an attempt of `y` is executed once more
between the `ZREM` and the `HDEL` of its `Dequeue`.  The entry it leaves has
no stamp, so `x` is refused although the lock is free and `y` has been silent
for longer than the waiter timeout. -/
theorem dequeue_race_wedges :
    let x := (((((((⟨.init, fun _ => 0, fun _ => 0, 0⟩ : Tracked).step 0
      (.writeLock "h" 1000 0 2000)).step 10 (.writeLock "y" 1000 10 2000)).step 20
      (.zrem "W:y")).step 30 (.writeLock "y" 1000 10 2000)).step 40 (.hdel "W:y")).step 50
      (.writerRelease "h")).step 1500 (.writeLock "x" 1000 1500 2000)
    Reach Tracked.Init Tracked.Step x ∧
    ∃ (t : Int) (c : RWCmd) (a : Attempt), c.attempt = some a ∧ 0 < a.ttl ∧
      (x.store.evict t).writer = .absent ∧ x.store.readers = ∅ ∧ x.SilentAhead t a ∧
      x.store.queue.score "W:y" ≠ none ∧ x.store.stamp "W:y" = none ∧
      (c.exec t x.store).2 = .nil := by
  intro x
  have hinit : Reach Tracked.Init Tracked.Step ⟨.init, fun _ => 0, fun _ => 0, 0⟩ := .init rfl
  have hreach : Reach Tracked.Init Tracked.Step x :=
    ((((((hinit.step ⟨_, _, rfl⟩).step ⟨_, _, rfl⟩).step ⟨_, _, rfl⟩).step ⟨_, _, rfl⟩).step
      ⟨_, _, rfl⟩).step ⟨_, _, rfl⟩).step ⟨_, _, rfl⟩
  exact ⟨hreach, 2100, .writeLock "x" 1000 2100 2000, ⟨"W:x", 1000, 2100, 2000⟩, rfl, by decide,
    by decide +kernel, by decide +kernel, by decide +kernel, by decide +kernel, by decide +kernel,
    by decide +kernel⟩

end Distsync
