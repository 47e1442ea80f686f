import Distsync.RWMutex

/-!
# Distsync.RWMutex.Canceled

What a call that gives up leaves in the queue, for every sequence of attempt
outcomes.  A contender enters the queue with a refused attempt and leaves it
with a grant or with `Dequeue`; nobody else brings it in (`Absent.run_others`)
and, its token being fresh, no attempt finds it a holder.  So the entry stays
behind when the context ends the call inside an attempt that was refused, or
that comes after a refused one (`Call.Abandons`), and only then.
-/

namespace Distsync

open Redis

/-! ## Commands of others -/

/-- What every foreign command keeps is kept by all of them. -/
theorem Others.run_induct {P : RWStore → Prop} (e : Others c)
    (hstep : ∀ t cmd s, c.Foreign cmd → P s → P (RWCmd.exec t cmd s).1) {s : RWStore} (h : P s) :
    P (e.run s) := by
  obtain ⟨cmds, hforeign⟩ := e
  induction cmds generalizing s with
  | nil => exact h
  | cons x xs ih =>
      exact ih (hstep x.1 x.2 s (hforeign x List.mem_cons_self) h)
        fun y hy => hforeign y (List.mem_cons_of_mem _ hy)

theorem RWStore.score_evict_none {s : RWStore} (h : s.queue.score m = none) (t : Int) :
    (s.evict t).queue.score m = none := by
  rcases Slot.evict_eq t s.waiters with heq | heq <;> rw [RWStore.queue, RWStore.evict, heq]
  · exact h
  · rfl

namespace Contender

/-- The contender is not in the queue. -/
def Absent (c : Contender) (s : RWStore) : Prop := s.queue.score c.member = none

/-- The contender's token is stored as a grant. -/
def Holds (c : Contender) (s : RWStore) : Prop :=
  match c.role with
  | .reader => s.readers.score c.id ≠ none
  | .writer => s.writer.get = some c.id

/-- Only its own attempts bring a contender into the queue. -/
theorem Absent.exec_foreign {c : Contender} (h : c.Absent s) (hf : c.Foreign cmd) (t : Int) :
    c.Absent (cmd.exec t s).1 := by
  have hevict := RWStore.score_evict_none h t
  by_contra hm
  obtain ⟨sc, hsc⟩ := Option.ne_none_iff_exists'.mp hm
  cases hq : cmd.queues (s.evict t) with
  | none =>
      have hold := (RWCmd.run_shrinks hq t).score hsc
      rw [hevict] at hold
      contradiction
  | some a =>
      rcases RWStore.score_enter ((RWCmd.run_shrinks_enter hq t).score hsc) with
        ⟨heq, -⟩ | ⟨-, hold⟩
      · exact hf a (RWCmd.queues_eq_some hq).2 heq.symm
      · rw [hevict] at hold
        contradiction

theorem absent_of_leave {c : Contender} {s s' : RWStore}
    (h : s'.waiters = (s.leave c.member).waiters) : c.Absent s' := by
  have hgone := ZSet.score_rem_self s.queue c.member
  rw [← RWStore.queue_leave, RWStore.queue, ← h] at hgone
  exact hgone

theorem Absent.run_others {c : Contender} (h : c.Absent s) (e : Others c) : c.Absent (e.run s) :=
  e.run_induct (P := c.Absent) (fun t _ _ hf h => h.exec_foreign hf t) h

end Contender

/-- Only a reader's own attempt adds its token. -/
theorem readers_exec_none {s : RWStore} (h : s.readers.score token = none)
    (hf : ∀ ttl now wt, cmd ≠ .readLock token ttl now wt) (t : Int) :
    (RWCmd.exec t cmd s).1.readers.score token = none := by
  cases cmd with
  | readLock token' ttl now wt =>
      have hne : token ≠ token' := by
        rintro rfl
        exact hf ttl now wt rfl
      exact (rwReadLock_score_of_ne t ttl now wt (s.evict t) hne).trans h
  | writeLock token' ttl now wt =>
      rw [RWCmd.exec, RWCmd.run]
      rcases rwWriteLock_readers t token' ttl now wt (s.evict t) with heq | heq <;> rw [heq]
      · exact h
      · exact remUpTo_score_none now h
  | readerRenew now ttl tokens => exact semRenew_score_none now ttl tokens h
  | readerRelease tokens =>
      rw [RWCmd.exec, RWCmd.run, semRelease_fst, ZSet.score_remAll]
      split
      · rfl
      · exact h
  | writerRenew | writerRelease | zrem | hdel | expireWriter | sweep => exact h

/-- Only a writer's own attempt sets its token. -/
theorem writer_exec_ne {s : RWStore} (h : s.writer.get ≠ some token)
    (hf : ∀ ttl now wt, cmd ≠ .writeLock token ttl now wt) (t : Int) :
    (RWCmd.exec t cmd s).1.writer.get ≠ some token := by
  have hevict := RWStore.writer_evict_ne h t
  cases cmd with
  | readLock token' ttl now wt =>
      rw [RWCmd.exec, RWCmd.run, (rwReadLock_writer ..).1]
      exact hevict
  | writeLock token' ttl now wt =>
      rw [RWCmd.exec, RWCmd.run]
      rcases rwWriteLock_cases t token' ttl now wt (s.evict t) with
        ⟨-, heq⟩ | ⟨-, z, r, -, -, heq⟩ | ⟨-, -, -, -, heq⟩ <;> rw [heq]
      · exact hevict
      · rw [RWStore.prepare_writer]
        exact hevict
      · intro he
        cases he
        exact hf ttl now wt rfl
  | writerRenew token' ttl =>
      rw [RWCmd.exec, RWCmd.run]
      rcases singleRenew_cases t token' ttl (s.evict t).writer with ⟨-, heq⟩ | ⟨-, heq⟩ <;>
        rw [heq]
      · by_cases httl : ttl ≤ 0
        · simp [Slot.pexpire_of_nonpos t _ httl]
        · rw [Slot.get_pexpire t _ (Int.not_le.mp httl)]
          exact hevict
      · exact hevict
  | writerRelease token' =>
      rw [RWCmd.exec, RWCmd.run]
      rcases singleRelease_cases token' (s.evict t).writer with ⟨-, heq⟩ | ⟨-, heq⟩ <;> rw [heq]
      · simp
      · exact hevict
  | readerRenew | readerRelease | zrem | hdel | sweep => exact hevict
  | expireWriter => simp [RWCmd.exec, RWCmd.run]

namespace Contender

/-- Only its own attempts make a contender a holder. -/
theorem not_holds_exec_foreign {c : Contender} (h : ¬c.Holds s) (hf : c.Foreign cmd) (t : Int) :
    ¬c.Holds (cmd.exec t s).1 := by
  obtain ⟨role, id, ttl⟩ := c
  cases role with
  | reader =>
      refine not_not.mpr (readers_exec_none (not_not.mp h) ?_ t)
      rintro ttl' now wt rfl
      exact hf _ rfl rfl
  | writer =>
      refine writer_exec_ne h ?_ t
      rintro ttl' now wt rfl
      exact hf _ rfl rfl

theorem not_holds_run_others {c : Contender} (h : ¬c.Holds s) (e : Others c) :
    ¬c.Holds (e.run s) :=
  e.run_induct (P := fun s => ¬c.Holds s) (fun t _ _ hf h => not_holds_exec_foreign h hf t) h

/-! ## One attempt -/

/-- An attempt of a contender that holds nothing is refused and leaves the
queue as it was prepared, or is granted and leaves the queue.  While somebody
else holds the writer key, it is refused. -/
theorem exec_lockCmd {c : Contender} (h : ¬c.Holds s) (t start : Int) :
    let x := (c.lockCmd start).exec t s
    (x.2.isInt = false ∧ (x.2 = .nil ∨ (s.evict t).writer = .absent) ∧
      x.1.waiters = (RWCmd.prepared t (s.evict t) (c.attempt start)).waiters ∧
      x.1.writer = (s.evict t).writer ∧ ¬c.Holds x.1) ∨
    (x.2.isInt = true ∧ (s.evict t).writer = .absent ∧ c.Absent x.1) := by
  obtain ⟨role, id, ttl⟩ := c
  intro x
  cases role with
  | reader =>
      have hnone : s.readers.score id = none := not_not.mp h
      rcases rwReadLock_cases t id (milliseconds ttl) (unixMilli start) (waiterTimeout ttl)
          (s.evict t) with ⟨hown, -⟩ | ⟨-, heq⟩ | ⟨-, hfree, -, heq⟩
      · obtain ⟨sc, hsc, -⟩ := ownsAt_iff.mp hown
        cases hnone.symm.trans hsc
      · have hx : x = _ := heq
        rw [hx]
        refine .inl ⟨rfl, .inl rfl, rfl, RWStore.prepare_writer .., not_not.mpr ?_⟩
        rw [RWStore.prepare_readers]
        exact hnone
      · have hx : x = _ := heq
        rw [hx]
        exact .inr ⟨rfl, hfree, absent_of_leave rfl⟩
  | writer =>
      have hne : (s.evict t).writer.get ≠ some id := RWStore.writer_evict_ne h t
      rcases rwWriteLock_cases t id (milliseconds ttl) (unixMilli start) (waiterTimeout ttl)
          (s.evict t) with ⟨hown, -⟩ | ⟨-, z, r, -, hr, heq⟩ | ⟨hfree, -, -, -, heq⟩
      · exact absurd hown hne
      · have hx : x = _ := heq
        rw [hx]
        refine .inl ⟨?_, hr.imp_right And.right, rfl, RWStore.prepare_writer .., ?_⟩
        · rcases hr with rfl | ⟨rfl, -⟩ <;> rfl
        · intro hold
          rw [Holds, RWStore.prepare_writer] at hold
          exact hne hold
      · have hx : x = _ := heq
        rw [hx]
        exact .inr ⟨rfl, hfree, absent_of_leave rfl⟩

theorem absent_of_prepared {c : Contender} {s s' : RWStore}
    (hw : s'.waiters = (RWCmd.prepared t s (c.attempt start)).waiters)
    (hwt : waiterTimeout c.ttl ≤ 0) : c.Absent s' := by
  have hnone : s'.waiters = .absent :=
    hw.trans (RWStore.prepare_waiters_of_nonpos t c.member _ hwt s)
  rw [Absent, RWStore.queue, hnone]
  rfl

/-- A refused contender is in the queue, for as long as the waiter timeout. -/
theorem not_absent_of_prepared {c : Contender} {s s' : RWStore}
    (hw : s'.waiters = (RWCmd.prepared t s (c.attempt start)).waiters)
    (hwt : 0 < waiterTimeout c.ttl) (ht : t' ≤ t + waiterTimeout c.ttl) :
    ¬c.Absent (s'.evict t') := by
  obtain ⟨z, hz, hscore⟩ := s.prepare_waiters t c.member (unixMilli start) hwt
  have hkeep : (s'.evict t').waiters = .present z (some (t + waiterTimeout c.ttl)) := by
    rw [RWStore.evict, hw]
    exact (congrArg (Slot.evict t') hz).trans (if_neg (by omega))
  simp [Absent, RWStore.queue_present hkeep, hscore]

/-- An attempt ended by the context before the server executed it changes
nothing; one that was executed is refused or not; any other one ends the call
with a guard or with an error that is not the context's. -/
theorem tryAcquire_cases {c : Contender} {r : Round c} (h : c.tryAcquire r s = (s', o)) :
    (s' = r.before.run s ∧ (o = .unsent ∨ o = .inFlight none)) ∨
    (∃ t, s' = ((c.lockCmd r.start).exec t (r.before.run s)).1 ∧
      (o = .inFlight (some ((c.lockCmd r.start).exec t (r.before.run s)).2.isInt) ∨
        o = .busy ∧ ((c.lockCmd r.start).exec t (r.before.run s)).2.isInt = false)) ∨
    (o.result ≠ .errContext ∧ o.result ≠ .errNotAcquired) := by
  rw [tryAcquire] at h
  cases hd : r.delivery with
  | unsent =>
      simp only [hd] at h
      cases h
      exact .inl ⟨rfl, .inl rfl⟩
  | inFlight executed =>
      cases executed with
      | none =>
          simp only [hd] at h
          cases h
          exact .inl ⟨rfl, .inr rfl⟩
      | some t =>
          simp only [hd] at h
          cases h
          exact .inr (.inl ⟨t, rfl, .inl rfl⟩)
  | lost executed =>
      refine .inr (.inr ?_)
      cases executed <;> simp only [hd] at h <;> cases h <;> simp [Outcome.result]
  | answered t back =>
      simp only [hd] at h
      cases hr : ((c.lockCmd r.start).exec t (r.before.run s)).2 with
      | nil =>
          rw [hr] at h
          cases h
          exact .inr (.inl ⟨t, rfl, .inr ⟨rfl, by rw [hr]; rfl⟩⟩)
      | err =>
          rw [hr] at h
          cases h
          exact .inr (.inr (by decide))
      | int n =>
          rw [hr, acquireResult] at h
          refine .inr (.inr ?_)
          by_cases hlate : back < requestExpiry r.start c.ttl
          · rw [if_pos hlate] at h
            cases h
            simp [Outcome.result]
          · rw [if_neg hlate] at h
            cases hrel : r.releaseAt <;> simp only [hrel, discardLateGrant] at h <;> cases h <;>
              decide

/-! ## Waiting -/

/-- `k` refused attempts lead from `s` to `s'`. -/
inductive Waits (c : Contender) : Nat → RWStore → RWStore → Prop
  | zero : Waits c 0 s s
  | succ {r : Round c} (hr : c.tryAcquire r s = (s', .busy)) (h : Waits c k s' s'') :
      Waits c (k + 1) s s''

/-- A refused attempt, for a contender that holds nothing. -/
theorem refused {c : Contender} {r : Round c} (hr : c.tryAcquire r s = (s', .busy))
    (hs : ¬c.Holds s) :
    ¬c.Holds s' ∧ ∃ t s₁, s'.waiters = (RWCmd.prepared t s₁ (c.attempt r.start)).waiters := by
  rcases tryAcquire_cases hr with ⟨-, ho | ho⟩ | ⟨t, rfl, ho | ⟨-, hint⟩⟩ | ho <;>
    try contradiction
  rcases exec_lockCmd (not_holds_run_others hs r.before) t r.start with
    ⟨-, -, hw, -, hnot⟩ | ⟨hint', -⟩
  · exact ⟨hnot, t, _, hw⟩
  · rw [hint] at hint'
    contradiction

theorem Waits.not_holds {c : Contender} (h : c.Waits k s s') (hs : ¬c.Holds s) : ¬c.Holds s' := by
  induction h with
  | zero => exact hs
  | succ hr _ ih => exact ih (refused hr hs).1

/-- With a TTL so short that the waiter timeout is zero, there is no queue to
wait in. -/
theorem Waits.absent {c : Contender} (h : c.Waits k s s') (hs : ¬c.Holds s) (ha : c.Absent s)
    (hwt : waiterTimeout c.ttl ≤ 0) : c.Absent s' := by
  induction h with
  | zero => exact ha
  | succ hr _ ih =>
      obtain ⟨hnot, t, s₁, hw⟩ := refused hr hs
      exact ih hnot (absent_of_prepared hw hwt)

/-! ## The ends of a call -/

/-- `Dequeue` takes the contender out of the queue. -/
theorem absent_dequeue {c : Contender} (d : Dequeue c) (s : RWStore) : c.Absent (d.run s) := by
  have hzrem : c.Absent (RWCmd.exec d.zremAt (.zrem c.member) (d.before.run s)).1 := by
    have hgone := ZSet.score_rem_self ((d.before.run s).evict d.zremAt).queue c.member
    rw [← RWStore.queue_zremWaiter] at hgone
    exact hgone
  have hhdel := RWStore.score_evict_none (hzrem.run_others d.between) d.hdelAt
  exact hhdel

/-- How a call ends, from the last attempt on. -/
inductive Ends (c : Contender) (s : RWStore) : Outcome → CallResult → RWStore → Prop
  | attempt {r : Round c} (hr : c.tryAcquire r s = (s', o)) (ho : o ≠ .busy) :
      Ends c s o o.result s'
  | dequeue {r : Round c} (hr : c.tryAcquire r s = (s', .busy)) (res : CallResult) :
      Ends c s .busy res (r.dequeue.run s')

/-- Anything but a refused attempt ends the call. -/
theorem acquireOnce_of_ne {c : Contender} {r : Round c} (hr : c.tryAcquire r s = (s', o))
    (ho : o ≠ .busy) (rs : List (Round c)) :
    c.acquireOnce (r :: rs) s = (s', [o], some o.result) := by
  rw [acquireOnce, hr]
  cases o with
  | busy => exact absurd rfl ho
  | granted | late | failed | unsent | inFlight | lost => rfl

theorem acquireLoop_of_ne {c : Contender} {r : Round c} (hr : c.tryAcquire r s = (s', o))
    (ho : o ≠ .busy) (rs : List (Round c)) :
    c.acquireLoop (r :: rs) s = (s', [o], some o.result) := by
  rw [acquireLoop, hr]
  cases o with
  | busy => exact absurd rfl ho
  | granted | late | failed | unsent | inFlight | lost => rfl

/-- A refused attempt followed by the timer is repeated. -/
theorem acquireLoop_of_elapsed {c : Contender} {r : Round c} {rs : List (Round c)}
    (hr : c.tryAcquire r s = (s', .busy)) (hp : r.pause = .elapsed)
    (hrs : c.acquireLoop rs s' = (s'', os, res)) :
    c.acquireLoop (r :: rs) s = (s'', .busy :: os, res) := by
  rw [acquireLoop, hr]
  simp only [hp, hrs]

theorem acquireOnce_returned {c : Contender} {rs : List (Round c)}
    (h : c.acquireOnce rs s = (s', os, some res)) : ∃ o, os = [o] ∧ c.Ends s o res s' := by
  cases rs with
  | nil => cases h
  | cons r rs =>
      rcases hr : c.tryAcquire r s with ⟨s₁, o⟩
      by_cases ho : o = .busy
      · subst ho
        rw [acquireOnce, hr] at h
        cases h
        exact ⟨_, rfl, .dequeue hr _⟩
      · rw [acquireOnce_of_ne hr ho] at h
        cases h
        exact ⟨o, rfl, .attempt hr ho⟩

theorem acquireLoop_returned {c : Contender} {rs : List (Round c)}
    (h : c.acquireLoop rs s = (s', os, some res)) :
    ∃ k s₀ o, os = List.replicate k .busy ++ [o] ∧ c.Waits k s s₀ ∧ c.Ends s₀ o res s' := by
  induction rs generalizing s os with
  | nil => cases h
  | cons r rs ih =>
      rcases hr : c.tryAcquire r s with ⟨s₁, o⟩
      by_cases ho : o = .busy
      · subst ho
        cases hp : r.pause with
        | err | done =>
            rw [acquireLoop, hr] at h
            simp only [hp] at h
            cases h
            exact ⟨0, s, .busy, rfl, .zero, .dequeue hr _⟩
        | elapsed =>
            rcases hx : c.acquireLoop rs s₁ with ⟨s₂, os₂, res₂⟩
            rw [acquireLoop_of_elapsed hr hp hx] at h
            cases h
            obtain ⟨k, s₀, o, rfl, hw, he⟩ := ih hx
            exact ⟨k + 1, s₀, o, rfl, .succ hr hw, he⟩
      · rw [acquireLoop_of_ne hr ho] at h
        cases h
        exact ⟨0, s, o, rfl, .zero, .attempt hr ho⟩

/-- The entry is gone at the end, unless the context ended an attempt and left
it there. -/
theorem Ends.absent {c : Contender} (h : c.Ends s o res s') (hs : ¬c.Holds s)
    (hres : res = .errContext ∨ res = .errNotAcquired)
    (hq : o = .unsent ∨ o = .inFlight none → c.Absent s)
    (hwt : o = .inFlight (some false) → waiterTimeout c.ttl ≤ 0) : c.Absent s' := by
  cases h with
  | dequeue hr => exact absent_dequeue _ _
  | @attempt _ _ r hr ho =>
      rcases tryAcquire_cases hr with ⟨rfl, hnot⟩ | ⟨t, rfl, rfl | ⟨rfl, -⟩⟩ | hother
      · exact (hq hnot).run_others r.before
      · rcases exec_lockCmd (not_holds_run_others hs r.before) t r.start with
          ⟨hint, -, hw, -⟩ | ⟨-, -, habs⟩
        · exact absent_of_prepared hw (hwt (by rw [hint]))
        · exact habs
      · exact absurd rfl ho
      · exact absurd hres (not_or.mpr hother)

/-! ## A lock that stays taken -/

/-- Somebody else holds the writer key, without a deadline. -/
def Blocked (c : Contender) (s : RWStore) : Prop :=
  s.writer = .present (c.id ++ "x") none ∧ ¬c.Holds s

/-- Nothing in the keys but the writer. -/
def blocked (c : Contender) : RWStore := { RWStore.init with writer := .present (c.id ++ "x") none }

theorem blocked_blocked (c : Contender) : c.Blocked c.blocked := by
  refine ⟨rfl, ?_⟩
  obtain ⟨role, id, ttl⟩ := c
  cases role with
  | reader => exact not_not.mpr rfl
  | writer =>
      intro he
      have hlen := congrArg String.length (Option.some.inj he)
      rw [String.length_append] at hlen
      exact absurd hlen (by simp)

theorem absent_blocked (c : Contender) : c.Absent c.blocked := rfl

/-- The round in which nobody else does anything and all clocks stand at 0. -/
def still (c : Contender) (d : Delivery) : Round c :=
  ⟨.quiet c, 0, d, some 0, .elapsed, ⟨.quiet c, 0, .quiet c, 0⟩⟩

/-- There every attempt is refused. -/
theorem Blocked.exec {c : Contender} (h : c.Blocked s) :
    ((c.lockCmd 0).exec 0 s).2 = .nil ∧ c.Blocked ((c.lockCmd 0).exec 0 s).1 ∧
      ((c.lockCmd 0).exec 0 s).1.waiters =
        (RWCmd.prepared 0 (s.evict 0) (c.attempt 0)).waiters := by
  obtain ⟨hw, hs⟩ := h
  have hevict : (s.evict 0).writer = .present (c.id ++ "x") none := by
    rw [RWStore.evict, hw]
    rfl
  rcases exec_lockCmd hs 0 0 with ⟨-, hnil | hfree, hq, hkeep, hnot⟩ | ⟨-, hfree, -⟩
  · exact ⟨hnil, ⟨hkeep.trans hevict, hnot⟩, hq⟩
  · rw [hevict] at hfree
    contradiction
  · rw [hevict] at hfree
    contradiction

/-- The store after one attempt at time 0. -/
def turnedAway (c : Contender) (s : RWStore) : RWStore := ((c.lockCmd 0).exec 0 s).1

theorem Blocked.iterate {c : Contender} (h : c.Blocked s) (k : Nat) :
    c.Blocked (c.turnedAway^[k] s) := by
  induction k generalizing s with
  | zero => exact h
  | succ k ih => exact ih h.exec.2.1

/-- After at least one of them the contender is in the queue. -/
theorem Blocked.not_absent {c : Contender} (h : c.Blocked s) (hk : 0 < k)
    (hwt : 0 < waiterTimeout c.ttl) : ¬c.Absent ((c.turnedAway^[k] s).evict 0) := by
  cases k with
  | zero => contradiction
  | succ k =>
      rw [Function.iterate_succ_apply']
      exact not_absent_of_prepared (h.iterate k).exec.2.2 hwt (by omega)

theorem Blocked.tryAcquire {c : Contender} (h : c.Blocked s) :
    c.tryAcquire (c.still (.answered 0 0)) s = (c.turnedAway s, .busy) := by
  have hquiet : (Others.quiet c).run s = s := rfl
  simp only [Contender.tryAcquire, still, hquiet, h.exec.1, acquireResult, turnedAway]

/-- `k` refused attempts, and one that ends the call. -/
theorem Blocked.acquireLoop {c : Contender} (h : c.Blocked s)
    (hr : c.tryAcquire (c.still d) (c.turnedAway^[k] s) = (s', o)) (ho : o ≠ .busy) :
    c.acquireLoop (List.replicate k (c.still (.answered 0 0)) ++ [c.still d]) s =
      (s', List.replicate k .busy ++ [o], some o.result) := by
  induction k generalizing s with
  | zero => exact acquireLoop_of_ne hr ho []
  | succ k ih => exact acquireLoop_of_elapsed h.tryAcquire rfl (ih h.exec.2.1 hr)

end Contender

/-! ## The result -/

namespace Call

/-- The call ends in an attempt that the context cuts off, and either that
attempt was executed and not granted, or it was not executed and an earlier
one was refused. -/
def Abandons (call : Call) (os : List Outcome) : Prop :=
  ∃ k, (call.retries = true ∨ k = 0) ∧
    (os = List.replicate k .busy ++ [.inFlight (some false)] ∨
      0 < k ∧ (os = List.replicate k .busy ++ [.unsent] ∨
        os = List.replicate k .busy ++ [.inFlight none]))

/-- Whenever a call with a fresh token and these outcomes returns an error
because its context ended, or `ErrNotAcquired`, its member is not in the queue
from then on, whatever everybody else does before, meanwhile and after. -/
def LeavesQueue (call : Call) (id : String) (ttl : Int) (os : List Outcome) : Prop :=
  ∀ (s : RWStore) (rounds : List (Round (call.contender id ttl)))
    (rest : Others (call.contender id ttl)) (s' : RWStore) (res : CallResult) (t : Int),
    (call.contender id ttl).Absent s → ¬(call.contender id ttl).Holds s →
    call.run id ttl rounds s = (s', os, some res) →
    res = .errContext ∨ res = .errNotAcquired →
    (call.contender id ttl).Absent ((rest.run s').evict t)

/-- A call that returned: it waited through refused attempts and then ended. -/
theorem returned (call : Call) {id : String} {ttl : Int}
    {rounds : List (Round (call.contender id ttl))}
    (h : call.run id ttl rounds s = (s', os, some res)) :
    ∃ k s₀ o, (call.retries = true ∨ k = 0) ∧ os = List.replicate k .busy ++ [o] ∧
      (call.contender id ttl).Waits k s s₀ ∧ (call.contender id ttl).Ends s₀ o res s' := by
  rw [run_eq] at h
  cases hretries : call.retries with
  | true =>
      rw [hretries, if_pos rfl] at h
      obtain ⟨k, s₀, o, hos, hw, he⟩ := Contender.acquireLoop_returned h
      exact ⟨k, s₀, o, .inl rfl, hos, hw, he⟩
  | false =>
      rw [hretries, if_neg nofun] at h
      obtain ⟨o, hos, he⟩ := Contender.acquireOnce_returned h
      exact ⟨0, s, o, .inr rfl, hos, .zero, he⟩

/-- On a lock that stays taken, any number of refused attempts can come before
the last one. -/
theorem run_blocked (call : Call) (id : String) (ttl : Int)
    (hk : call.retries = true ∨ k = 0)
    (hr : (call.contender id ttl).tryAcquire ((call.contender id ttl).still d)
      ((call.contender id ttl).turnedAway^[k] (call.contender id ttl).blocked) = (s', o))
    (ho : o ≠ .busy) :
    call.run id ttl (List.replicate k ((call.contender id ttl).still (.answered 0 0)) ++
      [(call.contender id ttl).still d]) (call.contender id ttl).blocked =
      (s', List.replicate k .busy ++ [o], some o.result) := by
  rw [run_eq]
  cases hretries : call.retries with
  | true =>
      rw [if_pos rfl]
      exact (Contender.blocked_blocked _).acquireLoop hr ho
  | false =>
      rw [hretries] at hk
      obtain rfl : k = 0 := hk.resolve_left nofun
      rw [if_neg nofun]
      exact Contender.acquireOnce_of_ne hr ho []

/-- What an abandoning call leaves behind on a lock that stays taken. -/
theorem not_leavesQueue_of_abandons (call : Call) (id : String) {ttl : Int}
    (hwt : 0 < waiterTimeout ttl) (h : call.Abandons os) : ¬call.LeavesQueue id ttl os := by
  obtain ⟨k, hk, hos⟩ := h
  have hblocked := (Contender.blocked_blocked (call.contender id ttl))
  intro hleaves
  -- the observer looks at time 0, with nothing else going on
  have habsent : ∀ {d s' o}, (call.contender id ttl).tryAcquire ((call.contender id ttl).still d)
      ((call.contender id ttl).turnedAway^[k] (call.contender id ttl).blocked) = (s', o) →
      os = List.replicate k .busy ++ [o] → o.result = .errContext →
      (call.contender id ttl).Absent (s'.evict 0) := by
    intro d s' o hr hos hres
    have ho : o ≠ .busy := by
      rintro rfl
      contradiction
    have hrun := call.run_blocked id ttl hk hr ho
    rw [← hos] at hrun
    exact hleaves _ _ (.quiet _) s' o.result 0 (Contender.absent_blocked _) hblocked.2 hrun
      (.inl hres)
  rcases hos with hos | ⟨hpos, hos | hos⟩
  · -- the last attempt was executed and refused
    have hexec := (hblocked.iterate k).exec
    have hr : (call.contender id ttl).tryAcquire
        ((call.contender id ttl).still (.inFlight (some 0)))
        ((call.contender id ttl).turnedAway^[k] (call.contender id ttl).blocked) =
        ((call.contender id ttl).turnedAway^[k + 1] (call.contender id ttl).blocked,
          .inFlight (some false)) := by
      rw [Function.iterate_succ_apply']
      refine Prod.ext rfl ?_
      exact congrArg (fun r : Reply => Outcome.inFlight (some r.isInt)) hexec.1
    exact hblocked.not_absent (Nat.succ_pos k) hwt (habsent hr hos rfl)
  · exact hblocked.not_absent hpos hwt (habsent (d := .unsent) rfl hos rfl)
  · exact hblocked.not_absent hpos hwt (habsent (d := .inFlight none) rfl hos rfl)

/-- **When a canceled waiter leaves the queue**: unless the context cut off the
last attempt of its call and the server had refused that attempt, or an
earlier one while that one was never executed.  (With a TTL below half a
millisecond the scripts keep no queue.) -/
theorem leavesQueue_iff (call : Call) (id : String) (ttl : Int) (os : List Outcome) :
    call.LeavesQueue id ttl os ↔ ¬(0 < waiterTimeout ttl ∧ call.Abandons os) := by
  constructor
  · rintro hleaves ⟨hwt, habandons⟩
    exact call.not_leavesQueue_of_abandons id hwt habandons hleaves
  · intro hnot s rounds rest s' res t hs hfree hrun hres
    obtain ⟨k, s₀, o, hk, hos, hwaits, hends⟩ := call.returned hrun
    have hwt : call.Abandons os → waiterTimeout ttl ≤ 0 :=
      fun habandons => Int.not_lt.mp fun hlt => hnot ⟨hlt, habandons⟩
    have hfree₀ := hwaits.not_holds hfree
    have habsent : (call.contender id ttl).Absent s' := by
      refine hends.absent hfree₀ hres ?_ ?_
      · intro ho
        rcases Nat.eq_zero_or_pos k with rfl | hpos
        · cases hwaits
          exact hs
        · refine hwaits.absent hfree hs (hwt ⟨k, hk, .inr ⟨hpos, ?_⟩⟩)
          rcases ho with rfl | rfl
          · exact .inl hos
          · exact .inr hos
      · rintro rfl
        exact hwt ⟨k, hk, .inl hos⟩
    exact RWStore.score_evict_none (habsent.run_others rest) t

/-- **A canceled `Lock` leaves a ghost**: the holder has the lock for a second,
the first attempt is refused, and the context ends before the second one is
sent.  `Lock` returns the error of the context, and its entry is first in the
queue. -/
theorem lock_leaves_ghost :
    let c : Contender := ⟨.writer, "w", 1000000000⟩
    let s := (RWCmd.exec 0 (.writeLock "h" 1000 0 2000) .init).1
    let first : Round c := { c.still (.answered 10 11000000) with start := 10000000 }
    let second : Round c := { c.still .unsent with start := 60000000 }
    let x := RWMutex.lock "w" 1000000000 [first, second] s
    c.Absent s ∧ ¬c.Holds s ∧ x.2 = ([.busy, .unsent], some .errContext) ∧
      (x.1.evict 60).queue.head? = some c.member ∧
      ¬LeavesQueue .lock "w" 1000000000 [.busy, .unsent] := by
  intro c s first second x
  have habsent : c.Absent s := by
    rw [Contender.Absent]
    decide +kernel
  have hfree : ¬c.Holds s := by
    show s.writer.get ≠ some "w"
    decide +kernel
  have hrun : x.2 = ([.busy, .unsent], some .errContext) := by decide +kernel
  have hhead : (x.1.evict 60).queue.head? = some c.member := by decide +kernel
  refine ⟨habsent, hfree, hrun, hhead, fun hleaves => ?_⟩
  have hgone := hleaves s [first, second] (.quiet _) x.1 .errContext 60 habsent hfree
    (Prod.ext rfl hrun) (.inl rfl)
  have hin : (x.1.evict 60).queue.score c.member ≠ none := by decide +kernel
  exact hin hgone

end Call

end Distsync
