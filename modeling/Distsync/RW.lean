import Distsync.Trans
import Distsync.Lua.RW

/-!
# Distsync.RW

The server side of a read-write lock: the commands that reach its keys, what
one of them does at server time `t`, and the invariant that ties the two
roles together: while the writer key exists, the readers set is empty.

Nothing is assumed of the timestamps and TTLs the clients send, of the order
in which commands arrive, or of the server clock itself.
-/

namespace Distsync

open Redis Trans

/-- A command on the keys of one read-write lock. -/
inductive RWCmd where
  /-- `rw_read_lock`. -/
  | readLock (token : String) (ttl now waiterTimeout : Int)
  /-- `rw_write_lock`. -/
  | writeLock (token : String) (ttl now waiterTimeout : Int)
  /-- `sem_renew` on the readers set. -/
  | readerRenew (now ttl : Int) (tokens : List String)
  /-- `sem_release` on the readers set. -/
  | readerRelease (tokens : List String)
  /-- `single_renew` on the writer key. -/
  | writerRenew (token : String) (ttl : Int)
  /-- `single_release` on the writer key. -/
  | writerRelease (token : String)
  /-- The first command of `Dequeue`. -/
  | zrem (m : String)
  /-- The second command of `Dequeue`. -/
  | hdel (m : String)
  /-- The server drops the writer key, whatever its deadline. -/
  | expireWriter
  /-- The server drops what has expired, with no client involved. -/
  | sweep
deriving DecidableEq

/-- The keys as a command at server time `t` finds them. -/
def RWStore.evict (t : Int) (s : RWStore) : RWStore :=
  { s with
    writer := s.writer.evict t
    waiters := s.waiters.evict t
    waiterTs := s.waiterTs.evict t
    seq := s.seq.evict t }

/-- No token comes into the writer key by expiry. -/
theorem RWStore.writer_evict_ne {s : RWStore} (h : s.writer.get ≠ some token) (t : Int) :
    (s.evict t).writer.get ≠ some token := by
  intro he
  rw [RWStore.evict, Slot.get_evict_eq_some he] at he
  exact h he

/-- The effect of a command on keys that hold nothing expired. -/
def RWCmd.run (t : Int) (s : RWStore) : RWCmd → RWStore × Reply
  | readLock token ttl now wt => rwReadLock t token ttl now wt s
  | writeLock token ttl now wt => rwWriteLock t token ttl now wt s
  | readerRenew now ttl tokens =>
      ({ s with readers := (semRenew now ttl tokens s.readers).1 },
        (semRenew now ttl tokens s.readers).2)
  | readerRelease tokens =>
      ({ s with readers := (semRelease tokens s.readers).1 }, (semRelease tokens s.readers).2)
  | writerRenew token ttl =>
      ({ s with writer := (singleRenew t token ttl s.writer).1 },
        (singleRenew t token ttl s.writer).2)
  | writerRelease token =>
      ({ s with writer := (singleRelease token s.writer).1 }, (singleRelease token s.writer).2)
  | zrem m => (s.zremWaiter m, .int (if (s.queue.score m).isSome then 1 else 0))
  | hdel m => (s.hdelWaiter m, .int (if (s.stamp m).isSome then 1 else 0))
  | expireWriter => ({ s with writer := .absent }, .nil)
  | sweep => (s, .nil)

/-- A command executed at server time `t`. -/
def RWCmd.exec (t : Int) (c : RWCmd) (s : RWStore) : RWStore × Reply := c.run t (s.evict t)

/-- One command at any server time. -/
def RWStep (s s' : RWStore) : Prop := ∃ t c, s' = (RWCmd.exec t c s).1

/-! ## Readers and writers on the server -/

/-- While the writer key exists, nobody is in the readers set. -/
def RWStore.Exclusive (s : RWStore) : Prop := s.writer.get ≠ none → s.readers = ∅

/-- A command that leaves the readers alone, or only lets some go, while the
writer key does not come into being. -/
theorem RWStore.Exclusive.of_le {s s' : RWStore} (h : s.Exclusive)
    (hw : s'.writer.get ≠ none → s.writer.get ≠ none)
    (hr : ∀ m, s.readers.score m = none → s'.readers.score m = none) : s'.Exclusive := by
  intro hs'
  have hempty := ZSet.eq_empty_iff.mp (h (hw hs'))
  exact ZSet.eq_empty_iff.mpr fun m => hr m (hempty m)

theorem RWStore.Exclusive.evict {s : RWStore} (h : s.Exclusive) (t : Int) :
    (s.evict t).Exclusive := by
  apply h.of_le
  · intro hw hn
    apply hw
    rw [Slot.get_eq_none_iff] at hn
    rw [RWStore.evict, hn]
    rfl
  · exact fun m hm => hm

theorem semRenew_score_none (now ttl : Int) (tokens : List String) {z : Permits} {m : String}
    (h : z.score m = none) : (semRenew now ttl tokens z).1.score m = none := by
  rcases semRenew_cases now ttl tokens z with ⟨hall, heq⟩ | ⟨-, heq⟩
  · rw [heq, ZSet.score_addAll, if_neg, h]
    intro hm
    obtain ⟨sc, hsc, -⟩ := hall m hm
    rw [h] at hsc
    contradiction
  · rw [heq, h]

theorem remUpTo_score_none (b : Int) {z : Permits} {m : String} (h : z.score m = none) :
    (z.remUpTo b).score m = none := by
  rw [ZSet.score_remUpTo, h]
  rfl

/-- Every command keeps the two roles apart. -/
theorem RWCmd.run_exclusive (t : Int) (c : RWCmd) {s : RWStore} (h : s.Exclusive) :
    (c.run t s).1.Exclusive := by
  cases c with
  | readLock token ttl now wt =>
      rcases rwReadLock_cases t token ttl now wt s with ⟨-, heq⟩ | ⟨-, heq⟩ | ⟨-, hw, -, heq⟩
      · rw [run, heq]
        exact h
      · rw [run, heq]
        exact h.of_le (by simp) (by simp)
      · -- the one place a reader is added: there is no writer
        rw [run, heq]
        intro hw'
        exact absurd (by simp [RWStore.grantReader, RWStore.leave, RWStore.zremWaiter,
          RWStore.hdelWaiter, hw]) hw'
  | writeLock token ttl now wt =>
      rcases rwWriteLock_cases t token ttl now wt s with
        ⟨-, heq⟩ | ⟨-, z, r, hz, -, heq⟩ | ⟨-, hempty, -, -, heq⟩
      · rw [run, heq]
        exact h
      · rw [run, heq]
        apply h.of_le
        · simp
        · intro m hm
          rcases hz with rfl | rfl
          · exact hm
          · exact remUpTo_score_none now hm
      · -- the one place the writer key is set: no reader is left
        rw [run, heq]
        intro _
        rw [RWStore.grantWriter, RWStore.prepare_readers]
        exact hempty
  | readerRenew now ttl tokens =>
      exact h.of_le (fun hw => hw) (fun m hm => semRenew_score_none now ttl tokens hm)
  | readerRelease tokens =>
      refine h.of_le (fun hw => hw) ?_
      intro m hm
      rw [run, semRelease_fst, ZSet.score_remAll, hm, ite_self]
  | writerRenew token ttl =>
      refine h.of_le ?_ (fun m hm => hm)
      intro hw hn
      rcases singleRenew_cases t token ttl s.writer with ⟨hown, -⟩ | ⟨-, heq⟩
      · rw [hn] at hown
        contradiction
      · rw [run, heq] at hw
        exact hw hn
  | writerRelease token =>
      refine h.of_le ?_ (fun m hm => hm)
      intro hw hn
      rcases singleRelease_cases token s.writer with ⟨hown, -⟩ | ⟨-, heq⟩
      · rw [hn] at hown
        contradiction
      · rw [run, heq] at hw
        exact hw hn
  | zrem m => exact h
  | hdel m => exact h
  | expireWriter => exact fun hw => absurd rfl hw
  | sweep => exact h

/-- **Readers and writers never meet on the server**: in every state reached
by commands in any order, repeated or late, with any timestamps and TTLs, the
readers set is empty while the writer key exists. -/
theorem readers_empty_of_writer {s : RWStore} (h : Reach (· = RWStore.init) RWStep s)
    (hw : s.writer.get ≠ none) : s.readers = ∅ := by
  refine Reach.invariant (I := RWStore.Exclusive) ?_ ?_ h hw
  · rintro s rfl hw
    exact absurd rfl hw
  · rintro s s' - hs ⟨t, c, rfl⟩
    exact c.run_exclusive t (hs.evict t)

theorem readers_empty_of_writer_run :
    let s := (RWCmd.exec 7 (.writeLock "w" 1000 5 2000)
      (RWCmd.exec 3 (.readerRelease ["r"]) (RWCmd.exec 0 (.readLock "r" 1000 0 2000) .init).1).1).1
    s.writer.get = some "w" ∧ s.readers = ∅ :=
  ⟨by decide +kernel, readers_empty_of_writer (.step (.step (.step (.init rfl) ⟨_, _, rfl⟩)
    ⟨_, _, rfl⟩) ⟨_, _, rfl⟩) (by decide +kernel)⟩

end Distsync
