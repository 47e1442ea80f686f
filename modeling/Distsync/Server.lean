import Distsync.RW.Lease
import Distsync.Fencing

/-!
# Distsync.Server

One server with the keys of a mutex, a semaphore and a read-write lock, and
everything the four lease types have it do.  A command is executed on behalf
of an owner id, which the scripts compare with what is stored, or build their
set and queue members from.

What belongs to an owner is read off the keys by `holdings` and `entries`.
Nothing executed for another owner touches it (`foreign_frame`), except that
an attempt to acquire may reclaim members of sets that are expired at the
timestamp it carries, and queue entries.
-/

namespace Distsync

open Redis Trans

/-- The keys of one resource of each kind. -/
structure Server where
  single : SingleStore
  permits : Permits
  rw : RWStore
deriving DecidableEq

/-- The keys before anyone has used them. -/
def Server.init : Server := ⟨⟨.absent, none⟩, ∅, .init⟩

/-- The keys as a command at server time `t` finds them. -/
def Server.evict (t : Int) (s : Server) : Server :=
  ⟨s.single.evict t, s.permits, s.rw.evict t⟩

/-- What the client of an owner can send. -/
inductive OwnerCmd where
  /-- `single_acquire`. -/
  | singleAcquire (ttl : Int) (fencing : Bool)
  /-- `single_renew` on the lock key. -/
  | singleRenew (ttl : Int)
  /-- `single_release` on the lock key. -/
  | singleRelease
  /-- `sem_acquire` for `n` permits. -/
  | semAcquire (now ttl : Int) (capacity n : Nat)
  /-- `sem_renew` on the permits. -/
  | semRenew (now ttl : Int) (n : Nat)
  /-- `sem_release` on the permits. -/
  | semRelease (n : Nat)
  /-- `rw_read_lock`. -/
  | readLock (ttl now waiterTimeout : Int)
  /-- `rw_write_lock`. -/
  | writeLock (ttl now waiterTimeout : Int)
  /-- `sem_renew` on the readers set. -/
  | readerRenew (now ttl : Int)
  /-- `sem_release` on the readers set. -/
  | readerRelease
  /-- `single_renew` on the writer key. -/
  | writerRenew (ttl : Int)
  /-- `single_release` on the writer key. -/
  | writerRelease
  /-- The first command of `Dequeue`. -/
  | zrem (role : Role)
  /-- The second command of `Dequeue`. -/
  | hdel (role : Role)
deriving DecidableEq

namespace OwnerCmd

/-- A command that works on the lock key alone. -/
def onLock (r : Slot String × Reply) (s : Server) : Server × Reply :=
  ({ s with single := { s.single with lock := r.1 } }, r.2)

/-- A command that works on the permits. -/
def onPermits (r : Permits × Reply) (s : Server) : Server × Reply :=
  ({ s with permits := r.1 }, r.2)

/-- A command that works on the keys of the read-write lock. -/
def onRW (t : Int) (c : RWCmd) (s : Server) : Server × Reply :=
  ({ s with rw := (c.run t s.rw).1 }, (c.run t s.rw).2)

/-- The effect of a command of owner `a` on keys that hold nothing expired. -/
def run (t : Int) (a : String) (c : OwnerCmd) (s : Server) : Server × Reply :=
  match c with
  | singleAcquire ttl fencing =>
      ({ s with single := (Distsync.singleAcquire t a ttl fencing s.single).1 },
        (Distsync.singleAcquire t a ttl fencing s.single).2)
  | singleRenew ttl => onLock (Distsync.singleRenew t a ttl s.single.lock) s
  | singleRelease => onLock (Distsync.singleRelease a s.single.lock) s
  | semAcquire now ttl capacity n =>
      onPermits (Distsync.semAcquire now ttl capacity (permitTokens a n) s.permits) s
  | semRenew now ttl n => onPermits (Distsync.semRenew now ttl (permitTokens a n) s.permits) s
  | semRelease n => onPermits (Distsync.semRelease (permitTokens a n) s.permits) s
  | readLock ttl now wt => onRW t (.readLock a ttl now wt) s
  | writeLock ttl now wt => onRW t (.writeLock a ttl now wt) s
  | readerRenew now ttl => onRW t (.readerRenew now ttl [a]) s
  | readerRelease => onRW t (.readerRelease [a]) s
  | writerRenew ttl => onRW t (.writerRenew a ttl) s
  | writerRelease => onRW t (.writerRelease a) s
  | zrem role => onRW t (.zrem (role.member a)) s
  | hdel role => onRW t (.hdel (role.member a)) s

/-- The command tries to acquire. -/
def acquires : OwnerCmd → Bool
  | singleAcquire .. | semAcquire .. | readLock .. | writeLock .. => true
  | _ => false

/-- The timestamp by which an attempt to acquire judges others' members. -/
def sent : OwnerCmd → Option Int
  | semAcquire now _ _ _ => some now
  | readLock _ now _ | writeLock _ now _ => some now
  | _ => none

end OwnerCmd

/-! ## What belongs to an owner -/

/-- The grants of one owner: the expiry of the keys that store its id, and the
scores of its members. -/
structure Holdings where
  lock : Option (Option Int)
  writer : Option (Option Int)
  reader : Option Int
  permit : Nat → Option Int

namespace Server

def holdings (s : Server) (b : String) : Holdings where
  lock := storedBy b s.single.lock
  writer := storedBy b s.rw.writer
  reader := s.rw.readers.score b
  permit i := s.permits.score (permitToken b i)

/-- The queue entries of an owner: number and time stamp. -/
def entries (s : Server) (b : String) (role : Role) : Option Nat × Option Int :=
  (s.rw.queue.score (role.member b), s.rw.stamp (role.member b))

end Server

/-- A member is as it was, unless its score is not later than `sent`: then it
may be gone. -/
def Spared (sent : Option Int) (before after : Option Int) : Prop :=
  after = before ∨ after = none ∧ ∃ sc now, before = some sc ∧ sent = some now ∧ sc ≤ now

/-- Keys are as they were, and members unless they have expired. -/
structure Holdings.Spared (sent : Option Int) (before after : Holdings) : Prop where
  lock : after.lock = before.lock
  writer : after.writer = before.writer
  reader : Distsync.Spared sent before.reader after.reader
  permit : ∀ i, Distsync.Spared sent (before.permit i) (after.permit i)

/-! ## What a command of another owner does -/

/-- Reclamation at `now` spares what is live. -/
theorem spared_remUpTo (now : Int) (z : Permits) (m : String) :
    Spared (some now) (z.score m) ((z.remUpTo now).score m) := by
  rw [ZSet.score_remUpTo]
  cases z.score m with
  | none => exact .inl rfl
  | some sc =>
      by_cases hlt : now < sc
      · exact .inl (by simp [hlt])
      · exact .inr ⟨by simpa using hlt, sc, now, rfl, rfl, by omega⟩

theorem Role.member_inj {role role' : Role} (h : role.member a = role'.member b) : a = b := by
  have hl := congrArg String.toList h
  cases role <;> cases role' <;>
    simp [Role.member, readerMember, writerMember] at hl
  all_goals exact String.toList_inj.mp hl

namespace Server

theorem holdings_eq {s s' : Server} (hlock : storedBy b s'.single.lock = storedBy b s.single.lock)
    (hwriter : storedBy b s'.rw.writer = storedBy b s.rw.writer)
    (hreader : s'.rw.readers.score b = s.rw.readers.score b)
    (hpermit : ∀ i, s'.permits.score (permitToken b i) = s.permits.score (permitToken b i)) :
    s'.holdings b = s.holdings b := by
  simp only [holdings, hlock, hwriter, hreader, hpermit]

end Server

namespace OwnerCmd

/-- Renewals, releases and the commands of `Dequeue` touch nothing of another
owner. -/
theorem holdings_of_not_acquires {c : OwnerCmd} (h : c.acquires = false) (t : Int) (s : Server)
    (hne : a ≠ b) : (c.run t a s).1.holdings b = s.holdings b := by
  have hreader : b ∉ [a] := by simp [hne.symm]
  have hpermit (i n : Nat) : permitToken b i ∉ permitTokens a n := notMem_permitTokens hne i n
  cases c with
  | singleAcquire | semAcquire | readLock | writeLock => contradiction
  | singleRenew ttl =>
      exact Server.holdings_eq (storedBy_singleRenew hne t ttl _) rfl rfl (fun _ => rfl)
  | singleRelease => exact Server.holdings_eq (storedBy_singleRelease hne _) rfl rfl (fun _ => rfl)
  | semRenew now ttl n =>
      exact Server.holdings_eq rfl rfl rfl
        (fun i => semRenew_score_of_notMem now ttl s.permits (hpermit i n))
  | semRelease n =>
      exact Server.holdings_eq rfl rfl rfl
        (fun i => semRelease_score_of_notMem s.permits (hpermit i n))
  | readerRenew now ttl =>
      exact Server.holdings_eq rfl rfl (semRenew_score_of_notMem now ttl s.rw.readers hreader)
        (fun _ => rfl)
  | readerRelease =>
      exact Server.holdings_eq rfl rfl (semRelease_score_of_notMem s.rw.readers hreader)
        (fun _ => rfl)
  | writerRenew ttl =>
      exact Server.holdings_eq rfl (storedBy_singleRenew hne t ttl _) rfl (fun _ => rfl)
  | writerRelease =>
      exact Server.holdings_eq rfl (storedBy_singleRelease hne _) rfl (fun _ => rfl)
  | zrem role => rfl
  | hdel role => rfl

theorem entries_of_not_acquires {c : OwnerCmd} (h : c.acquires = false) (t : Int) (s : Server)
    (hne : a ≠ b) : (c.run t a s).1.entries b = s.entries b := by
  have hmember (role role' : Role) : role'.member b ≠ role.member a :=
    fun he => hne (Role.member_inj he).symm
  cases c with
  | singleAcquire | semAcquire | readLock | writeLock => contradiction
  | singleRenew | singleRelease | semRenew | semRelease | readerRenew | readerRelease | writerRenew
  | writerRelease => rfl
  | zrem role =>
      funext role'
      refine Prod.ext ?_ rfl
      have hscore := ZSet.score_rem_of_ne s.rw.queue (hmember role role')
      rwa [← RWStore.queue_zremWaiter] at hscore
  | hdel role =>
      funext role'
      refine Prod.ext rfl ?_
      have hstamp := RWStore.stamp_hdelWaiter (role.member a) (role'.member b) s.rw
      rwa [Finmap.lookup_erase_ne (hmember role role')] at hstamp

/-- An attempt to acquire reclaims at most what is expired at its timestamp. -/
theorem spared_of_acquires {c : OwnerCmd} (h : c.acquires = true) (t : Int) (s : Server)
    (hne : a ≠ b) : (s.holdings b).Spared c.sent ((c.run t a s).1.holdings b) := by
  cases c with
  | singleAcquire ttl fencing =>
      exact ⟨storedBy_singleAcquire hne t ttl fencing s.single, rfl, .inl rfl, fun _ => .inl rfl⟩
  | semAcquire now ttl capacity n =>
      refine ⟨rfl, rfl, .inl rfl, fun i => ?_⟩
      have hscore := semAcquire_score_of_notMem now ttl capacity s.permits
        (notMem_permitTokens hne i n)
      have hspared := spared_remUpTo now s.permits (permitToken b i)
      rwa [← hscore] at hspared
  | readLock ttl now wt =>
      have hwriter := (rwReadLock_writer t a ttl now wt s.rw).1
      have hreaders := rwReadLock_score_of_ne t ttl now wt s.rw hne.symm
      exact ⟨rfl, congrArg (storedBy b) hwriter, .inl hreaders, fun _ => .inl rfl⟩
  | writeLock ttl now wt =>
      refine ⟨rfl, storedBy_rwWriteLock hne t ttl now wt s.rw, ?_, fun _ => .inl rfl⟩
      rcases rwWriteLock_readers t a ttl now wt s.rw with hr | hr
      · exact .inl (congrArg (ZSet.score · b) hr)
      · have hspared := spared_remUpTo now s.rw.readers b
        rwa [← hr] at hspared
  | singleRenew | singleRelease | semRenew | semRelease | readerRenew | readerRelease | writerRenew
  | writerRelease | zrem | hdel => contradiction

end OwnerCmd

/-- **Safe unlock and renew**: on every state of the keys and at every time, a
renewal, a release or a command of `Dequeue` leaves every grant and every
queue entry of another owner exactly as it was, and an attempt to acquire
leaves its grants as they were except for permits and readers that are expired
at the timestamp sent. -/
theorem foreign_frame (t : Int) (s : Server) (c : OwnerCmd) {a b : String} (hne : a ≠ b) :
    (c.acquires = false → (c.run t a s).1.holdings b = s.holdings b ∧
      (c.run t a s).1.entries b = s.entries b) ∧
    (c.acquires = true → (s.holdings b).Spared c.sent ((c.run t a s).1.holdings b)) :=
  ⟨fun h => ⟨c.holdings_of_not_acquires h t s hne, c.entries_of_not_acquires h t s hne⟩,
    fun h => c.spared_of_acquires h t s hne⟩

/-- Owner `a` releases two permits it does not have while `b` holds one; then
it asks for one at a time when `b`'s has expired. -/
theorem foreign_frame_permits :
    let s := (OwnerCmd.run 0 "b" (.semAcquire 0 1000 1 1) .init).1
    (s.holdings "b").permit 0 = some 1000 ∧
      ((OwnerCmd.run 5 "a" (.semRelease 2) s).1.holdings "b").permit 0 = some 1000 ∧
      (s.holdings "b").Spared (some 1000)
        ((OwnerCmd.run 1000 "a" (.semAcquire 1000 500 1 1) s).1.holdings "b") := by
  intro s
  have hgrant : (s.holdings "b").permit 0 = some 1000 := by decide +kernel
  refine ⟨hgrant, ?_, (foreign_frame 1000 s (.semAcquire 1000 500 1 1) (by decide)).2 rfl⟩
  rw [((foreign_frame 5 s (.semRelease 2) (by decide)).1 rfl).1, hgrant]

end Distsync
