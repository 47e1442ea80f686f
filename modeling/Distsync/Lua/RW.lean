import Distsync.Lua.Single
import Distsync.Lua.Sem
import Mathlib.Data.Finmap

/-!
# Distsync.Lua.RW

The read-write lock scripts: `rw_write_lock.lua` and `rw_read_lock.lua`.

Both share one arrival queue.  A contender joins it with the next number of a
sequence counter, keeps the number across retries, and stamps `waiter-ts` on
every attempt so that the others can purge it from the head of the queue once
it has been silent for too long.  A writer is granted only at the head of the
queue, a reader as soon as no writer is queued ahead of it.
-/

namespace Distsync

open Redis

/-- The keys of one read-write lock (`RWKeys`).  No script gives `readers` or
`fencing` a TTL, so they are kept as plain values; an absent set reads as
empty. -/
structure RWStore where
  writer : Slot String
  readers : Permits
  fencing : Option Nat
  waiters : Slot (ZSet String Nat)
  waiterTs : Slot (Finmap (fun _ : String => Int))
  seq : Slot Nat
deriving DecidableEq

/-- The keys before anyone has used the lock. -/
def RWStore.init : RWStore := ⟨.absent, ∅, none, .absent, .absent, .absent⟩

/-- A writer's entry name in the arrival queue. -/
def writerMember (token : String) : String := "W:" ++ token

/-- A reader's entry name in the arrival queue. -/
def readerMember (token : String) : String := "R:" ++ token

/-- `string.sub(m, 1, 2) == 'W:'`. -/
def isWriterMember (m : String) : Bool := m.toList.take 2 = ['W', ':']

namespace RWStore

/-- The queue as a script reads it. -/
def queue (s : RWStore) : ZSet String Nat := s.waiters.contents

/-- A member's last attempt as a script reads it. -/
def stamp (s : RWStore) (m : String) : Option Int := s.waiterTs.contents.lookup m

/-- First half of joining the queue: take the next number unless already
queued, and stamp the attempt. -/
def join (member : String) (now : Int) (s : RWStore) : RWStore :=
  let s := match s.queue.score member with
    | some _ => s
    | none => { s with
        seq := s.seq.incr
        waiters := s.waiters.modify (·.add member (s.seq.get.getD 0 + 1)) }
  { s with waiterTs := s.waiterTs.modify (·.insert member now) }

/-- Second half: refresh the TTL of the three queue keys. -/
def touch (t waiterTimeout : Int) (s : RWStore) : RWStore :=
  { s with
    waiters := s.waiters.pexpire t waiterTimeout
    waiterTs := s.waiterTs.pexpire t waiterTimeout
    seq := s.seq.pexpire t waiterTimeout }

/-- `ZREM waiters m`. -/
def zremWaiter (m : String) (s : RWStore) : RWStore :=
  { s with waiters := s.waiters.modify (·.rem m) }

/-- `HDEL waiter-ts m`. -/
def hdelWaiter (m : String) (s : RWStore) : RWStore :=
  { s with waiterTs := s.waiterTs.modify (·.erase m) }

/-- Both, as the scripts do in one go. -/
def leave (m : String) (s : RWStore) : RWStore := (s.zremWaiter m).hdelWaiter m

/-- The purge loop: drop the head of the queue while it has a stamp older
than the timeout.  `fuel` bounds the iterations; each one removes an entry,
so the size of the queue is enough. -/
def purgeLoop (limit : Int) : Nat → RWStore → RWStore
  | 0, s => s
  | fuel + 1, s =>
      match s.queue.head? with
      | none => s
      | some m =>
          match s.stamp m with
          | none => s
          | some ts => if ts < limit then purgeLoop limit fuel (s.leave m) else s

/-- Purge crashed waiters from the head. -/
def purge (now waiterTimeout : Int) (s : RWStore) : RWStore :=
  s.purgeLoop (now - waiterTimeout) s.queue.card

/-- Everything a script does to the queue before it decides. -/
def prepare (t : Int) (member : String) (now waiterTimeout : Int) (s : RWStore) : RWStore :=
  ((s.join member now).touch t waiterTimeout).purge now waiterTimeout

end RWStore

/-- `rw_write_lock.lua` after the queue work: only the head of the queue, with
no writer and no live reader, takes the writer role. -/
def rwWriteDecide (t : Int) (token : String) (ttl now : Int) (s : RWStore) : RWStore × Reply :=
  if s.queue.head? ≠ none ∧ s.queue.head? ≠ some (writerMember token) then
    (s, .nil)
  else if s.writer.get ≠ none then
    (s, .nil)
  else
    let s := { s with readers := s.readers.remUpTo now }
    if s.readers.card > 0 then
      (s, .nil)
    else if ttl ≤ 0 then
      (s, .err)
    else
      ({ s.leave (writerMember token) with
          writer := .present token (some (t + ttl))
          fencing := some (s.fencing.getD 0 + 1) },
        .number (s.fencing.getD 0 + 1))

/-- `rw_write_lock.lua`. -/
def rwWriteLock (t : Int) (token : String) (ttl now waiterTimeout : Int) (s : RWStore) :
    RWStore × Reply :=
  if s.writer.get = some token then
    (s, .ofGet s.fencing)
  else
    rwWriteDecide t token ttl now (s.prepare t (writerMember token) now waiterTimeout)

/-- `rw_read_lock.lua` after the queue work; `seq` is the caller's number. -/
def rwReadDecide (token : String) (ttl now : Int) (seq : Nat) (s : RWStore) : RWStore × Reply :=
  if s.writer.get ≠ none then
    (s, .nil)
  else if (s.queue.below seq).any isWriterMember then
    (s, .nil)
  else
    ({ s.leave (readerMember token) with readers := s.readers.add token (now + ttl) }, .int 1)

/-- The number `rw_read_lock.lua` compares with: the caller's queue score, or
the one it has just been given. -/
def rwReadSeq (token : String) (s : RWStore) : Nat :=
  (s.queue.score (readerMember token)).getD (s.seq.get.getD 0 + 1)

/-- `rw_read_lock.lua`. -/
def rwReadLock (t : Int) (token : String) (ttl now waiterTimeout : Int) (s : RWStore) :
    RWStore × Reply :=
  if ownsAt now s.readers token then
    (s, .int 1)
  else
    rwReadDecide token ttl now (rwReadSeq token s)
      (s.prepare t (readerMember token) now waiterTimeout)

/-! ## The queue work touches the queue keys only -/

namespace RWStore

/-- Joining again keeps the place. -/
theorem join_of_some {s : RWStore} (h : s.queue.score m = some sc) (now : Int) :
    s.join m now = { s with waiterTs := s.waiterTs.modify (·.insert m now) } := by
  rw [join, h]

/-- Joining for the first time takes the next number. -/
theorem join_of_none {s : RWStore} (h : s.queue.score m = none) (now : Int) :
    s.join m now = { s with
      seq := s.seq.incr
      waiters := s.waiters.modify (·.add m (s.seq.get.getD 0 + 1))
      waiterTs := s.waiterTs.modify (·.insert m now) } := by
  rw [join, h]

@[simp] theorem join_writer (m : String) (now : Int) (s : RWStore) :
    (s.join m now).writer = s.writer := by
  rw [join]; split <;> rfl

@[simp] theorem join_readers (m : String) (now : Int) (s : RWStore) :
    (s.join m now).readers = s.readers := by
  rw [join]; split <;> rfl

@[simp] theorem join_fencing (m : String) (now : Int) (s : RWStore) :
    (s.join m now).fencing = s.fencing := by
  rw [join]; split <;> rfl

theorem queue_zremWaiter (m : String) (s : RWStore) : (s.zremWaiter m).queue = s.queue.rem m :=
  Slot.contents_modify _ _

theorem queue_leave (m : String) (s : RWStore) : (s.leave m).queue = s.queue.rem m :=
  queue_zremWaiter m s

theorem stamp_hdelWaiter (m m' : String) (s : RWStore) :
    (s.hdelWaiter m).stamp m' = (s.waiterTs.contents.erase m).lookup m' :=
  congrArg (Finmap.lookup m') (Slot.contents_modify _ _)

theorem stamp_leave (m m' : String) (s : RWStore) :
    (s.leave m).stamp m' = (s.waiterTs.contents.erase m).lookup m' :=
  stamp_hdelWaiter m m' (s.zremWaiter m)

/-- A property of stores that `leave` keeps survives the purge loop. -/
theorem purgeLoop_induct {P : RWStore → Prop} (limit : Int) (hleave : ∀ s m, P s → P (s.leave m))
    (fuel : Nat) {s : RWStore} (h : P s) : P (s.purgeLoop limit fuel) := by
  induction fuel generalizing s with
  | zero => exact h
  | succ fuel ih =>
      rw [purgeLoop]
      split
      · exact h
      · split
        · exact h
        · split
          · exact ih (hleave _ _ h)
          · exact h

@[simp] theorem prepare_writer (t : Int) (m : String) (now wt : Int) (s : RWStore) :
    (s.prepare t m now wt).writer = s.writer :=
  purgeLoop_induct (P := fun p => p.writer = s.writer) _ (fun _ _ h => h) _ (join_writer m now s)

@[simp] theorem prepare_readers (t : Int) (m : String) (now wt : Int) (s : RWStore) :
    (s.prepare t m now wt).readers = s.readers :=
  purgeLoop_induct (P := fun p => p.readers = s.readers) _ (fun _ _ h => h) _ (join_readers m now s)

@[simp] theorem prepare_fencing (t : Int) (m : String) (now wt : Int) (s : RWStore) :
    (s.prepare t m now wt).fencing = s.fencing :=
  purgeLoop_induct (P := fun p => p.fencing = s.fencing) _ (fun _ _ h => h) _ (join_fencing m now s)

end RWStore

/-! ## What one execution can do -/

/-- The writer role, given away: the store after a granted `rw_write_lock`. -/
def RWStore.grantWriter (t : Int) (token : String) (ttl now : Int) (p : RWStore) : RWStore :=
  { p.leave (writerMember token) with
    writer := .present token (some (t + ttl))
    readers := p.readers.remUpTo now
    fencing := some (p.fencing.getD 0 + 1) }

/-- The reader role, given away: the store after a granted `rw_read_lock`. -/
def RWStore.grantReader (token : String) (ttl now : Int) (p : RWStore) : RWStore :=
  { p.leave (readerMember token) with readers := p.readers.add token (now + ttl) }

/-- An execution of `rw_write_lock` recovers its own grant, is refused (having
at most purged expired readers; with an error only if nobody writes), or takes
the writer role, which it does only with no writer, no live reader and nobody
else at the head of the queue. -/
theorem rwWriteLock_cases (t : Int) (token : String) (ttl now wt : Int) (s : RWStore) :
    let p := s.prepare t (writerMember token) now wt
    (s.writer.get = some token ∧
      rwWriteLock t token ttl now wt s = (s, .ofGet s.fencing)) ∨
    (s.writer.get ≠ some token ∧ ∃ z r, (z = s.readers ∨ z = s.readers.remUpTo now) ∧
      (r = .nil ∨ r = .err ∧ s.writer = .absent) ∧
      rwWriteLock t token ttl now wt s = ({ p with readers := z }, r)) ∨
    (s.writer = .absent ∧ s.readers.remUpTo now = ∅ ∧ 0 < ttl ∧
      (p.queue.head? = none ∨ p.queue.head? = some (writerMember token)) ∧
      rwWriteLock t token ttl now wt s =
        (p.grantWriter t token ttl now, .number (s.fencing.getD 0 + 1))) := by
  intro p
  by_cases hown : s.writer.get = some token
  · exact .inl ⟨hown, if_pos hown⟩
  have hstep : rwWriteLock t token ttl now wt s = rwWriteDecide t token ttl now p := if_neg hown
  have hwriterp : p.writer = s.writer := RWStore.prepare_writer ..
  have hreaders : p.readers = s.readers := RWStore.prepare_readers ..
  have hsame : ({ p with readers := s.readers } : RWStore) = p := by rw [← hreaders]
  rw [hstep, rwWriteDecide]
  by_cases hhead : p.queue.head? ≠ none ∧ p.queue.head? ≠ some (writerMember token)
  · rw [if_pos hhead]
    exact .inr (.inl ⟨hown, s.readers, .nil, .inl rfl, .inl rfl, by rw [hsame]⟩)
  rw [if_neg hhead]
  by_cases hwriter : p.writer.get ≠ none
  · rw [if_pos hwriter]
    exact .inr (.inl ⟨hown, s.readers, .nil, .inl rfl, .inl rfl, by rw [hsame]⟩)
  have hfree : s.writer = .absent := Slot.get_eq_none_iff.mp (by rw [← hwriterp]; simpa using hwriter)
  rw [if_neg hwriter, hreaders]
  by_cases hlive : (s.readers.remUpTo now).card > 0
  · simp only [if_pos hlive]
    exact .inr (.inl ⟨hown, _, .nil, .inr rfl, .inl rfl, rfl⟩)
  by_cases httl : ttl ≤ 0
  · simp only [if_neg hlive, if_pos httl]
    exact .inr (.inl ⟨hown, _, .err, .inr rfl, .inr ⟨rfl, hfree⟩, rfl⟩)
  simp only [if_neg hlive, if_neg httl]
  refine .inr (.inr ⟨hfree, ?_, by omega, ?_, ?_⟩)
  · rw [ZSet.eq_empty_iff, ← ZSet.card_eq_zero_iff]
    omega
  · by_contra hne
    push Not at hne
    exact hhead hne
  · rw [RWStore.grantWriter, hreaders, show p.fencing = s.fencing from RWStore.prepare_fencing ..]
    rfl

/-- An execution of `rw_read_lock` recovers its own live grant, is refused, or
joins the readers, which it does only with no writer and no queued writer
ahead of it. -/
theorem rwReadLock_cases (t : Int) (token : String) (ttl now wt : Int) (s : RWStore) :
    let p := s.prepare t (readerMember token) now wt
    (ownsAt now s.readers token = true ∧ rwReadLock t token ttl now wt s = (s, .int 1)) ∨
    (ownsAt now s.readers token = false ∧ rwReadLock t token ttl now wt s = (p, .nil)) ∨
    (ownsAt now s.readers token = false ∧ s.writer = .absent ∧
      (p.queue.below (rwReadSeq token s)).any isWriterMember = false ∧
      rwReadLock t token ttl now wt s = (p.grantReader token ttl now, .int 1)) := by
  intro p
  cases hown : ownsAt now s.readers token with
  | true => exact .inl ⟨rfl, if_pos hown⟩
  | false =>
      have hstep : rwReadLock t token ttl now wt s =
          rwReadDecide token ttl now (rwReadSeq token s) p := by
        rw [rwReadLock, hown]
        rfl
      have hwriterp : p.writer = s.writer := RWStore.prepare_writer ..
      rw [hstep, rwReadDecide, hwriterp]
      by_cases hwriter : s.writer.get ≠ none
      · exact .inr (.inl ⟨rfl, if_pos hwriter⟩)
      rw [if_neg hwriter]
      cases hahead : (p.queue.below (rwReadSeq token s)).any isWriterMember with
      | true => exact .inr (.inl ⟨rfl, if_pos rfl⟩)
      | false =>
          refine .inr (.inr ⟨rfl, Slot.get_eq_none_iff.mp (by simpa using hwriter), rfl, ?_⟩)
          rfl

/-- What is enough for `rw_write_lock` to grant. -/
theorem rwWriteLock_granted {s : RWStore} (t : Int) (token : String) (now wt : Int)
    (hw : s.writer = .absent) (hr : s.readers.remUpTo now = ∅) (httl : 0 < ttl)
    (hhead : (s.prepare t (writerMember token) now wt).queue.head? = none ∨
      (s.prepare t (writerMember token) now wt).queue.head? = some (writerMember token)) :
    (rwWriteLock t token ttl now wt s).2 = .number (s.fencing.getD 0 + 1) := by
  have hown : s.writer.get ≠ some token := by
    rw [hw]
    nofun
  have hfree : ¬(s.prepare t (writerMember token) now wt).writer.get ≠ none := by
    rw [RWStore.prepare_writer, hw]
    exact fun hne => hne rfl
  rw [rwWriteLock, if_neg hown, rwWriteDecide, if_neg, if_neg hfree]
  · have hcard : ¬(∅ : Permits).card > 0 := Nat.lt_irrefl 0
    simp only [RWStore.prepare_readers, hr, if_neg hcard, RWStore.prepare_fencing]
    rw [if_neg (by omega)]
  · rintro ⟨hne, hne'⟩
    exact hhead.elim hne hne'

/-- What is enough for `rw_read_lock` to grant. -/
theorem rwReadLock_granted {s : RWStore} (t : Int) (token : String) (ttl now wt : Int)
    (hw : s.writer = .absent)
    (hahead : ((s.prepare t (readerMember token) now wt).queue.below (rwReadSeq token s)).any
      isWriterMember = false) :
    (rwReadLock t token ttl now wt s).2 = .int 1 := by
  rw [rwReadLock]
  split
  · rfl
  · rw [rwReadDecide, RWStore.prepare_writer, hw, if_neg (fun hne => hne rfl), hahead]
    rfl

/-- A reader never touches the writer key, nor the counter. -/
theorem rwReadLock_writer (t : Int) (token : String) (ttl now wt : Int) (s : RWStore) :
    (rwReadLock t token ttl now wt s).1.writer = s.writer ∧
      (rwReadLock t token ttl now wt s).1.fencing = s.fencing := by
  rcases rwReadLock_cases t token ttl now wt s with ⟨-, heq⟩ | ⟨-, heq⟩ | ⟨-, -, -, heq⟩ <;> rw [heq]
  · exact ⟨rfl, rfl⟩
  · exact ⟨RWStore.prepare_writer .., RWStore.prepare_fencing ..⟩
  · exact ⟨RWStore.prepare_writer .., RWStore.prepare_fencing ..⟩

/-- It touches no other reader. -/
theorem rwReadLock_score_of_ne (t ttl now wt : Int) (s : RWStore) (h : m ≠ token) :
    (rwReadLock t token ttl now wt s).1.readers.score m = s.readers.score m := by
  rcases rwReadLock_cases t token ttl now wt s with ⟨-, heq⟩ | ⟨-, heq⟩ | ⟨-, -, -, heq⟩ <;> rw [heq]
  · rw [RWStore.prepare_readers]
  · rw [RWStore.grantReader, RWStore.prepare_readers, ZSet.score_add_of_ne _ _ h]

/-- `rw_write_lock` moves nobody else's deadline. -/
theorem storedBy_rwWriteLock (hne : a ≠ b) (t ttl now wt : Int) (s : RWStore) :
    storedBy b (rwWriteLock t a ttl now wt s).1.writer = storedBy b s.writer := by
  rcases rwWriteLock_cases t a ttl now wt s with
    ⟨-, heq⟩ | ⟨-, z, r, -, -, heq⟩ | ⟨hfree, -, -, -, heq⟩ <;> rw [heq]
  · rw [RWStore.prepare_writer]
  · exact storedBy_eq_of_foreign hne (.inr (by rw [hfree]; rfl)) (.inl rfl)

/-- A writer only lets expired readers go. -/
theorem rwWriteLock_readers (t : Int) (token : String) (ttl now wt : Int) (s : RWStore) :
    (rwWriteLock t token ttl now wt s).1.readers = s.readers ∨
      (rwWriteLock t token ttl now wt s).1.readers = s.readers.remUpTo now := by
  rcases rwWriteLock_cases t token ttl now wt s with
    ⟨-, heq⟩ | ⟨-, z, r, hz, -, heq⟩ | ⟨-, -, -, -, heq⟩ <;> rw [heq]
  · exact .inl rfl
  · exact hz
  · exact .inr (by rw [RWStore.grantWriter, RWStore.prepare_readers])

end Distsync
