import Distsync.RW.Lease
import Distsync.RW.Progress

/-!
# Distsync.RWMutex

The acquisition calls of `RWMutex`.  `Lock` and `RLock` repeat an attempt
until it is granted or the context ends; `TryLock` and `TryRLock` make one.  A
refused attempt leaves an entry in the queue, and a call that gives up after
one takes the entry back with `Dequeue`.

It does so only where it gives up between two attempts.  When the context
ends an attempt instead, before it is sent or while it is in flight, or the
transport fails, the call returns at once, and what earlier attempts (or this one)
left in the queue stays there.

A call is followed together with everything that is not its own doing: the
commands of all others, the times at which its commands are executed, what
becomes of them on the way, and when the context ends.
-/

namespace Distsync

open Redis

/-! ## One call and what happens to it -/

/-- The lease object behind one call, with its TTL in nanoseconds. -/
structure Contender where
  role : Role
  id : String
  ttl : Int

/-- The entry name in the arrival queue. -/
def Contender.member (c : Contender) : String := c.role.member c.id

/-- Anything but an attempt for this contender. -/
def Contender.Foreign (c : Contender) (cmd : RWCmd) : Prop :=
  ∀ a, cmd.attempt = some a → a.member ≠ c.member

/-- What everybody else has the server do, with the server times. -/
structure Others (c : Contender) where
  cmds : List (Int × RWCmd)
  foreign : ∀ x ∈ cmds, c.Foreign x.2

def Others.run (e : Others c) (s : RWStore) : RWStore :=
  e.cmds.foldl (fun s x => (x.2.exec x.1 s).1) s

/-- Nothing happens. -/
def Others.quiet (c : Contender) : Others c := ⟨[], nofun⟩

/-- What becomes of the command of one attempt. -/
inductive Delivery where
  /-- The context had ended before it was sent. -/
  | unsent
  /-- The context ended while it was in flight; the server may have executed
  it. -/
  | inFlight (executed : Option Int)
  /-- The transport failed; the server may have executed it. -/
  | lost (executed : Option Int)
  /-- The server executed it, and the answer was back at client time `back`. -/
  | answered (executed back : Int)

/-- What the loop finds after a refused attempt. -/
inductive Pause where
  /-- `ctx.Err() != nil`. -/
  | err
  /-- The select takes `ctx.Done()`. -/
  | done
  /-- The select takes the timer. -/
  | elapsed

/-- The two commands of one `Dequeue`, among those of others. -/
structure Dequeue (c : Contender) where
  before : Others c
  zremAt : Int
  between : Others c
  hdelAt : Int

/-- `Dequeue`. -/
def Dequeue.run (d : Dequeue c) (s : RWStore) : RWStore :=
  (RWCmd.exec d.hdelAt (.hdel c.member)
    (d.between.run (RWCmd.exec d.zremAt (.zrem c.member) (d.before.run s)).1)).1

/-- What happens in one iteration: `start` is read before the attempt is sent,
`releaseAt` is when the server executes the release of a late grant, if it gets
to it. -/
structure Round (c : Contender) where
  before : Others c
  start : Int
  delivery : Delivery
  releaseAt : Option Int
  pause : Pause
  dequeue : Dequeue c

/-! ## The calls -/

/-- How one attempt ended. -/
inductive Outcome where
  | granted (fence : Nat)
  | busy
  /-- Granted too late; whether the grant was given back. -/
  | late (released : Bool)
  /-- Any other error of the script. -/
  | failed
  | unsent
  /-- Ended by the context; if the server executed it, whether it granted. -/
  | inFlight (granted : Option Bool)
  /-- Ended by a transport error; likewise. -/
  | lost (granted : Option Bool)
deriving DecidableEq

/-- What a call returns. -/
inductive CallResult where
  | guard (fence : Nat)
  | errNotAcquired
  | errLost
  | errScript
  /-- The error of the context. -/
  | errContext
  | errTransport
deriving DecidableEq

/-- What a call returns that ends with the attempt. -/
def Outcome.result : Outcome → CallResult
  | granted fence => .guard fence
  | busy => .errNotAcquired
  | late _ => .errLost
  | failed => .errScript
  | unsent | inFlight _ => .errContext
  | lost _ => .errTransport

/-- The store, the outcomes of the attempts, and the result of a call, if it
has returned. -/
abbrev CallRun := RWStore × List Outcome × Option CallResult

namespace Contender

def lockCmd (c : Contender) (start : Int) : RWCmd := c.role.lockCmd c.id c.ttl start

/-- The attempt as the queue sees it. -/
def attempt (c : Contender) (start : Int) : Attempt :=
  ⟨c.member, milliseconds c.ttl, unixMilli start, waiterTimeout c.ttl⟩

theorem attempt_lockCmd (c : Contender) (start : Int) :
    (c.lockCmd start).attempt = some (c.attempt start) := by
  rw [lockCmd, attempt, member]
  cases c.role <;> rfl

/-- The fencing token of the guard; read guards carry 0. -/
def fence (c : Contender) (r : Reply) : Nat :=
  match c.role, r with
  | .writer, .int n => n
  | _, _ => 0

/-- `discardLateGrant`. -/
def discardLateGrant (c : Contender) (releaseAt : Option Int) (s : RWStore) : RWStore × Outcome :=
  match releaseAt with
  | none => (s, .late false)
  | some t => (((c.role.releaseCmd c.id).exec t s).1, .late true)

/-- `RWWriter.TryAcquire` and `RWReader.Acquire`. -/
def tryAcquire (c : Contender) (r : Round c) (s : RWStore) : RWStore × Outcome :=
  let s := r.before.run s
  match r.delivery with
  | .unsent => (s, .unsent)
  | .inFlight none => (s, .inFlight none)
  | .inFlight (some t) =>
      let x := (c.lockCmd r.start).exec t s
      (x.1, .inFlight (some x.2.isInt))
  | .lost none => (s, .lost none)
  | .lost (some t) =>
      let x := (c.lockCmd r.start).exec t s
      (x.1, .lost (some x.2.isInt))
  | .answered t back =>
      let x := (c.lockCmd r.start).exec t s
      match acquireResult r.start c.ttl back x.2 with
      | .busy => (x.1, .busy)
      | .failed => (x.1, .failed)
      | .late => c.discardLateGrant r.releaseAt x.1
      | .granted _ _ => (x.1, .granted (c.fence x.2))

/-- The loop of `Lock` and `RLock`. -/
def acquireLoop (c : Contender) : List (Round c) → RWStore → CallRun
  | [], s => (s, [], none)
  | r :: rs, s =>
      match c.tryAcquire r s with
      | (s', .busy) =>
          match r.pause with
          | .err | .done => (r.dequeue.run s', [.busy], some .errContext)
          | .elapsed =>
              let x := acquireLoop c rs s'
              (x.1, .busy :: x.2.1, x.2.2)
      | (s', o) => (s', [o], some o.result)

/-- The body of `TryLock` and `TryRLock`. -/
def acquireOnce (c : Contender) : List (Round c) → RWStore → CallRun
  | [], s => (s, [], none)
  | r :: _, s =>
      match c.tryAcquire r s with
      | (s', .busy) => (r.dequeue.run s', [.busy], some .errNotAcquired)
      | (s', o) => (s', [o], some o.result)

end Contender

namespace RWMutex

/-- `RWMutex.Lock`. -/
def lock (id : String) (ttl : Int) := Contender.acquireLoop ⟨.writer, id, ttl⟩

/-- `RWMutex.TryLock`. -/
def tryLock (id : String) (ttl : Int) := Contender.acquireOnce ⟨.writer, id, ttl⟩

/-- `RWMutex.RLock`. -/
def rLock (id : String) (ttl : Int) := Contender.acquireLoop ⟨.reader, id, ttl⟩

/-- `RWMutex.TryRLock`. -/
def tryRLock (id : String) (ttl : Int) := Contender.acquireOnce ⟨.reader, id, ttl⟩

end RWMutex

/-- The four calls. -/
inductive Call where
  | lock
  | tryLock
  | rLock
  | tryRLock
deriving DecidableEq

namespace Call

def role : Call → Role
  | lock | tryLock => .writer
  | rLock | tryRLock => .reader

def retries : Call → Bool
  | lock | rLock => true
  | tryLock | tryRLock => false

/-- The contender of a call whose lease object got the token `id`. -/
def contender (call : Call) (id : String) (ttl : Int) : Contender := ⟨call.role, id, ttl⟩

def run (call : Call) (id : String) (ttl : Int) :
    List (Round (call.contender id ttl)) → RWStore → CallRun :=
  match call with
  | lock => RWMutex.lock id ttl
  | tryLock => RWMutex.tryLock id ttl
  | rLock => RWMutex.rLock id ttl
  | tryRLock => RWMutex.tryRLock id ttl

theorem run_eq (call : Call) (id : String) (ttl : Int) :
    call.run id ttl = if call.retries then (call.contender id ttl).acquireLoop
      else (call.contender id ttl).acquireOnce := by
  cases call <;> rfl

end Call

end Distsync
