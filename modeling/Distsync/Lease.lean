import Distsync.Redis.Reply
import Mathlib.Logic.Function.Basic
import Mathlib.Tactic.Common

/-!
# Distsync.Lease

The client side that every lease kind shares: the clock arithmetic of
`lease.go` and what `TryAcquire`, `Renew` and `Release` do to the lease object
before a command is sent and after its answer arrives.

Instants and durations are integers counting nanoseconds, as Go's `time`
package has them; a lease that is not held has no `expiresAt`.
-/

namespace Distsync

open Redis

/-! ## Clock arithmetic -/

/-- `time.Time.UnixMilli`: whole milliseconds, rounded down. -/
def unixMilli (t : Int) : Int := t / 1000000

/-- `time.Duration.Milliseconds`: whole milliseconds, rounded toward zero. -/
def milliseconds (d : Int) : Int := d.tdiv 1000000

/-- The local deadline of a request sent at `start`: the TTL less one percent
and one millisecond. -/
def requestExpiry (start ttl : Int) : Int := start + (ttl - ttl.tdiv 100 - 1000000)

/-- How long a queue entry may go silent, in milliseconds.  In Go the product is
an `int64`, which it fits for TTLs below 2^62 ns, some 146 years. -/
def waiterTimeout (ttl : Int) : Int := milliseconds (ttl * 2)

/-- A TTL of a whole number of milliseconds, at least two. -/
structure WholeTtl where
  ms : Nat
  two_le : 2 ≤ ms

/-- One second. -/
def WholeTtl.second : WholeTtl := ⟨1000, by decide⟩

/-- The TTL as the Go side holds it. -/
def WholeTtl.ns (T : WholeTtl) : Int := T.ms * 1000000

@[simp] theorem WholeTtl.milliseconds_ns (T : WholeTtl) : milliseconds T.ns = T.ms := by
  rw [milliseconds, ns, Int.mul_tdiv_cancel _ (by decide)]

theorem WholeTtl.ms_pos (T : WholeTtl) : (0 : Int) < T.ms := by
  have := T.two_le
  omega

theorem WholeTtl.milliseconds_pos (T : WholeTtl) : 0 < milliseconds T.ns := by
  rw [milliseconds_ns]
  exact T.ms_pos

theorem WholeTtl.tdiv_ns_nonneg (T : WholeTtl) : 0 ≤ T.ns.tdiv 100 :=
  Int.tdiv_nonneg (by rw [ns]; omega) (by decide)

/-- For whole-millisecond TTLs the percentage is exact. -/
theorem requestExpiry_ns (start : Int) (T : WholeTtl) :
    requestExpiry start T.ns = start + T.ms * 990000 - 1000000 := by
  have hdiv : T.ns.tdiv 100 = T.ms * 10000 := by
    rw [WholeTtl.ns, show (T.ms : Int) * 1000000 = T.ms * 10000 * 100 by omega,
      Int.mul_tdiv_cancel _ (by decide)]
  rw [requestExpiry, hdiv, WholeTtl.ns]
  omega

theorem requestExpiry_mono (T : WholeTtl) (h : start ≤ start') :
    requestExpiry start T.ns ≤ requestExpiry start' T.ns := by
  rw [requestExpiry_ns, requestExpiry_ns]
  omega

theorem unixMilli_le (t : Int) : unixMilli t * 1000000 ≤ t := by
  rw [unixMilli]
  omega

theorem lt_unixMilli_add (t : Int) : t < unixMilli t * 1000000 + 1000000 := by
  rw [unixMilli]
  omega

theorem unixMilli_mono (h : t ≤ t') : unixMilli t ≤ unixMilli t' := by
  rw [unixMilli, unixMilli]
  omega

/-- The score a request writes covers the local deadline of any request sent
at most a hundredth of the TTL and a millisecond after its timestamp. -/
theorem requestExpiry_le_score_of_le (T : WholeTtl)
    (h : start' ≤ unixMilli start * 1000000 + T.ns.tdiv 100 + 1000000) :
    requestExpiry start' T.ns ≤ (unixMilli start + T.ms) * 1000000 := by
  rw [requestExpiry]
  have hns : T.ns = T.ms * 1000000 := rfl
  omega

/-- In particular its own. -/
theorem requestExpiry_le_score (start : Int) (T : WholeTtl) :
    requestExpiry start T.ns ≤ (unixMilli start + T.ms) * 1000000 := by
  have hlt := lt_unixMilli_add start
  have hdiv := T.tdiv_ns_nonneg
  exact requestExpiry_le_score_of_le T (by omega)

/-! ## Lease calls -/

/-- What one `TryAcquire` (or `Acquire`) makes of the script's answer. -/
inductive AcquireResult where
  /-- `ErrBusy`. -/
  | busy
  /-- Any other error of the script. -/
  | failed
  /-- A grant that arrived after its own deadline and is discarded. -/
  | late
  /-- The local deadline, and the number that the script answered. -/
  | granted (deadline : Int) (n : Nat)
deriving DecidableEq

/-- The tail of `TryAcquire`: `start` was read before the request was sent,
`now` is read after the answer arrived. -/
def acquireResult (start ttl now : Int) : Reply → AcquireResult
  | .nil => .busy
  | .err => .failed
  | .int n =>
      if now < requestExpiry start ttl then .granted (requestExpiry start ttl) n else .late

/-- The tail of `Renew` once the script has answered 1: the new `expiresAt`,
or `none` for `ErrLost`.  Without an `expiresAt` (Go's zero time) the lease is
never still valid. -/
def renewResult (expiresAt : Option Int) (deadline now : Int) : Option Int :=
  match expiresAt with
  | none => none
  | some current =>
      if current ≤ now ∨ deadline ≤ now then none
      else some (if current < deadline then deadline else current)

/-! ## A lease object and its calls in flight -/

/-- Where a lease object is in its acquisition.  Callers repeat an attempt
only after `ErrBusy`; any other error, and a late grant, ends the object. -/
inductive Phase where
  | idle
  /-- An attempt sent at `start`, with the answers of its executions, the last one
  first. -/
  | calling (start : Int) (answers : List Reply)
  /-- Granted with the number `n`, which `TryAcquire` returns. -/
  | held (start : Int) (n : Nat)
  /-- An attempt sent at `start` ended in an error. -/
  | failed (start : Int)
  | late
deriving DecidableEq

/-- An attempt has returned with a grant. -/
def Phase.granted : Phase → Bool
  | held _ _ | late => true
  | idle | calling _ _ | failed _ => false

theorem Phase.held_or_late {p : Phase} (h : p.granted = true) :
    (∃ start n, p = .held start n) ∨ p = .late := by
  cases p with
  | held start n => exact .inl ⟨start, n, rfl⟩
  | late => exact .inr rfl
  | idle | calling | failed => contradiction

/-- A `Renew` call: when it was sent, whether an execution of it answered 1,
and whether its caller is still waiting. -/
structure Renewal where
  start : Int
  ok : Bool
  running : Bool
deriving DecidableEq

/-- A lease object with the calls made on it.  `releasing` is set when the
first `Release` starts, `discardLateGrant` included. -/
structure LeaseObj where
  phase : Phase
  expiresAt : Option Int
  releasing : Bool
  renewals : Nat → Option Renewal

/-- An entry of an updated table is the new one or one that was there. -/
theorem update_eq_some {f : Nat → Option α} (h : Function.update f k (some a) k' = some b) :
    k' = k ∧ b = a ∨ k' ≠ k ∧ f k' = some b := by
  by_cases he : k' = k
  · rw [he, Function.update_self] at h
    exact .inl ⟨he, (Option.some.inj h).symm⟩
  · rw [Function.update_of_ne he] at h
    exact .inr ⟨he, h⟩

namespace LeaseObj

/-- A lease object as its constructor returns it. -/
def fresh : LeaseObj := ⟨.idle, none, false, fun _ => none⟩

/-- The attempt is sent. -/
def acquireStart (now : Int) (o : LeaseObj) : LeaseObj := { o with phase := .calling now [] }

/-- The script answered an execution of the attempt. -/
def acquireReply (start : Int) (answers : List Reply) (r : Reply) (o : LeaseObj) : LeaseObj :=
  { o with phase := .calling start (r :: answers) }

/-- The attempt ended in a transport error. -/
def acquireFail (start : Int) (o : LeaseObj) : LeaseObj := { o with phase := .failed start }

/-- `TryAcquire` returns with the answer `r`. -/
def acquireReturn (start ttl now : Int) (r : Reply) (o : LeaseObj) : LeaseObj :=
  match acquireResult start ttl now r with
  | .busy => { o with phase := .idle }
  | .failed => { o with phase := .failed start }
  | .late => { o with phase := .late, releasing := true }
  | .granted deadline n => { o with phase := .held start n, expiresAt := some deadline }

/-- A `Renew` call is sent. -/
def renewStart (k : Nat) (now : Int) (o : LeaseObj) : LeaseObj :=
  { o with renewals := Function.update o.renewals k (some ⟨now, false, true⟩) }

/-- An execution of the call answered 1. -/
def renewReply (k : Nat) (r : Renewal) (o : LeaseObj) : LeaseObj :=
  { o with renewals := Function.update o.renewals k (some { r with ok := true }) }

/-- `Renew` returns: with the answer 1 when `confirmed`, else with an error. -/
def renewReturn (k : Nat) (r : Renewal) (ttl now : Int) (confirmed : Bool) (o : LeaseObj) :
    LeaseObj :=
  { o with
    renewals := Function.update o.renewals k (some { r with running := false })
    expiresAt :=
      if confirmed then (renewResult o.expiresAt (requestExpiry r.start ttl) now).or o.expiresAt
      else o.expiresAt }

/-- `Release` starts. -/
def releaseStart (o : LeaseObj) : LeaseObj := { o with releasing := true }

/-- `Release` returns after a definitive answer. -/
def releaseReturn (o : LeaseObj) : LeaseObj := { o with expiresAt := none }

@[simp] theorem acquireStart_phase (now : Int) (o : LeaseObj) :
    (o.acquireStart now).phase = .calling now [] := rfl

@[simp] theorem acquireReply_phase (start : Int) (answers : List Reply) (r : Reply) (o : LeaseObj) :
    (o.acquireReply start answers r).phase = .calling start (r :: answers) := rfl

@[simp] theorem acquireFail_phase (start : Int) (o : LeaseObj) :
    (o.acquireFail start).phase = .failed start := rfl

@[simp] theorem releaseReturn_releasing (o : LeaseObj) :
    o.releaseReturn.releasing = o.releasing := rfl

/-- The lease is locally valid at `now`: not being released, deadline ahead. -/
def Valid (now : Int) (o : LeaseObj) : Prop :=
  o.releasing = false ∧ ∃ deadline, o.expiresAt = some deadline ∧ now < deadline

/-- Whatever attempt of the object may still be executed was sent by `now`. -/
def Sent (now : Int) (o : LeaseObj) : Prop :=
  (∀ start answers, o.phase = .calling start answers → start ≤ now) ∧
    ∀ start, o.phase = .failed start → start ≤ now

theorem sent_fresh (now : Int) : fresh.Sent now := ⟨nofun, nofun⟩

theorem sent_acquireStart (now : Int) (o : LeaseObj) : (o.acquireStart now).Sent now := by
  refine ⟨?_, nofun⟩
  rintro _ _ ⟨⟩
  exact le_refl _

theorem Sent.mono {o : LeaseObj} (h : o.Sent now) (hle : now ≤ now') : o.Sent now' :=
  ⟨fun start answers hp => (h.1 start answers hp).trans hle,
    fun start hp => (h.2 start hp).trans hle⟩

theorem Sent.acquireReply {o : LeaseObj} (h : o.Sent now)
    (hphase : o.phase = .calling start answers) (ans : Reply) :
    (o.acquireReply start answers ans).Sent now := by
  refine ⟨?_, nofun⟩
  rintro _ _ ⟨⟩
  exact h.1 _ _ hphase

theorem Sent.acquireFail {o : LeaseObj} (h : o.Sent now)
    (hphase : o.phase = .calling start answers) : (o.acquireFail start).Sent now := by
  refine ⟨nofun, ?_⟩
  rintro _ ⟨⟩
  exact h.1 _ _ hphase

theorem Sent.acquireReturn {o : LeaseObj} (h : o.Sent now)
    (hphase : o.phase = .calling start answers) (ttl now' : Int) (ans : Reply) :
    (o.acquireReturn start ttl now' ans).Sent now := by
  rw [LeaseObj.acquireReturn]
  split
  · exact ⟨nofun, nofun⟩
  · exact h.acquireFail hphase
  · exact ⟨nofun, nofun⟩
  · exact ⟨nofun, nofun⟩

/-- One object of many moves on. -/
theorem Sent.update [DecidableEq ι] {now : ι → Int} {obj : ι → LeaseObj}
    (h : ∀ i, (obj i).Sent (now i)) {j : ι} {o : LeaseObj} (ho : o.Sent (now j)) (i : ι) :
    (Function.update obj j o i).Sent (now i) := by
  by_cases hij : i = j
  · rw [hij, Function.update_self]
    exact ho
  · rw [Function.update_of_ne hij]
    exact h i

@[simp] theorem acquireReturn_renewals (start ttl now : Int) (r : Reply) (o : LeaseObj) :
    (o.acquireReturn start ttl now r).renewals = o.renewals := by
  rw [acquireReturn]
  split <;> rfl

/-- A confirmed renewal leaves the deadline or, while it is still ahead, moves
it to its own. -/
theorem renewReturn_expiresAt (k : Nat) (r : Renewal) (ttl now : Int) (confirmed : Bool)
    (o : LeaseObj) :
    (o.renewReturn k r ttl now confirmed).expiresAt = o.expiresAt ∨
      (confirmed = true ∧ (∃ current, o.expiresAt = some current ∧ now < current) ∧
        (o.renewReturn k r ttl now confirmed).expiresAt = some (requestExpiry r.start ttl)) := by
  cases confirmed with
  | false => exact .inl rfl
  | true =>
      rw [renewReturn, if_pos rfl]
      cases o.expiresAt with
      | none => exact .inl rfl
      | some current =>
          rw [renewResult]
          by_cases hlost : current ≤ now ∨ requestExpiry r.start ttl ≤ now
          · rw [if_pos hlost]
            exact .inl rfl
          · rw [if_neg hlost]
            by_cases hlt : current < requestExpiry r.start ttl
            · rw [if_pos hlt]
              exact .inr ⟨rfl, ⟨current, rfl, by omega⟩, rfl⟩
            · rw [if_neg hlt]
              exact .inl rfl

end LeaseObj

/-! ## Conditions on the calls -/

/-- What is assumed of the calls on a lease object: when it may send a renewal,
when the server may execute one, and which of the answers of its executions an
attempt may return with. -/
structure Policy where
  mayStart : LeaseObj → Prop
  mayExec : WholeTtl → LeaseObj → Renewal → Prop
  mayReturn : List Reply → Reply → Prop

namespace Policy

/-- Renewals are sent and executed at any time, also before the grant, and the
answer of any execution may be the one that arrives. -/
def unrestricted : Policy := ⟨fun _ => True, fun _ _ _ => True, fun _ _ => True⟩

/-- One renewal at a time, executed while its caller waits. -/
def sequential : Policy where
  mayStart o := ∀ k q, o.renewals k = some q → q.running = false
  mayExec _ _ q := q.running = true
  mayReturn _ _ := True

/-- Renewals are sent only if `sends` holds of the object. -/
def sendingIf (sends : LeaseObj → Prop) (P : Policy) : Policy :=
  { P with mayStart := fun o => sends o ∧ P.mayStart o }

/-- Renewals are sent only after the grant. -/
def onceGranted (P : Policy) : Policy := P.sendingIf fun o => o.phase.granted = true

/-- Every attempt returns with the answer of its last execution. -/
def lastAnswer (P : Policy) : Policy :=
  { P with mayReturn := fun answers ans => answers.head? = some ans ∧ P.mayReturn answers ans }

/-- Renewals of a lease that was granted once, by the execution whose answer
arrived, overlap as they like and are executed in any order. -/
def afterGrant : Policy := unrestricted.onceGranted.lastAnswer

/-- Of these, no renewal is executed after one that was sent much later: at
most a hundredth of the TTL and a millisecond after the older one's
timestamp. -/
def inOrder : Policy :=
  { afterGrant with
    mayExec := fun T o q => ∀ k q', o.renewals k = some q' → q'.ok = true →
      q'.start ≤ unixMilli q.start * 1000000 + T.ns.tdiv 100 + 1000000 }

instance (answers : List Reply) (ans : Reply) : Decidable (unrestricted.mayReturn answers ans) :=
  inferInstanceAs (Decidable True)

instance (answers : List Reply) (ans : Reply) : Decidable (sequential.mayReturn answers ans) :=
  inferInstanceAs (Decidable True)

instance {P : Policy} (answers : List Reply) (ans : Reply)
    [h : Decidable (P.mayReturn answers ans)] : Decidable (P.onceGranted.mayReturn answers ans) := h

instance {P : Policy} (answers : List Reply) (ans : Reply) [Decidable (P.mayReturn answers ans)] :
    Decidable (P.lastAnswer.mayReturn answers ans) :=
  inferInstanceAs (Decidable (_ ∧ _))

instance (answers : List Reply) (ans : Reply) : Decidable (inOrder.mayReturn answers ans) :=
  inferInstanceAs (Decidable (unrestricted.onceGranted.lastAnswer.mayReturn answers ans))

/-- An attempt returns with the answer of its last execution. -/
def Last (P : Policy) : Prop := ∀ answers ans, P.mayReturn answers ans → answers.head? = some ans

theorem last_lastAnswer (P : Policy) : P.lastAnswer.Last := fun _ _ h => h.1

theorem last_inOrder : inOrder.Last := fun _ _ h => h.1

/-- Renewals are sent after the grant, one at a time, and executed while their
caller waits. -/
structure Orderly (P : Policy) : Prop where
  granted : ∀ o, P.mayStart o → o.phase.granted = true
  alone : ∀ o, P.mayStart o → ∀ k q, o.renewals k = some q → q.running = false
  running : ∀ T o q, P.mayExec T o q → q.running = true

end Policy

end Distsync
