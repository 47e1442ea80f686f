import Distsync.Server.Replay
import Distsync.RWMutex

/-!
# Distsync.Acquire

The acquisition calls of `Mutex`, `Semaphore` and `Leader`.  A call makes one
lease object, with an owner token that nobody has used.  `Lock`, `Acquire` and
`Run` repeat an attempt until it is granted or the context ends; `TryLock`,
`TryAcquire` and `TryRun` make one.

The transport may have the command of an attempt executed several times, and
may bring back the answer of any execution, or none.  A call is followed together
with all of that, and with everything that other owners have the server do
meanwhile.  `Request.settled` says what it leaves on the server when it returns,
if no attempt is executed again after the execution that it is answered from.
-/

namespace Distsync

open Redis

/-! ## One call and what happens to it -/

/-- What a call asks for.  `Semaphore` refuses to ask for no permit at all. -/
inductive Wanted where
  | owner (fencing : Bool)
  | permits (capacity : Nat) (n : Fin (2 ^ 53)) (pos : 0 < n.val)

/-- The lease object behind one call, with its TTL in nanoseconds. -/
structure Request where
  id : String
  ttl : Int
  wanted : Wanted

/-- One execution of a command of `a`, after what others had executed since the
one before. -/
structure Turn (a : String) where
  others : List (Foreign a)
  time : Int

/-- The keys as the command finds them. -/
def Turn.found (x : Turn a) (s : Server) : Server := (Foreign.runAll x.others s).evict x.time

namespace Request

/-- What happens in one iteration: `start` is read before the command is
sent. -/
structure Try (q : Request) where
  start : Int
  /-- Executions whose answer is lost. -/
  unheard : List (Turn q.id)
  /-- The execution that is answered, and when the answer is back.  Without one
  the attempt ends with an error of the transport or of the context. -/
  heard : Option (Turn q.id × Int)
  /-- Executions after the one that is answered. -/
  stray : List (Turn q.id)
  /-- Executions of the release of a late grant. -/
  giveBack : List (Turn q.id)
  /-- What others have executed between the last command and the end of the
  iteration. -/
  after : List (Foreign q.id)
  pause : Pause

/-- What `TryAcquire` of the lease object returns. -/
inductive TryEnd where
  | granted (fence : Nat)
  | errBusy
  /-- A late grant, discarded. -/
  | errLost
  | errScript
  /-- No answer. -/
  | errTransport
deriving DecidableEq

/-- What the call returns. -/
inductive CallEnd where
  | guard (fence : Nat)
  | errNotAcquired
  | errLost
  | errScript
  | errTransport
  /-- The context ended between two attempts. -/
  | errContext
deriving DecidableEq

/-- What a call returns that ends with the attempt. -/
def TryEnd.result : TryEnd → CallEnd
  | granted fence => .guard fence
  | errBusy => .errNotAcquired
  | errLost => .errLost
  | errScript => .errScript
  | errTransport => .errTransport

def kind (q : Request) : LeaseKind :=
  match q.wanted with
  | .owner _ => .singleOwner
  | .permits _ n _ => .permitSet n

/-- The command of an attempt that starts at `start`. -/
def cmd (q : Request) (start : Int) : OwnerCmd :=
  match q.wanted with
  | .owner fencing => .singleAcquire (milliseconds q.ttl) fencing
  | .permits capacity n _ => .semAcquire (unixMilli start) (milliseconds q.ttl) capacity n

/-- The fencing token of the guard; permits carry none. -/
def fence (q : Request) (r : Reply) : Nat :=
  match q.wanted, r with
  | .owner _, .int n => n
  | _, _ => 0

/-- One execution of the command. -/
def exec (q : Request) (start : Int) (x : Turn q.id) (s : Server) : Server × Reply :=
  (q.cmd start).run x.time q.id (x.found s)

/-- Executions whose answers are lost. -/
def execs (q : Request) (start : Int) (xs : List (Turn q.id)) (s : Server) : Server :=
  xs.foldl (fun s x => (q.exec start x s).1) s

/-- One execution of the release. -/
def execRelease (q : Request) (x : Turn q.id) (s : Server) : Server :=
  (q.kind.releaseCmd.run x.time q.id (x.found s)).1

/-- The end of `TryAcquire`, when the answer is back; a late grant is
discarded. -/
def answered (q : Request) (r : q.Try) (back : Int) (s : Server) (reply : Reply) :
    Server × TryEnd :=
  match acquireResult r.start q.ttl back reply with
  | .busy => (s, .errBusy)
  | .failed => (s, .errScript)
  | .late => (r.giveBack.foldl (fun s x => q.execRelease x s) s, .errLost)
  | .granted _ _ => (s, .granted (q.fence reply))

/-- An attempt up to its last command. -/
def commands (q : Request) (r : q.Try) (s : Server) : Server × TryEnd :=
  let s := q.execs r.start r.unheard s
  match r.heard with
  | none => (s, .errTransport)
  | some (x, back) =>
      let y := q.exec r.start x s
      q.answered r back (q.execs r.start r.stray y.1) y.2

/-- `SingleOwner.TryAcquire` and `PermitSet.TryAcquire`. -/
def tryAcquire (q : Request) (r : q.Try) (s : Server) : Server × TryEnd :=
  (Foreign.runAll r.after (q.commands r s).1, (q.commands r s).2)

/-- The loop of `Mutex.Lock`, `Semaphore.Acquire` and `Leader.Run`: the keys
and, once it has returned, its last attempt and the result. -/
def acquireLoop (q : Request) : List q.Try → Server → Server × Option (q.Try × CallEnd)
  | [], s => (s, none)
  | r :: rs, s =>
      match q.tryAcquire r s with
      | (s', .errBusy) =>
          match r.pause with
          | .err | .done => (s', some (r, .errContext))
          | .elapsed => acquireLoop q rs s'
      | (s', e) => (s', some (r, e.result))

/-- The body of `Mutex.TryLock`, `Semaphore.TryAcquire` and `Leader.TryRun`. -/
def acquireOnce (q : Request) : List q.Try → Server → Server × Option (q.Try × CallEnd)
  | [], s => (s, none)
  | r :: _, s => ((q.tryAcquire r s).1, some (r, (q.tryAcquire r s).2.result))

/-- The blocking calls, and those that try once. -/
def call (q : Request) (retries : Bool) : List q.Try → Server → Server × Option (q.Try × CallEnd) :=
  if retries then q.acquireLoop else q.acquireOnce

end Request

namespace Mutex

/-- The lease object of `newLease`. -/
def request (id : String) (ttl : Int) : Request := ⟨id, ttl, .owner true⟩

/-- `Mutex.Lock`. -/
def lock (id : String) (ttl : Int) := (request id ttl).call true

/-- `Mutex.TryLock`. -/
def tryLock (id : String) (ttl : Int) := (request id ttl).call false

end Mutex

/-- The lease object of `Leader.Run` and `Leader.TryRun`. -/
def Leader.request (id : String) (ttl : Int) (fencing : Bool) : Request :=
  ⟨id, ttl, .owner fencing⟩

/-- The lease object of `Semaphore.Acquire` and `Semaphore.TryAcquire` for `n`
permits; for less than one they return an error. -/
def Semaphore.request (id : String) (ttl : Int) (capacity : Nat) (n : Fin (2 ^ 53)) :
    Option Request :=
  if h : 0 < n.val then some ⟨id, ttl, .permits capacity n h⟩ else none

/-! ## What other owners leave of a grant -/

namespace Foreign

/-- The command finds what expires at `e` expired, by the server's clock or by
the timestamp that it carries. -/
def Reaches (e : Int) (x : Foreign a) : Prop := e ≤ x.time ∨ ∃ now, x.cmd.sent = some now ∧ e ≤ now

theorem gone_runAll {k : LeaseKind} (es : List (Foreign a)) {s : Server}
    (h : k.Gone (s.holdings a)) : k.Gone ((runAll es s).holdings a) := by
  induction es generalizing s with
  | nil => exact h
  | cons x es ih =>
      have hevict := (s.lapses_evict x.time a).fades.gone h
      exact ih ((x.cmd.lapses_of_ne x.ne x.time _).fades.gone hevict)

/-- Other owners leave a grant as it is, or take all of it once it has
expired. -/
theorem expiresAt_runAll {k : LeaseKind} (es : List (Foreign a)) {s : Server}
    (h : k.ExpiresAt e (s.holdings a)) :
    k.ExpiresAt e ((runAll es s).holdings a) ∨
      k.Gone ((runAll es s).holdings a) ∧ ∃ x ∈ es, x.Reaches e := by
  induction es generalizing s with
  | nil => exact .inl h
  | cons x es ih =>
      rcases (s.lapses_evict x.time a).expiresAt h with h | ⟨hgone, now, hnow, hle⟩
      · rcases (x.cmd.lapses_of_ne x.ne x.time _).expiresAt h with h | ⟨hgone, now, hsent, hle⟩
        · exact (ih h).imp_right fun ⟨hgone, y, hy, hreach⟩ =>
            ⟨hgone, y, List.mem_cons_of_mem _ hy, hreach⟩
        · exact .inr ⟨gone_runAll es hgone, x, List.mem_cons_self, .inr ⟨now, hsent, hle⟩⟩
      · cases hnow
        have hrun := (x.cmd.lapses_of_ne x.ne x.time _).fades.gone hgone
        exact .inr ⟨gone_runAll es hrun, x, List.mem_cons_self, .inl hle⟩

end Foreign

/-! ## One execution -/

namespace Request

/-- Where the counter is needed to answer a repeated command, it exists. -/
def Counted (q : Request) (s : Server) : Prop := q.wanted = .owner true → s.single.fencing ≠ none

/-- When a grant expires that is new at server time `t`. -/
def expiry (q : Request) (start t : Int) : Int :=
  q.kind.origin t (unixMilli start) + milliseconds q.ttl

/-- The grant that an execution at one of the times `ts` made is stored. -/
def Made (q : Request) (start : Int) (ts : List Int) (s : Server) : Prop :=
  ∃ t ∈ ts, q.kind.ExpiresAt (q.expiry start t) (s.holdings q.id)

/-- A call among executions of its command: its grant is one of theirs, or
gone. -/
def Inv (q : Request) (start : Int) (ts : List Int) (s : Server) : Prop :=
  q.kind.Gone (s.holdings q.id) ∨ q.Made start ts s ∧ q.Counted s

theorem kind_owner {q : Request} (h : q.wanted = .owner fencing) : q.kind = .singleOwner := by
  rw [kind, h]

/-- Others have what the call asks for. -/
def Taken (q : Request) (s : Server) : Prop :=
  match q.wanted with
  | .owner _ => ∃ other, s.single.lock.get = some other ∧ other ≠ q.id
  | .permits capacity n _ => capacity < s.permits.card + n

/-- The answer is no grant, and there is none. -/
def Refused (q : Request) (y : Server × Reply) : Prop :=
  q.kind.Gone (y.1.holdings q.id) ∧ (y.2 = .err ∨ y.2 = .nil ∧ q.Taken y.1)

theorem cmd_owner {q : Request} (hq : q.wanted = .owner fencing) (start t : Int) (s : Server) :
    (q.cmd start).run t q.id s =
      ({ s with single := (singleAcquire t q.id (milliseconds q.ttl) fencing s.single).1 },
        (singleAcquire t q.id (milliseconds q.ttl) fencing s.single).2) := by
  rw [cmd, hq]
  rfl

theorem cmd_permits {q : Request} (hq : q.wanted = .permits capacity n pos) (start t : Int)
    (s : Server) :
    (q.cmd start).run t q.id s =
      ({ s with permits := (semAcquire (unixMilli start) (milliseconds q.ttl) capacity
          (permitTokens q.id n) s.permits).1 },
        (semAcquire (unixMilli start) (milliseconds q.ttl) capacity
          (permitTokens q.id n) s.permits).2) := by
  rw [cmd, hq]
  rfl

/-- What an execution on keys that hold nothing expired makes of the grant, by
its answer. -/
def Answers (q : Request) (e : Int) (start t : Int) (y : Server × Reply) : Prop :=
  (∃ n, y.2 = .int n) ∧
      (q.kind.ExpiresAt e (y.1.holdings q.id) ∨
        q.kind.ExpiresAt (q.expiry start t) (y.1.holdings q.id)) ∧ q.Counted y.1 ∨
    q.Refused y

theorem answers_owner {q : Request} (hq : q.wanted = .owner fencing) (start t : Int) {s : Server}
    (h : q.kind.Gone (s.holdings q.id) ∨
      q.kind.ExpiresAt e (s.holdings q.id) ∧ q.Counted s) :
    q.Answers e start t ((q.cmd start).run t q.id s) := by
  have hk := kind_owner hq
  have hgone {s : Server} (hne : s.single.lock.get ≠ some q.id) :
      q.kind.Gone (s.holdings q.id) := by
    rw [hk]
    exact storedBy_of_ne hne
  rw [cmd_owner hq]
  rcases singleAcquire_cases t q.id (milliseconds q.ttl) fencing s.single with
    ⟨hown, heq⟩ | ⟨hne, heq⟩ | ⟨⟨other, hother, hne⟩, heq⟩ | ⟨-, -, heq⟩ <;> rw [heq]
  · -- the grant is there already
    rcases h with h | ⟨hexp, hcount⟩
    · rw [hk] at h
      exact absurd h (storedBy_ne_none_iff.mpr hown)
    refine .inl ⟨?_, .inl hexp, hcount⟩
    cases fencing with
    | false => exact ⟨0, rfl⟩
    | true =>
        obtain ⟨c, hc⟩ := Option.ne_none_iff_exists'.mp (hcount hq)
        exact ⟨toDouble c, by rw [if_pos rfl, hc]; rfl⟩
  · exact .inr ⟨hgone hne, .inl rfl⟩
  · refine .inr ⟨hgone ?_, .inr ⟨rfl, ?_⟩⟩
    · rw [hother]
      simpa using hne
    · rw [Taken, hq]
      exact ⟨other, hother, hne⟩
  · refine .inl ⟨?_, .inr ?_, ?_⟩
    · cases fencing
      · exact ⟨0, rfl⟩
      · exact ⟨_, rfl⟩
    · rw [expiry, hk]
      exact if_pos rfl
    · intro htrue
      cases hq.symm.trans htrue
      exact Option.some_ne_none _

theorem answers_permits {q : Request} (hq : q.wanted = .permits capacity n pos) (start t : Int)
    {s : Server} (h : q.kind.Gone (s.holdings q.id) ∨ q.kind.ExpiresAt e (s.holdings q.id)) :
    q.Answers e start t ((q.cmd start).run t q.id s) := by
  have hk : q.kind = .permitSet n := by rw [kind, hq]
  have hcount (s : Server) : q.Counted s := fun howner => nomatch hq.symm.trans howner
  -- what the reclamation leaves of a grant
  have hleft (i : Nat) := ZSet.score_remUpTo s.permits (unixMilli start) (permitToken q.id i)
  rw [hk] at h
  rw [cmd_permits hq, Answers, Refused, hk]
  rcases semAcquire_cases (unixMilli start) (milliseconds q.ttl) capacity (permitTokens q.id n)
    s.permits with ⟨hown, heq⟩ | ⟨⟨m, hm, hmiss⟩, hfull, heq⟩ | ⟨-, -, heq⟩ <;> rw [heq]
  · refine .inl ⟨⟨_, rfl⟩, .inl fun i hi => ?_, hcount _⟩
    obtain ⟨sc, hsc⟩ := hown _ (mem_permitTokens.mpr ⟨i, hi, rfl⟩)
    have hstored := (LeaseKind.score_remUpTo_eq_some.mp hsc).1
    rcases h with hgone | hexp
    · cases (hgone i hi).symm.trans hstored
    · cases (hexp i hi).symm.trans hstored
      exact hsc
  · obtain ⟨j, hj, rfl⟩ := mem_permitTokens.mp hm
    have htaken : q.Taken { s with permits := s.permits.remUpTo (unixMilli start) } := by
      rw [length_permitTokens] at hfull
      rw [Taken, hq]
      exact hfull
    refine .inr ⟨fun i hi => (hleft i).trans ?_, .inr ⟨rfl, htaken⟩⟩
    rcases h with hgone | hexp
    · rw [show s.permits.score (permitToken q.id i) = none from hgone i hi, Option.filter_none]
    · -- all permits have the score of the one that is missing
      have hdead : ¬unixMilli start < e := fun hlt => by
        rw [LeaseKind.score_remUpTo_eq_some.mpr ⟨hexp j hj, hlt⟩] at hmiss
        contradiction
      rw [show s.permits.score (permitToken q.id i) = some e from hexp i hi,
        Option.filter_some_neg (by simpa using hdead)]
  · refine .inl ⟨⟨_, rfl⟩, .inr fun i hi => ?_, hcount _⟩
    rw [expiry, hk]
    have hmem : permitToken q.id i ∈ permitTokens q.id n := mem_permitTokens.mpr ⟨i, hi, rfl⟩
    exact (ZSet.score_addAll ..).trans (if_pos hmem)

/-- The two kinds of request together. -/
theorem answers {q : Request} (start t : Int) {s : Server}
    (h : q.kind.Gone (s.holdings q.id) ∨ q.kind.ExpiresAt e (s.holdings q.id) ∧ q.Counted s) :
    q.Answers e start t ((q.cmd start).run t q.id s) := by
  cases hq : q.wanted with
  | owner fencing => exact answers_owner hq start t h
  | permits capacity n pos => exact answers_permits hq start t (h.imp_right And.left)

/-- Nobody deletes the counter. -/
theorem Counted.run {q : Request} (h : q.Counted s) (t : Int) (a : String) (c : OwnerCmd) :
    q.Counted (c.run t a s).1 := by
  intro hq
  have hsome := h hq
  cases c with
  | singleAcquire ttl fencing =>
      rcases singleAcquire_cases t a ttl fencing s.single with
        ⟨-, heq⟩ | ⟨-, heq⟩ | ⟨-, heq⟩ | ⟨-, -, heq⟩ <;> rw [OwnerCmd.run, heq]
      · exact hsome
      · exact hsome
      · exact hsome
      · cases fencing with
        | false => exact hsome
        | true => exact Option.some_ne_none _
  | singleRenew | singleRelease | semAcquire | semRenew | semRelease | readLock | writeLock
  | readerRenew | readerRelease | writerRenew | writerRelease | zrem | hdel => exact hsome

theorem Counted.runAll {q : Request} (h : q.Counted s) (es : List (Foreign q.id)) :
    q.Counted (Foreign.runAll es s) := by
  induction es generalizing s with
  | nil => exact h
  | cons x es ih =>
      have hevict : q.Counted (s.evict x.time) := h
      exact ih (hevict.run x.time x.owner x.cmd)

/-- Other owners leave the grant or take it. -/
theorem Inv.runAll {q : Request} (h : q.Inv start ts s) (es : List (Foreign q.id)) :
    q.Inv start ts (Foreign.runAll es s) := by
  rcases h with hgone | ⟨⟨t, ht, hexp⟩, hcount⟩
  · exact .inl (Foreign.gone_runAll es hgone)
  · rcases Foreign.expiresAt_runAll es hexp with hexp | ⟨hgone, -⟩
    · exact .inr ⟨⟨t, ht, hexp⟩, hcount.runAll es⟩
    · exact .inl hgone

theorem Inv.found {q : Request} (h : q.Inv start ts s) (x : Turn q.id) :
    q.Inv start ts (x.found s) := by
  have hevict := (Foreign.runAll x.others s).lapses_evict x.time q.id
  rcases h.runAll x.others with hgone | ⟨⟨t, ht, hexp⟩, hcount⟩
  · exact .inl (hevict.fades.gone hgone)
  · rcases hevict.expiresAt hexp with hexp | ⟨hgone, -⟩
    · exact .inr ⟨⟨t, ht, hexp⟩, hcount⟩
    · exact .inl hgone

theorem Inv.exec {q : Request} (h : q.Inv start ts s) (x : Turn q.id) :
    (∃ n, (q.exec start x s).2 = .int n) ∧ q.Made start (x.time :: ts) (q.exec start x s).1 ∧
        q.Counted (q.exec start x s).1 ∨
      q.Refused (q.exec start x s) := by
  rcases h.found x with hgone | ⟨⟨t, ht, hexp⟩, hcount⟩
  · refine (answers (e := q.expiry start x.time) start x.time (.inl hgone)).imp_left ?_
    rintro ⟨hans, hexp, hcount⟩
    exact ⟨hans, ⟨x.time, List.mem_cons_self, or_self_iff.mp hexp⟩, hcount⟩
  · refine (answers start x.time (.inr ⟨hexp, hcount⟩)).imp_left ?_
    rintro ⟨hans, hexp | hexp, hcount⟩
    · exact ⟨hans, ⟨t, List.mem_cons_of_mem _ ht, hexp⟩, hcount⟩
    · exact ⟨hans, ⟨x.time, List.mem_cons_self, hexp⟩, hcount⟩

theorem Inv.exec_fst {q : Request} (h : q.Inv start ts s) (x : Turn q.id) :
    q.Inv start (x.time :: ts) (q.exec start x s).1 :=
  (h.exec x).elim (fun h => .inr h.2) fun h => .inl h.1

theorem Inv.mono {q : Request} (h : q.Inv start ts s) (hsub : ts ⊆ ts') : q.Inv start ts' s :=
  h.imp_right fun ⟨⟨t, ht, hexp⟩, hcount⟩ => ⟨⟨t, hsub ht, hexp⟩, hcount⟩

/-- Executions one after the other. -/
theorem Inv.execs {q : Request} (h : q.Inv start ts s) (xs : List (Turn q.id))
    (hxs : ∀ x ∈ xs, x.time ∈ ts) :
    q.Inv start ts (q.execs start xs s) := by
  induction xs generalizing s with
  | nil => exact h
  | cons x xs ih =>
      obtain ⟨hx, hxs⟩ := List.forall_mem_cons.mp hxs
      exact ih ((h.exec_fst x).mono (List.cons_subset.mpr ⟨hx, List.Subset.refl ts⟩)) hxs

/-- The times at which the command of an attempt is executed. -/
def Try.times {q : Request} (r : q.Try) : List Int :=
  r.unheard.map Turn.time ++ (r.heard.map fun h => h.1.time).toList

/-- A grant of the attempt is stored, or it has expired since the last
command. -/
def Kept (q : Request) (r : q.Try) (s : Server) : Prop :=
  ∃ t ∈ r.times, q.kind.ExpiresAt (q.expiry r.start t) (s.holdings q.id) ∨
    q.kind.Gone (s.holdings q.id) ∧ ∃ x ∈ r.after, x.Reaches (q.expiry r.start t)

theorem Made.kept {q : Request} {r : q.Try} (h : q.Made r.start r.times s) :
    q.Kept r (Foreign.runAll r.after s) := by
  obtain ⟨t, ht, hexp⟩ := h
  exact ⟨t, ht, Foreign.expiresAt_runAll r.after hexp⟩

end Request

end Distsync
