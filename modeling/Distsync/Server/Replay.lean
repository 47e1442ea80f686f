import Distsync.Server.Verdicts

/-!
# Distsync.Server.Replay

How long a grant lasts, by the lease object and by the server.

A new grant lasts its TTL from the server's time, if it is a key, or from the
timestamp of the request, if it is a member of a set.  The object counts from
when it sent the request, less a margin for rounding.  The margin is one
millisecond and one percent, and two numbers are rounded
(`requestExpiry_le_stored_iff`).

A call that is repeated while its grant is stored is answered from the grant,
which is not extended.  The object counts from the repeated call all the same
(`TwoCalls.notOverstated_iff`).
-/

namespace Distsync

open Redis Trans

namespace LeaseKind

/-- The command of `Acquire`, or of `TryAcquire` for as many permits, sent at
client time `start`. -/
def acquireCmd (start ttl : Int) (fencing : Bool) (capacity : Nat) : LeaseKind → OwnerCmd
  | singleOwner => .singleAcquire (milliseconds ttl) fencing
  | permitSet n => .semAcquire (unixMilli start) (milliseconds ttl) capacity n
  | rwWriter => .writeLock (milliseconds ttl) (unixMilli start) (waiterTimeout ttl)
  | rwReader => .readLock (milliseconds ttl) (unixMilli start) (waiterTimeout ttl)

/-- Where the server counts the TTL of a new grant from: its own time `t` for a
key, the timestamp `now` for a member. -/
def origin (t now : Int) : LeaseKind → Int
  | singleOwner | rwWriter => t
  | permitSet _ | rwReader => now

/-- Every part of the grant is stored and expires at `e`. -/
def ExpiresAt (e : Int) (k : LeaseKind) (h : Holdings) : Prop :=
  match k with
  | singleOwner => h.lock = some (some e)
  | permitSet n => ∀ i < n.val, h.permit i = some e
  | rwWriter => h.writer = some (some e)
  | rwReader => h.reader = some e

/-- Every part of the grant that is stored expires at `e`. -/
def Dated (e : Int) (k : LeaseKind) (h : Holdings) : Prop :=
  match k with
  | singleOwner => ∀ d, h.lock = some d → d = some e
  | permitSet n => ∀ i < n.val, ∀ sc, h.permit i = some sc → sc = e
  | rwWriter => ∀ d, h.writer = some d → d = some e
  | rwReader => ∀ sc, h.reader = some sc → sc = e

/-- `k'` asks for nothing that `k` has not been granted. -/
def Covers : LeaseKind → LeaseKind → Prop
  | permitSet n, permitSet m => m ≤ n
  | k, k' => k = k'

theorem ExpiresAt.dated {k : LeaseKind} (h : k.ExpiresAt e hs) : k.Dated e hs := by
  cases k with
  | singleOwner => exact fun d hd => Option.some_inj.mp (hd.symm.trans h)
  | permitSet n => exact fun i hi sc hsc => Option.some_inj.mp (hsc.symm.trans (h i hi))
  | rwWriter => exact fun d hd => Option.some_inj.mp (hd.symm.trans h)
  | rwReader => exact fun sc hsc => Option.some_inj.mp (hsc.symm.trans h)

/-- A grant that has parts has one expiry. -/
theorem ExpiresAt.unique {k : LeaseKind} (h : k.ExpiresAt e hs) (hk : k.Sends)
    (h' : k.ExpiresAt e' hs) : e' = e := by
  cases k with
  | singleOwner => exact Option.some_inj.mp (Option.some_inj.mp (h'.symm.trans h))
  | permitSet n => exact Option.some_inj.mp ((h' 0 hk).symm.trans (h 0 hk))
  | rwWriter => exact Option.some_inj.mp (Option.some_inj.mp (h'.symm.trans h))
  | rwReader => exact Option.some_inj.mp (h'.symm.trans h)

theorem Dated.expiresAt {k : LeaseKind} (h : k.Dated e hs) (hw : k.Whole now hs) :
    k.ExpiresAt e hs := by
  cases k with
  | singleOwner =>
      obtain ⟨d, hd⟩ := Option.ne_none_iff_exists'.mp hw
      exact hd.trans (congrArg some (h d hd))
  | permitSet n =>
      intro i hi
      obtain ⟨sc, hsc, -⟩ := hw i hi
      exact hsc.trans (congrArg some (h i hi sc hsc))
  | rwWriter =>
      obtain ⟨d, hd⟩ := Option.ne_none_iff_exists'.mp hw
      exact hd.trans (congrArg some (h d hd))
  | rwReader =>
      obtain ⟨sc, hsc, -⟩ := hw
      exact hsc.trans (congrArg some (h sc hsc))

/-- The score of a live member survives the reclamation. -/
theorem score_remUpTo_eq_some {z : Permits} :
    (z.remUpTo now).score m = some sc ↔ z.score m = some sc ∧ now < sc := by
  rw [ZSet.score_remUpTo, Option.filter_eq_some_iff, decide_eq_true_iff]

/-- A grant that the server did not know of before expires its TTL after its
origin. -/
theorem expiresAt_of_new {k : LeaseKind} {a : String} {s : Server} {t start ttl : Int}
    {fencing : Bool} {capacity : Nat} (hnew : ¬k.Whole (unixMilli start) (s.holdings a))
    (hans : ((k.acquireCmd start ttl fencing capacity).run t a s).2 = .int n) :
    k.ExpiresAt (k.origin t (unixMilli start) + milliseconds ttl)
      (((k.acquireCmd start ttl fencing capacity).run t a s).1.holdings a) := by
  cases k with
  | singleOwner =>
      rcases singleAcquire_cases t a (milliseconds ttl) fencing s.single with
        ⟨hown, -⟩ | ⟨-, heq⟩ | ⟨-, heq⟩ | ⟨-, -, heq⟩
      · exact absurd (storedBy_ne_none_iff.mpr hown) hnew
      · rw [acquireCmd, OwnerCmd.run, heq] at hans
        contradiction
      · rw [acquireCmd, OwnerCmd.run, heq] at hans
        contradiction
      · rw [acquireCmd, OwnerCmd.run, heq]
        exact if_pos rfl
  | permitSet m =>
      rcases semAcquire_cases (unixMilli start) (milliseconds ttl) capacity (permitTokens a m)
        s.permits with ⟨hown, -⟩ | ⟨-, -, heq⟩ | ⟨-, -, heq⟩
      · refine absurd (fun i hi => ?_) hnew
        obtain ⟨sc, hsc⟩ := hown _ (mem_permitTokens.mpr ⟨i, hi, rfl⟩)
        exact ⟨sc, score_remUpTo_eq_some.mp hsc⟩
      · rw [acquireCmd, OwnerCmd.run, OwnerCmd.onPermits, heq] at hans
        contradiction
      · intro i hi
        rw [acquireCmd, OwnerCmd.run, OwnerCmd.onPermits, heq]
        have hmem : permitToken a i ∈ permitTokens a m := mem_permitTokens.mpr ⟨i, hi, rfl⟩
        exact (ZSet.score_addAll ..).trans (if_pos hmem)
  | rwWriter =>
      rcases rwWriteLock_cases t a (milliseconds ttl) (unixMilli start) (waiterTimeout ttl) s.rw with
        ⟨hown, -⟩ | ⟨-, z, r, -, hr, heq⟩ | ⟨-, -, -, -, heq⟩
      · exact absurd (storedBy_ne_none_iff.mpr hown) hnew
      · rw [acquireCmd, OwnerCmd.run, OwnerCmd.onRW, RWCmd.run, heq] at hans
        rcases hr with rfl | ⟨rfl, -⟩ <;> contradiction
      · rw [acquireCmd, OwnerCmd.run, OwnerCmd.onRW, RWCmd.run, heq]
        exact if_pos rfl
  | rwReader =>
      rcases rwReadLock_cases t a (milliseconds ttl) (unixMilli start) (waiterTimeout ttl) s.rw with
        ⟨hown, -⟩ | ⟨-, heq⟩ | ⟨-, -, -, heq⟩
      · exact absurd (ownsAt_iff.mp hown) hnew
      · rw [acquireCmd, OwnerCmd.run, OwnerCmd.onRW, RWCmd.run, heq] at hans
        contradiction
      · rw [acquireCmd, OwnerCmd.run, OwnerCmd.onRW, RWCmd.run, heq]
        exact ZSet.score_add_self ..

/-- An attempt that finds its grant leaves it as it is. -/
theorem expiresAt_of_replay {k k' : LeaseKind} (hc : k.Covers k') {a : String} {s : Server}
    {start : Int} (hw : k.Whole (unixMilli start) (s.holdings a))
    (he : k.ExpiresAt e (s.holdings a)) (t ttl : Int) (fencing : Bool) (capacity : Nat) :
    k'.ExpiresAt e (((k'.acquireCmd start ttl fencing capacity).run t a s).1.holdings a) := by
  cases k with
  | singleOwner =>
      obtain rfl : singleOwner = k' := by cases k' <;> exact hc
      have hsame : singleAcquire t a (milliseconds ttl) fencing s.single = (s.single, _) :=
        if_pos (storedBy_ne_none_iff.mp hw)
      rw [acquireCmd, OwnerCmd.run, hsame]
      exact he
  | permitSet n =>
      obtain ⟨m, rfl, hle⟩ : ∃ m, k' = permitSet m ∧ m ≤ n := by
        cases k' with
        | permitSet m => exact ⟨m, rfl, hc⟩
        | singleOwner | rwWriter | rwReader => cases hc
      have hlive (i : Nat) (hi : i < m.val) :
          (s.permits.remUpTo (unixMilli start)).score (permitToken a i) = some e := by
        have hsc := he i (hi.trans_le hle)
        obtain ⟨sc, hsc', hlt⟩ := hw i (hi.trans_le hle)
        cases hsc.symm.trans hsc'
        exact score_remUpTo_eq_some.mpr ⟨hsc, hlt⟩
      have hno : ¬∃ t ∈ permitTokens a m, (s.permits.remUpTo (unixMilli start)).score t = none := by
        rintro ⟨_, ht, hnone⟩
        obtain ⟨i, hi, rfl⟩ := mem_permitTokens.mp ht
        rw [hlive i hi] at hnone
        contradiction
      rcases semAcquire_cases (unixMilli start) (milliseconds ttl) capacity (permitTokens a m)
        s.permits with ⟨-, heq⟩ | ⟨hmiss, -⟩ | ⟨hmiss, -⟩
      · rw [acquireCmd, OwnerCmd.run, OwnerCmd.onPermits, heq]
        exact hlive
      · exact absurd hmiss hno
      · exact absurd hmiss hno
  | rwWriter =>
      obtain rfl : rwWriter = k' := by cases k' <;> exact hc
      have hsame : rwWriteLock t a (milliseconds ttl) (unixMilli start) (waiterTimeout ttl) s.rw =
          (s.rw, _) := if_pos (storedBy_ne_none_iff.mp hw)
      rw [acquireCmd, OwnerCmd.run, OwnerCmd.onRW, RWCmd.run, hsame]
      exact he
  | rwReader =>
      obtain rfl : rwReader = k' := by cases k' <;> exact hc
      have hsame : rwReadLock t a (milliseconds ttl) (unixMilli start) (waiterTimeout ttl) s.rw =
          (s.rw, _) := if_pos (ownsAt_iff.mpr hw)
      rw [acquireCmd, OwnerCmd.run, OwnerCmd.onRW, RWCmd.run, hsame]
      exact he

end LeaseKind

/-! ## Local deadlines -/

/-- **Local deadline**: the deadline of a request covers the rounding of its
timestamp and of its TTL exactly when the two fractions of a millisecond are
within one percent of the TTL and a millisecond.  What it is compared with is
what a new grant expires at, or is the earliest it can expire at where the
server counts by its own clock. -/
theorem requestExpiry_le_stored_iff {start ttl : Int} (httl : 0 < ttl) :
    (requestExpiry start ttl ≤ (unixMilli start + milliseconds ttl) * 1000000 ↔
        start % 1000000 + ttl % 1000000 ≤ ttl / 100 + 1000000) ∧
      ∀ (k : LeaseKind) (a : String) (s : Server) (t : Int) (fencing : Bool) (capacity n : Nat),
        unixMilli start ≤ t → ¬k.Whole (unixMilli start) (s.holdings a) →
        ((k.acquireCmd start ttl fencing capacity).run t a s).2 = .int n →
        ∃ e, k.ExpiresAt e (((k.acquireCmd start ttl fencing capacity).run t a s).1.holdings a) ∧
          unixMilli start + milliseconds ttl ≤ e ∧
          (k = .rwReader ∨ (∃ m, k = .permitSet m) → e = unixMilli start + milliseconds ttl) := by
  constructor
  · rw [requestExpiry, unixMilli, milliseconds, Int.tdiv_eq_ediv_of_nonneg httl.le,
      Int.tdiv_eq_ediv_of_nonneg httl.le]
    omega
  · intro k a s t fencing capacity n ht hnew hans
    refine ⟨_, LeaseKind.expiresAt_of_new hnew hans, ?_, ?_⟩
    · cases k <;> simp only [LeaseKind.origin] <;> omega
    · rintro (rfl | ⟨m, rfl⟩) <;> rfl

/-- **A deadline past the grant**: a TTL of 50.9 ms asked for at 0.9 ms.  The
server counts 50 ms from 0, and the object goes on for another 0.291 ms. -/
theorem requestExpiry_fractions :
    let start : Int := 900000
    let ttl : Int := 50900000
    let cmd := LeaseKind.rwReader.acquireCmd start ttl true 1
    0 < ttl ∧ requestExpiry start ttl = 50291000 ∧
      ((cmd.run (unixMilli start) "r" .init).1.holdings "r").reader = some 50 ∧
      unixMilli start + milliseconds ttl = 50 ∧
      ¬requestExpiry start ttl ≤ (unixMilli start + milliseconds ttl) * 1000000 := by
  decide +kernel

/-- A TTL of a hundred milliseconds or more has room for both fractions. -/
theorem requestExpiry_le_stored_hundred :
    requestExpiry 999999 100999999 ≤ (unixMilli 999999 + milliseconds 100999999) * 1000000 :=
  (requestExpiry_le_stored_iff (by decide)).1.mpr (by decide)

/-! ## What other owners leave of a grant -/

theorem Holdings.Lapses.dated {k : LeaseKind} {h h' : Holdings} (hl : h.Lapses bound h')
    (hd : k.Dated e h) : k.Dated e h' := by
  have hpart {α : Type} {before after : Option α} (hp : after = before ∨ after = none) {x : α}
      (hx : after = some x) : before = some x := by
    rcases hp with rfl | rfl
    · exact hx
    · contradiction
  cases k with
  | singleOwner => exact fun d h => hd d (hpart (hl.lock.imp_right And.left) h)
  | permitSet n => exact fun i hi sc h => hd i hi sc (hpart (hl.permit_or i) h)
  | rwWriter => exact fun d h => hd d (hpart (hl.writer.imp_right And.left) h)
  | rwReader => exact fun sc h => hd sc (hpart (hl.reader.imp_right And.left) h)

/-- A grant stays, or it has expired and all of it is gone. -/
theorem Holdings.Lapses.expiresAt {k : LeaseKind} {h h' : Holdings} (hl : h.Lapses bound h')
    (he : k.ExpiresAt e h) :
    k.ExpiresAt e h' ∨ k.Gone h' ∧ ∃ now, bound = some now ∧ e ≤ now := by
  have hkey {before after : Option (Option Int)} (hs : KeySpared bound before after)
      (hb : before = some (some e)) :
      after = some (some e) ∨ after = none ∧ ∃ now, bound = some now ∧ e ≤ now := by
    rcases hs with heq | ⟨hnone, d, now, hd, hbound, hle⟩
    · exact .inl (heq.trans hb)
    · cases hb.symm.trans hd
      exact .inr ⟨hnone, now, hbound, hle⟩
  cases k with
  | singleOwner => exact hkey hl.lock he
  | rwWriter => exact hkey hl.writer he
  | rwReader =>
      rcases hl.reader with heq | ⟨hnone, sc, now, hsc, hbound, hle⟩
      · exact .inl (heq.trans he)
      · cases (show h.reader = some e from he).symm.trans hsc
        exact .inr ⟨hnone, now, hbound, hle⟩
  | permitSet n =>
      rcases hl.permit with hsame | ⟨now, hbound, hcut⟩
      · exact .inl fun i hi => (hsame i).trans (he i hi)
      by_cases hlive : now < e
      · refine .inl fun i hi => ?_
        rw [hcut, he i hi, Option.filter_some_pos (by simpa using hlive)]
      · refine .inr ⟨fun i hi => ?_, now, hbound, not_lt.mp hlive⟩
        rw [hcut, he i hi, Option.filter_some_neg (by simpa using hlive)]

/-- A command that is executed for somebody else than `a`. -/
structure Foreign (a : String) where
  time : Int
  owner : String
  cmd : OwnerCmd
  ne : owner ≠ a

/-- Commands of other owners, one after the other. -/
def Foreign.runAll (es : List (Foreign a)) (s : Server) : Server :=
  es.foldl (fun s e => (e.cmd.run e.time e.owner (s.evict e.time)).1) s

theorem Foreign.dated_runAll {k : LeaseKind} (es : List (Foreign a)) {s : Server}
    (h : k.Dated e (s.holdings a)) : k.Dated e ((runAll es s).holdings a) := by
  induction es generalizing s with
  | nil => exact h
  | cons x es ih =>
      have hevict := (s.lapses_evict x.time a).dated h
      exact ih ((x.cmd.lapses_of_ne x.ne x.time _).dated hevict)

/-! ## Two calls on one object -/

/-- One call of `Acquire` or `TryAcquire`: when it is sent, executed and
answered, and the settings that it sends. -/
structure AcquireCall where
  start : Int
  time : Int
  now : Int
  fencing : Bool
  capacity : Nat

namespace LeaseClient

/-- What the answer to a request for `k` makes of the object: a permit set keeps
the tokens of a late grant, which goes on to `discardLateGrant`. -/
def answered (k : LeaseKind) (l : LeaseClient) : AcquireResult → LeaseClient
  | .granted deadline _ => { l with kind := k, expiresAt := some deadline }
  | .late => { l with kind := k }
  | .busy | .failed => l

/-- `Acquire` or `TryAcquire` of what `k` says, on keys that hold nothing
expired.  A call for no permits sends nothing. -/
def acquire (c : AcquireCall) (k : LeaseKind) (l : LeaseClient) (s : Server) :
    Server × LeaseClient × Option AcquireResult :=
  if k.Sends then
    let r := (k.acquireCmd c.start l.ttl c.fencing c.capacity).run c.time l.id s
    let result := acquireResult c.start l.ttl c.now r.2
    (r.1, l.answered k result, some result)
  else (s, l, none)

/-- The object does not count on its grant for longer than the server keeps
it. -/
def NotOverstated (l : LeaseClient) (s : Server) : Prop :=
  ∀ deadline e, l.expiresAt = some deadline → l.kind.ExpiresAt e (s.holdings l.id) →
    deadline ≤ e * 1000000

/-- What a call that succeeds has done. -/
theorem acquire_granted {c : AcquireCall} {k : LeaseKind} {l : LeaseClient} {s : Server}
    (h : (l.acquire c k s).2.2 = some (.granted deadline m)) :
    let r := (k.acquireCmd c.start l.ttl c.fencing c.capacity).run c.time l.id s
    k.Sends ∧ (∃ n, r.2 = .int n) ∧ (l.acquire c k s).1 = r.1 ∧
      (l.acquire c k s).2.1 =
        { l with kind := k, expiresAt := some (requestExpiry c.start l.ttl) } := by
  intro r
  rw [acquire] at h ⊢
  by_cases hk : k.Sends
  · rw [if_pos hk] at h ⊢
    have hresult : acquireResult c.start l.ttl c.now r.2 = .granted deadline m :=
      Option.some_inj.mp h
    cases hr : r.2 with
    | nil | err =>
        rw [hr] at hresult
        contradiction
    | int n =>
        rw [hr, acquireResult] at hresult
        split at hresult
        · next hlt =>
          refine ⟨hk, ⟨n, rfl⟩, rfl, ?_⟩
          change l.answered k (acquireResult c.start l.ttl c.now r.2) = _
          rw [hr, acquireResult, if_pos hlt]
          rfl
        · contradiction
  · rw [if_neg hk] at h
    contradiction

end LeaseClient

/-- Two calls on one object, and what is executed for other owners between
them. -/
structure TwoCalls (l : LeaseClient) where
  kind : LeaseKind
  first : AcquireCall
  others : List (Foreign l.id)
  kind' : LeaseKind
  second : AcquireCall

namespace TwoCalls

variable {l : LeaseClient} (x : TwoCalls l) (s : Server)

def afterFirst : Server × LeaseClient × Option AcquireResult :=
  l.acquire x.first x.kind (s.evict x.first.time)

/-- The keys as the second call finds them. -/
def found : Server := (Foreign.runAll x.others (x.afterFirst s).1).evict x.second.time

def afterSecond : Server × LeaseClient × Option AcquireResult :=
  (x.afterFirst s).2.1.acquire x.second x.kind' (x.found s)

/-- The first call is given a new grant, which is still stored when the second
comes and asks for no more; and both succeed. -/
structure Recovers : Prop where
  new : ¬x.kind.Whole (unixMilli x.first.start) ((s.evict x.first.time).holdings l.id)
  granted : ∃ deadline n, (x.afterFirst s).2.2 = some (.granted deadline n)
  covers : x.kind.Covers x.kind'
  stored : x.kind.Whole (unixMilli x.second.start) ((x.found s).holdings l.id)
  regranted : ∃ deadline n, (x.afterSecond s).2.2 = some (.granted deadline n)

variable {x s}

/-- The object and the server after the second call. -/
theorem Recovers.after (h : x.Recovers s) :
    (x.afterSecond s).2.1 =
        { l with kind := x.kind', expiresAt := some (requestExpiry x.second.start l.ttl) } ∧
      x.kind'.Sends ∧
      x.kind'.ExpiresAt
        (x.kind.origin x.first.time (unixMilli x.first.start) + milliseconds l.ttl)
        ((x.afterSecond s).1.holdings l.id) := by
  obtain ⟨d, m, hd⟩ := h.granted
  obtain ⟨d', m', hd'⟩ := h.regranted
  obtain ⟨-, ⟨n, hn⟩, hserver, hclient⟩ := LeaseClient.acquire_granted hd
  obtain ⟨hk, -, hserver', hclient'⟩ := LeaseClient.acquire_granted hd'
  have hfirst := LeaseKind.expiresAt_of_new h.new hn
  rw [← hserver] at hfirst
  -- until the second call, the grant stays or goes, but does not change
  have hdated := Foreign.dated_runAll x.others hfirst.dated
  have hfound := (Server.lapses_evict x.second.time _ l.id).dated hdated
  have hexpires := LeaseKind.expiresAt_of_replay h.covers h.stored (hfound.expiresAt h.stored)
    x.second.time l.ttl x.second.fencing x.second.capacity
  have hobject : (x.afterFirst s).2.1 = _ := hclient
  rw [afterSecond, hserver', hclient', hobject]
  exact ⟨rfl, hk, hexpires⟩

/-- **Recovered grants**: after a call that is answered from an earlier grant,
the object's deadline is within the server's exactly when the call was sent
within one percent of the TTL and a millisecond of where the server counts the
grant from. -/
theorem notOverstated_iff (h : x.Recovers s) {ms : Nat} (httl : l.ttl = ms * 1000000) :
    (x.afterSecond s).2.1.NotOverstated (x.afterSecond s).1 ↔
      x.second.start ≤ x.kind.origin x.first.time (unixMilli x.first.start) * 1000000 +
        l.ttl / 100 + 1000000 := by
  obtain ⟨hclient, hk, hexpires⟩ := h.after
  have hms : milliseconds l.ttl * 1000000 = l.ttl := by
    rw [milliseconds, httl, Int.mul_tdiv_cancel _ (by decide)]
  have hnonneg : 0 ≤ l.ttl := by omega
  have hwithin : requestExpiry x.second.start l.ttl ≤
        (x.kind.origin x.first.time (unixMilli x.first.start) + milliseconds l.ttl) * 1000000 ↔
      x.second.start ≤ x.kind.origin x.first.time (unixMilli x.first.start) * 1000000 +
        l.ttl / 100 + 1000000 := by
    rw [requestExpiry, Int.tdiv_eq_ediv_of_nonneg hnonneg]
    omega
  rw [hclient, ← hwithin]
  constructor
  · intro hle
    exact hle _ _ rfl hexpires
  · rintro hle _ e ⟨rfl⟩ he
    rwa [hexpires.unique hk he]

/-- A mutex with a TTL of a second that is acquired again after five
milliseconds: the margin is eleven. -/
theorem notOverstated_iff_soon :
    let l : LeaseClient := ⟨"a", .singleOwner, 1000000000, none⟩
    let x : TwoCalls l := ⟨.singleOwner, ⟨0, 0, 0, true, 1⟩, [], .singleOwner,
      ⟨5000000, 5, 5000000, true, 1⟩⟩
    x.Recovers .init ∧ (x.afterSecond .init).2.1.NotOverstated (x.afterSecond .init).1 := by
  intro l x
  have hrec : x.Recovers .init := by
    refine ⟨fun h => h rfl, ⟨989000000, 1, ?_⟩, rfl, ?_, ⟨994000000, 1, ?_⟩⟩
    · decide +kernel
    · change _ ≠ none
      decide +kernel
    · decide +kernel
  have httl : l.ttl = (1000 : Nat) * 1000000 := rfl
  exact ⟨hrec, (notOverstated_iff hrec httl).mpr (by decide +kernel)⟩

/-- **Deadlines past the grant**: with a TTL of a second, a call that is
repeated after half a second puts the object's deadline 489 ms after the
expiry of the lock key, and of a permit. -/
theorem recovered_deadline_past_grant :
    let l : LeaseClient := ⟨"a", .singleOwner, 1000000000, none⟩
    let l' : LeaseClient := ⟨"a", .permitSet 0, 1000000000, none⟩
    let first : AcquireCall := ⟨0, 0, 0, true, 1⟩
    let second : AcquireCall := ⟨500000000, 500, 500000000, true, 1⟩
    let x : TwoCalls l := ⟨.singleOwner, first, [], .singleOwner, second⟩
    let x' : TwoCalls l' := ⟨.permitSet 1, first, [], .permitSet 1, second⟩
    (x.Recovers .init ∧ (x.afterSecond .init).2.1.expiresAt = some 1489000000 ∧
        ((x.afterSecond .init).1.holdings "a").lock = some (some 1000) ∧
        ¬(x.afterSecond .init).2.1.NotOverstated (x.afterSecond .init).1) ∧
      (x'.Recovers .init ∧ (x'.afterSecond .init).2.1.expiresAt = some 1489000000 ∧
        ((x'.afterSecond .init).1.holdings "a").permit 0 = some 1000 ∧
        ¬(x'.afterSecond .init).2.1.NotOverstated (x'.afterSecond .init).1) := by
  intro l l' first second x x'
  have hlocal : (x.afterSecond .init).2.1.expiresAt = some 1489000000 := by decide +kernel
  have hkey : ((x.afterSecond .init).1.holdings "a").lock = some (some 1000) := by decide +kernel
  have hlocal' : (x'.afterSecond .init).2.1.expiresAt = some 1489000000 := by decide +kernel
  have hpermit : ((x'.afterSecond .init).1.holdings "a").permit 0 = some 1000 := by decide +kernel
  refine ⟨⟨⟨fun h => h rfl, ⟨989000000, 1, ?_⟩, rfl, ?_, ⟨1489000000, 1, ?_⟩⟩,
      hlocal, hkey, fun h => ?_⟩,
    ⟨⟨fun h => ?_, ⟨989000000, 1, ?_⟩, le_refl _, ?_, ⟨1489000000, 1, ?_⟩⟩,
      hlocal', hpermit, fun h => ?_⟩⟩
  · decide +kernel
  · change _ ≠ none
    decide +kernel
  · decide +kernel
  · exact absurd (h _ 1000 hlocal hkey) (by decide)
  · obtain ⟨sc, hsc, -⟩ := h 0 Nat.one_pos
    contradiction
  · decide +kernel
  · intro i hi
    obtain rfl := Nat.lt_one_iff.mp hi
    exact ⟨1000, by decide +kernel, by decide⟩
  · decide +kernel
  · refine absurd (h _ 1000 hlocal' fun i hi => ?_) (by decide)
    obtain rfl := Nat.lt_one_iff.mp hi
    exact hpermit

end TwoCalls

end Distsync
