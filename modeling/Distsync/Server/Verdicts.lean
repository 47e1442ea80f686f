import Distsync.Server.Release

/-!
# Distsync.Server.Verdicts

The three ways in which a lease tells its owner that it is lost: `Held`,
`Renew` and `Release`.

A mutex and a writer ask for the stored token in all three.  Permits and
readers are members with a score: `Held` and `Renew` compare the score with
the clock, `Release` counts the members it removes and does not look at their
scores.  So the three verdicts agree unless the members of an expired grant
are all still there (`LeaseClient.verdictsAgree_iff`).
-/

namespace Distsync

open Redis Trans

/-- How a call of `Renew` or `Release` ends. -/
inductive Verdict where
  | ok
  /-- `ErrLost`. -/
  | lost
  /-- Any other error. -/
  | failed
deriving DecidableEq

/-- The verdict on an answer, where `n` means success. -/
def Verdict.ofReply (n : Nat) : Reply → Verdict
  | .int m => if m = n then ok else lost
  | .nil | .err => failed

namespace LeaseKind

instance : DecidablePred Sends
  | permitSet n => inferInstanceAs (Decidable (0 < n.val))
  | singleOwner | rwWriter | rwReader => inferInstanceAs (Decidable True)

/-- The command of `Renew` at client time `now`. -/
def renewCmd (now ttl : Int) : LeaseKind → OwnerCmd
  | singleOwner => .singleRenew (milliseconds ttl)
  | permitSet n => .semRenew (unixMilli now) (milliseconds ttl) n
  | rwWriter => .writerRenew (milliseconds ttl)
  | rwReader => .readerRenew (unixMilli now) (milliseconds ttl)

end LeaseKind

/-- The local state of a lease object.  A permit set that was released, or
never granted, is one without tokens. -/
structure LeaseClient where
  id : String
  kind : LeaseKind
  ttl : Int
  expiresAt : Option Int

namespace LeaseClient

/-- `Held` at client time `now`, on keys that hold nothing expired. -/
def held (now : Int) (l : LeaseClient) (s : Server) : Bool :=
  match l.kind with
  | .singleOwner => s.single.lock.get = some l.id
  | .permitSet n => 0 < n.val && (permitTokens l.id n).all (ownsAt (unixMilli now) s.permits)
  | .rwWriter => s.rw.writer.get = some l.id
  | .rwReader => ownsAt (unixMilli now) s.rw.readers l.id

/-- `Renew` at server time `t` and client time `now`, on keys that hold nothing
expired. -/
def renew (t now : Int) (l : LeaseClient) (s : Server) : Server × LeaseClient × Verdict :=
  if l.kind.Sends then
    let (s, reply) := (l.kind.renewCmd now l.ttl).run t l.id s
    match Verdict.ofReply 1 reply with
    | .ok =>
        match renewResult l.expiresAt (requestExpiry now l.ttl) now with
        | some deadline => (s, { l with expiresAt := some deadline }, .ok)
        | none => (s, l, .lost)
    | verdict => (s, l, verdict)
  else (s, l, .lost)

/-- What `Release` does to the lease object: a permit set forgets its tokens
after any answer, the others their expiry after success. -/
def forget (l : LeaseClient) (verdict : Verdict) : LeaseClient :=
  match l.kind, verdict with
  | .permitSet _, .failed => l
  | .permitSet _, _ => { l with kind := .permitSet 0, expiresAt := none }
  | _, .ok => { l with expiresAt := none }
  | _, _ => l

/-- `Release` at server time `t`, on keys that hold nothing expired. -/
def release (t : Int) (l : LeaseClient) (s : Server) : Server × LeaseClient × Verdict :=
  if l.kind.Sends then
    let (s, reply) := l.kind.releaseCmd.run t l.id s
    let verdict := Verdict.ofReply l.kind.released reply
    (s, l.forget verdict, verdict)
  else (s, l, .lost)

/-- When `Held` says no, `Renew` and `Release` say `ErrLost`, and `Renew`
changes nothing. -/
def VerdictsAgree (t now : Int) (l : LeaseClient) (s : Server) : Prop :=
  l.held now s = false →
    ((l.renew t now s).2.2 = .lost ∧ (l.renew t now s).1 = s) ∧ (l.release t s).2.2 = .lost

/-- All members of the grant are still in their set, and some have expired. -/
def Lingers (now : Int) (l : LeaseClient) (s : Server) : Prop :=
  match l.kind with
  | .singleOwner | .rwWriter => False
  | .permitSet n => (∀ i < n.val, s.permits.score (permitToken l.id i) ≠ none) ∧
      ∃ i < n.val, ∃ sc, s.permits.score (permitToken l.id i) = some sc ∧ sc ≤ unixMilli now
  | .rwReader => ∃ sc, s.rw.readers.score l.id = some sc ∧ sc ≤ unixMilli now

end LeaseClient

/-! ## Each verdict by itself -/

namespace LeaseKind

/-- A renewal without a whole grant does nothing. -/
theorem renewCmd_run_of_not_whole {k : LeaseKind} {a : String} {s : Server}
    (h : ¬k.Whole (unixMilli now) (s.holdings a)) (t ttl : Int) :
    (k.renewCmd now ttl).run t a s = (s, .int 0) := by
  cases k with
  | singleOwner =>
      rcases singleRenew_cases t a (milliseconds ttl) s.single.lock with ⟨hown, -⟩ | ⟨-, heq⟩
      · exact absurd (storedBy_ne_none_iff.mpr hown) h
      · simp only [renewCmd, OwnerCmd.run, OwnerCmd.onLock, heq]
  | permitSet n =>
      rcases semRenew_cases (unixMilli now) (milliseconds ttl) (permitTokens a n) s.permits with
        ⟨hown, -⟩ | ⟨-, heq⟩
      · exact absurd (fun i hi => hown _ (mem_permitTokens.mpr ⟨i, hi, rfl⟩)) h
      · simp only [renewCmd, OwnerCmd.run, OwnerCmd.onPermits, heq]
  | rwWriter =>
      rcases singleRenew_cases t a (milliseconds ttl) s.rw.writer with ⟨hown, -⟩ | ⟨-, heq⟩
      · exact absurd (storedBy_ne_none_iff.mpr hown) h
      · simp only [renewCmd, OwnerCmd.run, OwnerCmd.onRW, RWCmd.run, heq]
  | rwReader =>
      rcases semRenew_cases (unixMilli now) (milliseconds ttl) [a] s.rw.readers with
        ⟨hown, -⟩ | ⟨-, heq⟩
      · exact absurd (hown a List.mem_cons_self) h
      · simp only [renewCmd, OwnerCmd.run, OwnerCmd.onRW, RWCmd.run, heq]

/-- Every release is answered by a number. -/
theorem releaseCmd_run_int (k : LeaseKind) (t : Int) (a : String) (s : Server) :
    ∃ n, (k.releaseCmd.run t a s).2 = .int n := by
  have hsingle (lock : Slot String) : ∃ n, (singleRelease a lock).2 = .int n := by
    rcases singleRelease_cases a lock with ⟨-, heq⟩ | ⟨-, heq⟩
    · exact ⟨1, congrArg Prod.snd heq⟩
    · exact ⟨0, congrArg Prod.snd heq⟩
  cases k with
  | singleOwner => exact hsingle s.single.lock
  | permitSet n => exact ⟨_, rfl⟩
  | rwWriter => exact hsingle s.rw.writer
  | rwReader => exact ⟨_, rfl⟩

end LeaseKind

namespace LeaseClient

/-- `Held` says yes exactly on a whole grant. -/
theorem held_iff (now : Int) (l : LeaseClient) (s : Server) :
    l.held now s = true ↔ l.kind.Sends ∧ l.kind.Whole (unixMilli now) (s.holdings l.id) := by
  obtain ⟨id, kind, ttl, expiresAt⟩ := l
  cases kind with
  | singleOwner =>
      simp only [held, decide_eq_true_iff, LeaseKind.Sends, true_and]
      exact storedBy_ne_none_iff.symm
  | permitSet n =>
      simp only [held, Bool.and_eq_true, decide_eq_true_iff, List.all_eq_true, mem_permitTokens,
        ownsAt_iff]
      refine and_congr Iff.rfl ⟨fun h i hi => h _ ⟨i, hi, rfl⟩, ?_⟩
      rintro h _ ⟨i, hi, rfl⟩
      exact h i hi
  | rwWriter =>
      simp only [held, decide_eq_true_iff, LeaseKind.Sends, true_and]
      exact storedBy_ne_none_iff.symm
  | rwReader =>
      simp only [held, ownsAt_iff, LeaseKind.Sends, true_and]
      exact Iff.rfl

/-- `Renew` on a grant that is not whole is `ErrLost` and changes nothing. -/
theorem renew_of_not_held {l : LeaseClient} {s : Server} (h : l.held now s = false) (t : Int) :
    l.renew t now s = (s, l, .lost) := by
  by_cases hsends : l.kind.Sends
  · have hwhole : ¬l.kind.Whole (unixMilli now) (s.holdings l.id) := by
      intro hw
      rw [(held_iff now l s).mpr ⟨hsends, hw⟩] at h
      contradiction
    rw [renew, if_pos hsends, LeaseKind.renewCmd_run_of_not_whole hwhole]
    rfl
  · exact if_neg hsends

/-- `Release` says `ErrLost` exactly when some part of the grant is not
stored. -/
theorem release_lost_iff (t : Int) (l : LeaseClient) (s : Server) :
    (l.release t s).2.2 = .lost ↔ ¬(l.kind.Sends ∧ l.kind.Stored (s.holdings l.id)) := by
  by_cases hsends : l.kind.Sends
  · obtain ⟨n, hn⟩ := l.kind.releaseCmd_run_int t l.id s
    have hiff := l.kind.success_iff t l.id s
    rw [hn, LeaseKind.success, Reply.int.injEq] at hiff
    have hverdict : (l.release t s).2.2 = Verdict.ofReply l.kind.released (.int n) := by
      rw [release, if_pos hsends, ← hn]
    rw [hverdict, ← hiff, Verdict.ofReply]
    by_cases heq : n = l.kind.released <;> simp [heq, hsends]
  · have hverdict : (l.release t s).2.2 = .lost := by rw [release, if_neg hsends]
    simp [hverdict, hsends]

/-- A score that is there is later than `now` or not. -/
theorem expired_iff {score : Option Int} :
    (∃ sc, score = some sc ∧ sc ≤ now) ↔ score ≠ none ∧ ¬∃ sc, score = some sc ∧ now < sc := by
  cases score with
  | none => simp
  | some sc => simp

/-- A grant lingers when it is stored and not whole. -/
theorem lingers_iff (now : Int) (l : LeaseClient) (s : Server) :
    l.Lingers now s ↔ (l.kind.Sends ∧ l.kind.Stored (s.holdings l.id)) ∧
      ¬l.kind.Whole (unixMilli now) (s.holdings l.id) := by
  obtain ⟨id, kind, ttl, expiresAt⟩ := l
  cases kind with
  | singleOwner => simp [Lingers, LeaseKind.Stored, LeaseKind.Whole]
  | permitSet n =>
      constructor
      · rintro ⟨hstored, i, hi, hexp⟩
        refine ⟨⟨Nat.zero_lt_of_lt hi, hstored⟩, fun hw => ?_⟩
        exact (expired_iff.mp hexp).2 (hw i hi)
      · rintro ⟨⟨-, hstored⟩, hnot⟩
        simp only [LeaseKind.Whole, not_forall] at hnot
        obtain ⟨i, hi, hno⟩ := hnot
        exact ⟨hstored, i, hi, expired_iff.mpr ⟨hstored i hi, hno⟩⟩
  | rwWriter => simp [Lingers, LeaseKind.Stored, LeaseKind.Whole]
  | rwReader =>
      simp only [LeaseKind.Sends, true_and]
      exact expired_iff

/-! ## All three -/

/-- **The verdicts agree** exactly on states in which no expired grant lingers
in its set. -/
theorem verdictsAgree_iff (t now : Int) (l : LeaseClient) (s : Server) :
    l.VerdictsAgree t now s ↔ ¬l.Lingers now s := by
  rw [lingers_iff]
  have hheld := held_iff now l s
  constructor
  · rintro h ⟨⟨hsends, hstored⟩, hnot⟩
    have hno : l.held now s = false := by
      rw [← Bool.not_eq_true, hheld]
      exact fun hw => hnot hw.2
    exact (release_lost_iff t l s).mp (h hno).2 ⟨hsends, hstored⟩
  · intro h hno
    rw [renew_of_not_held hno, release_lost_iff]
    refine ⟨⟨rfl, rfl⟩, ?_⟩
    rintro ⟨hsends, hstored⟩
    rw [← Bool.not_eq_true, hheld] at hno
    exact h ⟨⟨hsends, hstored⟩, fun hw => hno ⟨hsends, hw⟩⟩

/-- **An expired permit is released**: `a` takes the only permit for a second,
and a second later, when nobody has reclaimed it, `Held` says no and `Release`
reports success. -/
theorem expired_release_succeeds :
    let r := OwnerCmd.run 0 "a" (.semAcquire 0 1000 1 1) .init
    let l : LeaseClient := ⟨"a", .permitSet 1, 1000000000, some 989000000⟩
    acquireResult 0 l.ttl 0 r.2 = .granted 989000000 1 ∧
      l.held 1000000000 r.1 = false ∧
      (l.renew 1000 1000000000 r.1).2.2 = .lost ∧
      (l.release 1000 r.1).2.2 = .ok ∧
      ¬l.VerdictsAgree 1000 1000000000 r.1 := by
  intro r l
  have hheld : l.held 1000000000 r.1 = false := by decide +kernel
  have hrelease : (l.release 1000 r.1).2.2 = .ok := by decide +kernel
  refine ⟨by decide +kernel, hheld, by decide +kernel, hrelease, ?_⟩
  intro hagree
  cases hrelease.symm.trans (hagree hheld).2

end LeaseClient

end Distsync
