import Distsync.Redis.Slot
import Distsync.Redis.Reply

/-!
# Distsync.Lua.Single

The single-owner scripts: `single_acquire.lua`, `single_renew.lua` and
`single_release.lua`.  The last two touch one key only and also serve the
writer key of a read-write lock, so they are written over that key alone.

Every script takes the server time `t` (milliseconds) at which it runs; what
Redis has expired by then is no longer in the keys it is given.
-/

namespace Distsync

open Redis

/-- The two keys of a single-owner lease: the lock and the fencing counter.
No script ever gives the counter a TTL, so it is kept as a plain value. -/
structure SingleStore where
  lock : Slot String
  fencing : Option Nat
deriving DecidableEq

/-- `single_acquire.lua`: recover the caller's own grant, else
`SET lockKey token NX PX ttl` and mint a fencing token.  `SET` refuses a TTL
that is not positive before it looks at the key. -/
def singleAcquire (t : Int) (token : String) (ttl : Int) (fencing : Bool) (s : SingleStore) :
    SingleStore × Reply :=
  if s.lock.get = some token then
    (s, if fencing then .ofGet s.fencing else .int 0)
  else if ttl ≤ 0 then
    (s, .err)
  else
    match s.lock with
    | .present _ _ => (s, .nil)
    | .absent =>
        if fencing then
          ({ lock := .present token (some (t + ttl)), fencing := some (s.fencing.getD 0 + 1) },
            .number (s.fencing.getD 0 + 1))
        else
          ({ s with lock := .present token (some (t + ttl)) }, .int 0)

/-- `single_renew.lua`: extend the TTL, but only of the caller's own lease. -/
def singleRenew (t : Int) (token : String) (ttl : Int) (lock : Slot String) :
    Slot String × Reply :=
  if lock.get = some token then (lock.pexpire t ttl, .int 1) else (lock, .int 0)

/-- `single_release.lua`: compare-and-delete. -/
def singleRelease (token : String) (lock : Slot String) : Slot String × Reply :=
  if lock.get = some token then (.absent, .int 1) else (lock, .int 0)

/-! ## What one execution can do -/

/-- The four ways an execution of `single_acquire` ends. -/
theorem singleAcquire_cases (t : Int) (token : String) (ttl : Int) (fencing : Bool)
    (s : SingleStore) :
    (s.lock.get = some token ∧
      singleAcquire t token ttl fencing s = (s, if fencing then .ofGet s.fencing else .int 0)) ∨
    (s.lock.get ≠ some token ∧ singleAcquire t token ttl fencing s = (s, .err)) ∨
    ((∃ other, s.lock.get = some other ∧ other ≠ token) ∧
      singleAcquire t token ttl fencing s = (s, .nil)) ∨
    (s.lock = .absent ∧ 0 < ttl ∧
      singleAcquire t token ttl fencing s =
        ({ lock := .present token (some (t + ttl))
           fencing := if fencing then some (s.fencing.getD 0 + 1) else s.fencing },
          if fencing then .number (s.fencing.getD 0 + 1) else .int 0)) := by
  by_cases hown : s.lock.get = some token
  · exact .inl ⟨hown, if_pos hown⟩
  · by_cases httl : ttl ≤ 0
    · exact .inr (.inl ⟨hown, by rw [singleAcquire, if_neg hown, if_pos httl]⟩)
    · cases hlock : s.lock with
      | present other d =>
          refine .inr (.inr (.inl ⟨⟨other, rfl, ?_⟩, ?_⟩))
          · intro he
            rw [hlock, he] at hown
            exact hown rfl
          · rw [singleAcquire, if_neg hown, if_neg httl, hlock]
      | absent =>
          refine .inr (.inr (.inr ⟨rfl, by omega, ?_⟩))
          rw [singleAcquire, if_neg hown, if_neg httl, hlock]
          cases fencing <;> rfl

/-- A renewal keeps the stored token, or (with a TTL that is not positive)
deletes the caller's own key. -/
theorem singleRenew_cases (t : Int) (token : String) (ttl : Int) (lock : Slot String) :
    (lock.get = some token ∧ singleRenew t token ttl lock = (lock.pexpire t ttl, .int 1)) ∨
    (lock.get ≠ some token ∧ singleRenew t token ttl lock = (lock, .int 0)) := by
  by_cases hown : lock.get = some token
  · exact .inl ⟨hown, if_pos hown⟩
  · exact .inr ⟨hown, if_neg hown⟩

theorem singleRelease_cases (token : String) (lock : Slot String) :
    (lock.get = some token ∧ singleRelease token lock = (.absent, .int 1)) ∨
    (lock.get ≠ some token ∧ singleRelease token lock = (lock, .int 0)) := by
  by_cases hown : lock.get = some token
  · exact .inl ⟨hown, if_pos hown⟩
  · exact .inr ⟨hown, if_neg hown⟩

/-- A renewal stores no token, and keeps the one stored unless it deletes it. -/
theorem get_singleRenew (t : Int) (token : String) (ttl : Int) (lock : Slot String) :
    (singleRenew t token ttl lock).1.get = lock.get ∨
      (singleRenew t token ttl lock).1.get = none := by
  rcases singleRenew_cases t token ttl lock with ⟨-, heq⟩ | ⟨-, heq⟩
  · rw [heq]
    by_cases httl : 0 < ttl
    · exact .inl (Slot.get_pexpire t lock httl)
    · exact .inr (by rw [Slot.pexpire_of_nonpos t lock (by omega), Slot.get_absent])
  · exact .inl (by rw [heq])

/-- A release deletes the token it names, or changes nothing. -/
theorem get_singleRelease (token : String) (lock : Slot String) :
    (singleRelease token lock).1.get = lock.get ∨ (singleRelease token lock).1.get = none := by
  rcases singleRelease_cases token lock with ⟨-, heq⟩ | ⟨-, heq⟩
  · exact .inr (by rw [heq, Slot.get_absent])
  · exact .inl (by rw [heq])

/-! ## The expiry of a stored token -/

/-- The expiry of a key while it stores `token`. -/
def storedBy (token : String) : Slot String → Option (Option Int)
  | .absent => none
  | .present v deadline => if v = token then some deadline else none

theorem storedBy_of_ne {k : Slot String} (h : k.get ≠ some token) : storedBy token k = none := by
  cases k with
  | absent => rfl
  | present v d =>
      refine if_neg ?_
      rintro rfl
      exact h rfl

theorem storedBy_ne_none_iff {k : Slot String} : storedBy token k ≠ none ↔ k.get = some token := by
  constructor
  · intro h
    by_contra hne
    exact h (storedBy_of_ne hne)
  · intro h
    obtain ⟨d, rfl⟩ := Slot.get_eq_some_iff.mp h
    simp [storedBy]

/-- A key that stores `a`, or nothing, before and after stores nothing of
`b`. -/
theorem storedBy_eq_of_foreign {k k' : Slot String} (hne : a ≠ b)
    (h : k.get = some a ∨ k.get = none) (h' : k'.get = some a ∨ k'.get = none) :
    storedBy b k' = storedBy b k := by
  have hforeign {k : Slot String} (h : k.get = some a ∨ k.get = none) : k.get ≠ some b := by
    rcases h with h | h <;> simp [h, hne]
  rw [storedBy_of_ne (hforeign h), storedBy_of_ne (hforeign h')]

theorem storedBy_singleAcquire (hne : a ≠ b) (t ttl : Int) (fencing : Bool) (s : SingleStore) :
    storedBy b (singleAcquire t a ttl fencing s).1.lock = storedBy b s.lock := by
  rcases singleAcquire_cases t a ttl fencing s with
    ⟨-, heq⟩ | ⟨-, heq⟩ | ⟨-, heq⟩ | ⟨hfree, -, heq⟩ <;> rw [heq]
  exact storedBy_eq_of_foreign hne (.inr (by rw [hfree]; rfl)) (.inl rfl)

/-- Renewing a token moves no other token's deadline. -/
theorem storedBy_singleRenew (hne : a ≠ b) (t ttl : Int) (k : Slot String) :
    storedBy b (singleRenew t a ttl k).1 = storedBy b k := by
  rcases singleRenew_cases t a ttl k with ⟨hown, -⟩ | ⟨-, heq⟩
  · have hafter := get_singleRenew t a ttl k
    rw [hown] at hafter
    exact storedBy_eq_of_foreign hne (.inl hown) hafter
  · rw [heq]

/-- Nor does releasing one. -/
theorem storedBy_singleRelease (hne : a ≠ b) (k : Slot String) :
    storedBy b (singleRelease a k).1 = storedBy b k := by
  rcases singleRelease_cases a k with ⟨hown, heq⟩ | ⟨-, heq⟩ <;> rw [heq]
  exact storedBy_eq_of_foreign hne (.inl hown) (.inr rfl)

/-- After a release the caller's token is not stored. -/
theorem storedBy_singleRelease_self (a : String) (k : Slot String) :
    storedBy a (singleRelease a k).1 = none := by
  rcases singleRelease_cases a k with ⟨-, heq⟩ | ⟨hown, heq⟩ <;> rw [heq]
  · rfl
  · exact storedBy_of_ne hown

/-- The deadline of a key while it stores `token`, if it has one. -/
def storedDeadline (token : String) (lock : Slot String) : Option Int := (storedBy token lock).join

@[simp] theorem storedDeadline_present (token : String) (d : Int) :
    storedDeadline token (.present token (some d)) = some d := by
  rw [storedDeadline, storedBy, if_pos rfl]
  rfl

theorem storedDeadline_eq_none {lock : Slot String} {token : String}
    (h : lock.get ≠ some token) : storedDeadline token lock = none := by
  rw [storedDeadline, storedBy_of_ne h]
  rfl

theorem storedDeadline_present_of_ne (h : v ≠ token) (d : Option Int) :
    storedDeadline token (.present v d) = none :=
  storedDeadline_eq_none fun he => h (Option.some.inj he)

/-- A lock key always carries a TTL. -/
def Timed (lock : Slot String) : Prop := ∀ v, lock ≠ .present v none

theorem storedDeadline_eq_some {lock : Slot String} (ht : Timed lock)
    (h : lock.get = some token) : ∃ d, storedDeadline token lock = some d := by
  obtain ⟨d, rfl⟩ := Slot.get_eq_some_iff.mp h
  cases d with
  | none => exact absurd rfl (ht token)
  | some d => exact ⟨d, storedDeadline_present token d⟩

theorem get_of_storedDeadline {lock : Slot String} (h : storedDeadline token lock ≠ none) :
    lock.get = some token := by
  by_contra hne
  exact h (storedDeadline_eq_none hne)

theorem timed_singleAcquire {s : SingleStore} (h : Timed s.lock) (t : Int) (token : String)
    (ttl : Int) (fencing : Bool) : Timed (singleAcquire t token ttl fencing s).1.lock := by
  rcases singleAcquire_cases t token ttl fencing s with
    ⟨-, heq⟩ | ⟨-, heq⟩ | ⟨-, heq⟩ | ⟨-, -, heq⟩ <;> rw [heq]
  · exact h
  · exact h
  · exact h
  · nofun

theorem timed_singleRenew {lock : Slot String} (h : Timed lock) (t : Int) (token : String)
    (ttl : Int) : Timed (singleRenew t token ttl lock).1 := by
  rcases singleRenew_cases t token ttl lock with ⟨-, heq⟩ | ⟨-, heq⟩ <;> rw [heq]
  · cases lock with
    | absent => exact h
    | present v d =>
        rw [Slot.pexpire]
        split <;> simp [Timed]
  · exact h

theorem timed_singleRelease {lock : Slot String} (h : Timed lock) (token : String) :
    Timed (singleRelease token lock).1 := by
  rcases singleRelease_cases token lock with ⟨-, heq⟩ | ⟨-, heq⟩ <;> rw [heq]
  · nofun
  · exact h

/-- A renewal by the stored owner moves the deadline; any other renewal is
answered 0 and changes nothing. -/
theorem singleRenew_stored (t : Int) (token : String) (httl : 0 < ttl) (lock : Slot String) :
    (lock.get = some token ∧ (singleRenew t token ttl lock).2 = .int 1 ∧
      (singleRenew t token ttl lock).1 = .present token (some (t + ttl))) ∨
    (lock.get ≠ some token ∧ singleRenew t token ttl lock = (lock, .int 0)) := by
  rcases singleRenew_cases t token ttl lock with ⟨hown, heq⟩ | h
  · obtain ⟨d, rfl⟩ := Slot.get_eq_some_iff.mp hown
    refine .inl ⟨hown, by rw [heq], ?_⟩
    rw [heq, Slot.pexpire, if_neg (by omega)]
  · exact .inr h

end Distsync
