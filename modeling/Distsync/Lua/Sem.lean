import Distsync.Redis.ZSet
import Distsync.Redis.Reply
import Distsync.Redis.Member

/-!
# Distsync.Lua.Sem

The sorted-set scripts: `sem_acquire.lua`, `sem_renew.lua` and
`sem_release.lua`.  A member is a permit token and its score the instant (in
milliseconds, as the client that wrote it counts) at which the permit expires.
`sem_renew` and `sem_release` also serve the readers set of a read-write lock.
-/

namespace Distsync

open Redis

/-- `permits` or `readers`: member = token, score = expiry in milliseconds. -/
abbrev Permits := ZSet String Int

/-- The member token of permit `i` of a grant (`p.id + "#" + strconv.Itoa(i)`). -/
def permitToken (id : String) (i : Nat) : String := id ++ "#" ++ toString i

/-- The member tokens of a grant of `n` permits. -/
def permitTokens (id : String) (n : Nat) : List String := (List.range n).map (permitToken id)

/-- `sem_acquire.lua`: reclaim what has expired at `now`, recover the caller's
own grant, else add one member per token if the capacity allows. -/
def semAcquire (now ttl : Int) (capacity : Nat) (tokens : List String) (z : Permits) :
    Permits × Reply :=
  let z := z.remUpTo now
  let used := z.card
  let requested := tokens.length
  let owned := tokens.countP (fun m => (z.score m).isSome)
  if owned = requested then
    (z, .number used)
  else if used + requested > capacity then
    (z, .nil)
  else
    (z.addAll tokens (now + ttl), .number (used + requested))

/-- The ownership test of `sem_renew.lua`: present and not expired at `now`. -/
def ownsAt (now : Int) (z : Permits) (m : String) : Bool :=
  match z.score m with
  | some previous => now < previous
  | none => false

/-- `sem_renew.lua`: refresh all tokens, but only if all are still owned. -/
def semRenew (now ttl : Int) (tokens : List String) (z : Permits) : Permits × Reply :=
  if tokens.all (ownsAt now z) then (z.addAll tokens (now + ttl), .int 1) else (z, .int 0)

/-- The loop of `sem_release.lua`: remove the tokens, counting those present. -/
def semReleaseLoop : List String → Permits → Nat → Permits × Nat
  | [], z, removed => (z, removed)
  | m :: ms, z, removed =>
      semReleaseLoop ms (z.rem m) (removed + if (z.score m).isSome then 1 else 0)

/-- `sem_release.lua`: drop the tokens and answer how many were there. -/
def semRelease (tokens : List String) (z : Permits) : Permits × Reply :=
  ((semReleaseLoop tokens z 0).1, .number (semReleaseLoop tokens z 0).2)

/-! ## Member tokens -/

/-- Member tokens of different grants, or of different permits of one grant,
are different: a decimal index holds no `#`. -/
theorem permitToken_inj {id id' : String} :
    permitToken id i = permitToken id' j ↔ id = id' ∧ i = j :=
  numbered_inj (c := '#') (by decide) (by decide)

@[simp] theorem mem_permitTokens {id : String} :
    m ∈ permitTokens id n ↔ ∃ i < n, permitToken id i = m := by
  simp [permitTokens]

@[simp] theorem length_permitTokens (id : String) (n : Nat) : (permitTokens id n).length = n := by
  simp [permitTokens]

theorem nodup_permitTokens (id : String) (n : Nat) : (permitTokens id n).Nodup := by
  apply List.nodup_range.map
  intro i j h
  exact (permitToken_inj.mp h).2

/-! ## What one execution can do -/

/-- The three ways an execution of `sem_acquire` ends, in terms of the set
left by its own reclamation. -/
theorem semAcquire_cases (now ttl : Int) (capacity : Nat) (tokens : List String) (z : Permits) :
    ((∀ m ∈ tokens, ∃ sc, (z.remUpTo now).score m = some sc) ∧
      semAcquire now ttl capacity tokens z = (z.remUpTo now, .number (z.remUpTo now).card)) ∨
    ((∃ m ∈ tokens, (z.remUpTo now).score m = none) ∧
      capacity < (z.remUpTo now).card + tokens.length ∧
      semAcquire now ttl capacity tokens z = (z.remUpTo now, .nil)) ∨
    ((∃ m ∈ tokens, (z.remUpTo now).score m = none) ∧
      (z.remUpTo now).card + tokens.length ≤ capacity ∧
      semAcquire now ttl capacity tokens z =
        ((z.remUpTo now).addAll tokens (now + ttl),
          .number ((z.remUpTo now).card + tokens.length))) := by
  by_cases hown : tokens.countP (fun m => ((z.remUpTo now).score m).isSome) = tokens.length
  · refine .inl ⟨?_, if_pos hown⟩
    intro m hm
    exact Option.isSome_iff_exists.mp (List.countP_eq_length.mp hown m hm)
  · have hmiss : ∃ m ∈ tokens, (z.remUpTo now).score m = none := by
      rw [List.countP_eq_length] at hown
      push Not at hown
      obtain ⟨m, hm, hnone⟩ := hown
      exact ⟨m, hm, by simpa using hnone⟩
    by_cases hfull : capacity < (z.remUpTo now).card + tokens.length
    · exact .inr (.inl ⟨hmiss, hfull, by rw [semAcquire]; simp only [hown, hfull, if_true, if_false]⟩)
    · exact .inr (.inr ⟨hmiss, by omega,
        by rw [semAcquire]; simp only [hown, hfull, if_false]⟩)

theorem ownsAt_iff : ownsAt now z m = true ↔ ∃ sc, z.score m = some sc ∧ now < sc := by
  rw [ownsAt]
  cases z.score m with
  | none => simp
  | some sc => simp

/-- `sem_renew` refreshes everything it names, or nothing at all. -/
theorem semRenew_cases (now ttl : Int) (tokens : List String) (z : Permits) :
    ((∀ m ∈ tokens, ∃ sc, z.score m = some sc ∧ now < sc) ∧
      semRenew now ttl tokens z = (z.addAll tokens (now + ttl), .int 1)) ∨
    ((∃ m ∈ tokens, ∀ sc, z.score m = some sc → sc ≤ now) ∧
      semRenew now ttl tokens z = (z, .int 0)) := by
  by_cases hall : tokens.all (ownsAt now z) = true
  · refine .inl ⟨fun m hm => ownsAt_iff.mp (List.all_eq_true.mp hall m hm), if_pos hall⟩
  · refine .inr ⟨?_, if_neg hall⟩
    rw [List.all_eq_true] at hall
    push Not at hall
    obtain ⟨m, hm, hno⟩ := hall
    refine ⟨m, hm, fun sc hsc => ?_⟩
    by_contra hlt
    exact hno (ownsAt_iff.mpr ⟨sc, hsc, by omega⟩)

theorem semReleaseLoop_fst (tokens : List String) (z : Permits) (removed : Nat) :
    (semReleaseLoop tokens z removed).1 = z.remAll tokens := by
  induction tokens generalizing z removed with
  | nil => rfl
  | cons m ms ih => rw [semReleaseLoop, ih]; rfl

@[simp] theorem semRelease_fst (tokens : List String) (z : Permits) :
    (semRelease tokens z).1 = z.remAll tokens := semReleaseLoop_fst tokens z 0

/-! ## What an execution leaves alone -/

theorem notMem_permitTokens {id id' : String} (h : id ≠ id') (i n : Nat) :
    permitToken id' i ∉ permitTokens id n := by
  intro hm
  obtain ⟨j, -, heq⟩ := mem_permitTokens.mp hm
  exact h (permitToken_inj.mp heq).1

/-- Others' members stay as `sem_acquire`'s reclamation leaves them. -/
theorem semAcquire_score_of_notMem (now ttl : Int) (capacity : Nat) (z : Permits)
    (h : m ∉ tokens) :
    (semAcquire now ttl capacity tokens z).1.score m = (z.remUpTo now).score m := by
  rcases semAcquire_cases now ttl capacity tokens z with ⟨-, heq⟩ | ⟨-, -, heq⟩ | ⟨-, -, heq⟩ <;>
    rw [heq]
  rw [ZSet.score_addAll, if_neg h]

theorem semRenew_score_of_notMem (now ttl : Int) (z : Permits) (h : m ∉ tokens) :
    (semRenew now ttl tokens z).1.score m = z.score m := by
  rcases semRenew_cases now ttl tokens z with ⟨-, heq⟩ | ⟨-, heq⟩ <;> rw [heq]
  rw [ZSet.score_addAll, if_neg h]

theorem semRelease_score_of_notMem (z : Permits) (h : m ∉ tokens) :
    (semRelease tokens z).1.score m = z.score m := by
  rw [semRelease_fst, ZSet.score_remAll, if_neg h]

end Distsync
