import Distsync.Server

/-!
# Distsync.Server.Release

What `ErrLost` from a release says about the grant.

A release command is repeated by the transport when its answer is lost.  The
scripts compare and delete, so the first execution that finds the grant
removes it and answers success, and every later one finds nothing.  The caller
hears the last answer: it is truthful exactly when the command is executed
once, or the grant was not whole any more when the call began or when the
command first came (`ReleaseCall.truthful_iff`).
-/

namespace Distsync

open Redis Trans

/-- The implementations of `Lease`.  A permit set comes with the number of its
tokens, which a slice can hold. -/
inductive LeaseKind where
  | singleOwner
  | permitSet (n : Fin (2 ^ 53))
  | rwWriter
  | rwReader
deriving DecidableEq

namespace LeaseKind

/-- The command of `Release`. -/
def releaseCmd : LeaseKind → OwnerCmd
  | singleOwner => .singleRelease
  | permitSet n => .semRelease n
  | rwWriter => .writerRelease
  | rwReader => .readerRelease

/-- The number that `Release` takes for success. -/
def released : LeaseKind → Nat
  | permitSet n => n
  | singleOwner | rwWriter | rwReader => 1

/-- The answer that `Release` takes for success; all other numbers are
`ErrLost`. -/
def success (k : LeaseKind) : Reply := .int k.released

/-- `Release` sends a command: a permit set without tokens does not. -/
def Sends : LeaseKind → Prop
  | permitSet n => 0 < n.val
  | singleOwner | rwWriter | rwReader => True

/-- Every part of the grant is stored. -/
def Stored (k : LeaseKind) (h : Holdings) : Prop :=
  match k with
  | singleOwner => h.lock ≠ none
  | permitSet n => ∀ i < n.val, h.permit i ≠ none
  | rwWriter => h.writer ≠ none
  | rwReader => h.reader ≠ none

/-- No part of the grant is stored. -/
def Gone (k : LeaseKind) (h : Holdings) : Prop :=
  match k with
  | singleOwner => h.lock = none
  | permitSet n => ∀ i < n.val, h.permit i = none
  | rwWriter => h.writer = none
  | rwReader => h.reader = none

/-- Every part of the grant is stored and, where the server does not see to
that itself, has not expired at `now`. -/
def Whole (k : LeaseKind) (now : Int) (h : Holdings) : Prop :=
  match k with
  | singleOwner => h.lock ≠ none
  | permitSet n => ∀ i < n.val, ∃ sc, h.permit i = some sc ∧ now < sc
  | rwWriter => h.writer ≠ none
  | rwReader => ∃ sc, h.reader = some sc ∧ now < sc

theorem Whole.stored {k : LeaseKind} (h : k.Whole now hs) : k.Stored hs := by
  cases k with
  | singleOwner => exact h
  | permitSet n =>
      intro i hi
      obtain ⟨sc, hsc, -⟩ := h i hi
      simp [hsc]
  | rwWriter => exact h
  | rwReader =>
      obtain ⟨sc, hsc, -⟩ := h
      simp [Stored, hsc]

end LeaseKind

/-! ## Grants that fade -/

/-- Nothing comes into being: what was not there is not there. -/
structure Holdings.Fades (before after : Holdings) : Prop where
  lock : before.lock = none → after.lock = none
  writer : before.writer = none → after.writer = none
  reader : before.reader = none → after.reader = none
  permit : ∀ i, before.permit i = none → after.permit i = none

namespace Holdings.Fades

theorem refl (h : Holdings) : h.Fades h := ⟨id, id, id, fun _ => id⟩

theorem trans {h₁ h₂ h₃ : Holdings} (h : h₁.Fades h₂) (h' : h₂.Fades h₃) : h₁.Fades h₃ :=
  ⟨h'.lock ∘ h.lock, h'.writer ∘ h.writer, h'.reader ∘ h.reader,
    fun i => h'.permit i ∘ h.permit i⟩

theorem stored {k : LeaseKind} {h h' : Holdings} (hf : h.Fades h') (hw : k.Stored h') :
    k.Stored h := by
  cases k with
  | singleOwner => exact mt hf.lock hw
  | permitSet n => exact fun i hi => mt (hf.permit i) (hw i hi)
  | rwWriter => exact mt hf.writer hw
  | rwReader => exact mt hf.reader hw

theorem gone {k : LeaseKind} {h h' : Holdings} (hf : h.Fades h') (hg : k.Gone h) : k.Gone h' := by
  cases k with
  | singleOwner => exact hf.lock hg
  | permitSet n => exact fun i hi => hf.permit i (hg i hi)
  | rwWriter => exact hf.writer hg
  | rwReader => exact hf.reader hg

end Holdings.Fades

/-- A key is as it was, unless it expires by `bound`: then it may be gone. -/
def KeySpared (bound : Option Int) (before after : Option (Option Int)) : Prop :=
  after = before ∨ after = none ∧ ∃ d now, before = some (some d) ∧ bound = some now ∧ d ≤ now

/-- What expires by `bound` may be gone, and of the permits then all that do.
The rest is as it was. -/
structure Holdings.Lapses (bound : Option Int) (before after : Holdings) : Prop where
  lock : KeySpared bound before.lock after.lock
  writer : KeySpared bound before.writer after.writer
  reader : Distsync.Spared bound before.reader after.reader
  permit : (∀ i, after.permit i = before.permit i) ∨
    ∃ now, bound = some now ∧
      ∀ i, after.permit i = (before.permit i).filter fun sc => decide (now < sc)

namespace Holdings.Lapses

theorem refl (bound : Option Int) (h : Holdings) : h.Lapses bound h :=
  ⟨.inl rfl, .inl rfl, .inl rfl, .inl fun _ => rfl⟩

/-- Every permit is as it was or gone. -/
theorem permit_or {h h' : Holdings} (hl : h.Lapses bound h') (i : Nat) :
    h'.permit i = h.permit i ∨ h'.permit i = none := by
  rcases hl.permit with hsame | ⟨now, -, hcut⟩
  · exact .inl (hsame i)
  · rw [hcut i]
    cases h.permit i with
    | none => exact .inl rfl
    | some sc =>
        by_cases hlive : now < sc
        · exact .inl (Option.filter_some_pos (by simpa using hlive))
        · exact .inr (Option.filter_some_neg (by simpa using hlive))

theorem fades {h h' : Holdings} (hl : h.Lapses bound h') : h.Fades h' := by
  refine ⟨fun hn => ?_, fun hn => ?_, fun hn => ?_, fun i hn => ?_⟩
  · exact hl.lock.elim (fun heq => heq.trans hn) And.left
  · exact hl.writer.elim (fun heq => heq.trans hn) And.left
  · exact hl.reader.elim (fun heq => heq.trans hn) And.left
  · exact (hl.permit_or i).elim (fun heq => heq.trans hn) id

end Holdings.Lapses

theorem keySpared_evict (token : String) (t : Int) (k : Slot String) :
    KeySpared (some t) (storedBy token k) (storedBy token (k.evict t)) := by
  cases k with
  | absent => exact .inl rfl
  | present v deadline =>
      rcases Slot.evict_eq t (.present v deadline) with heq | heq
      · exact .inl (by rw [heq])
      · obtain ⟨d, rfl, hlt⟩ := Slot.evict_eq_absent_iff.mp heq
        rw [heq]
        by_cases hv : v = token
        · exact .inr ⟨rfl, d, t, if_pos hv, rfl, hlt.le⟩
        · exact .inl (if_neg hv).symm

/-- Expiry takes what has expired. -/
theorem Server.lapses_evict (t : Int) (s : Server) (a : String) :
    (s.holdings a).Lapses (some t) ((s.evict t).holdings a) :=
  ⟨keySpared_evict a t _, keySpared_evict a t _, .inl rfl, .inl fun _ => rfl⟩

/-- Another owner's command takes at most what is expired at its timestamp. -/
theorem OwnerCmd.lapses_of_ne (c : OwnerCmd) (hne : a ≠ b) (t : Int) (s : Server) :
    (s.holdings b).Lapses c.sent ((c.run t a s).1.holdings b) := by
  cases hacq : c.acquires with
  | false =>
      rw [c.holdings_of_not_acquires hacq t s hne]
      exact .refl _ _
  | true =>
      have hspared := c.spared_of_acquires hacq t s hne
      refine ⟨.inl hspared.lock, .inl hspared.writer, hspared.reader, ?_⟩
      cases c with
      | semAcquire now ttl capacity n =>
          refine .inr ⟨now, rfl, fun i => ?_⟩
          have hscore := semAcquire_score_of_notMem now ttl capacity s.permits
            (notMem_permitTokens hne i n)
          exact hscore.trans (ZSet.score_remUpTo ..)
      | singleAcquire | readLock | writeLock => exact .inl fun _ => rfl
      | singleRenew | singleRelease | semRenew | semRelease | readerRenew | readerRelease
      | writerRenew | writerRelease | zrem | hdel => contradiction

namespace OwnerCmd

/-- The command renews. -/
def renews : OwnerCmd → Bool
  | singleRenew .. | semRenew .. | readerRenew .. | writerRenew .. => true
  | _ => false

end OwnerCmd

/-- A renewal stores no token that was not stored. -/
theorem storedBy_singleRenew_none {k : Slot String} (h : storedBy token k = none) (t ttl : Int) :
    storedBy token (singleRenew t token ttl k).1 = none := by
  rcases singleRenew_cases t token ttl k with ⟨hown, -⟩ | ⟨-, heq⟩
  · obtain ⟨d, rfl⟩ := Slot.get_eq_some_iff.mp hown
    simp [storedBy] at h
  · rw [heq, h]

namespace OwnerCmd

theorem fades_of_renews {c : OwnerCmd} (h : c.renews = true) (t : Int) (a : String) (s : Server) :
    (s.holdings a).Fades ((c.run t a s).1.holdings a) := by
  cases c with
  | singleRenew ttl => exact ⟨fun h => storedBy_singleRenew_none h t ttl, id, id, fun _ => id⟩
  | semRenew now ttl n =>
      exact ⟨id, id, id, fun i h => semRenew_score_none now ttl (permitTokens a n) h⟩
  | readerRenew now ttl => exact ⟨id, id, fun h => semRenew_score_none now ttl [a] h, fun _ => id⟩
  | writerRenew ttl => exact ⟨id, fun h => storedBy_singleRenew_none h t ttl, id, fun _ => id⟩
  | singleAcquire | singleRelease | semAcquire | semRelease | readLock | writeLock | readerRelease
  | writerRelease | zrem | hdel => contradiction

end OwnerCmd

/-! ## Release calls -/

/-- A command that is executed while a release of `a` is under way: anything
of another owner, or a renewal of its own. -/
structure Bystander (a : String) where
  time : Int
  owner : String
  cmd : OwnerCmd
  bystands : owner ≠ a ∨ cmd.renews = true

def Bystander.run (e : Bystander a) (s : Server) : Server :=
  (e.cmd.run e.time e.owner (s.evict e.time)).1

/-- One execution of the release command, with what is executed since the call
began or since the execution before. -/
structure Execution (a : String) where
  meanwhile : List (Bystander a)
  time : Int

namespace Execution

/-- The keys as the command finds them. -/
def found (x : Execution a) (s : Server) : Server :=
  (x.meanwhile.foldl (fun s e => e.run s) s).evict x.time

def run (k : LeaseKind) (x : Execution a) (s : Server) : Server × Reply :=
  k.releaseCmd.run x.time a (x.found s)

end Execution

/-- A call of `Release` in which the command is executed, once or more. -/
structure ReleaseCall (a : String) where
  start : Int
  first : Execution a
  more : List (Execution a)

namespace ReleaseCall

/-- The answer of the last execution. -/
def lastAnswer (k : LeaseKind) : Execution a → List (Execution a) → Server → Reply
  | x, [], s => (x.run k s).2
  | x, y :: ys, s => lastAnswer k y ys (x.run k s).1

/-- The grant was whole at `now`, when the call began or after an execution,
and was not when the next execution came: it expired, or somebody reclaimed
it. -/
def TakenAway (k : LeaseKind) : Int → List (Execution a) → Server → Prop
  | _, [], _ => False
  | now, x :: xs, s =>
      (k.Whole now (s.holdings a) ∧ ¬k.Whole x.time ((x.found s).holdings a)) ∨
        TakenAway k x.time xs (x.run k s).1

/-- The call reports `ErrLost`. -/
def ReportsLost (k : LeaseKind) (call : ReleaseCall a) (s : Server) : Prop :=
  lastAnswer k call.first call.more s ≠ k.success

/-- `ErrLost` means that the grant was not whole when the call began, or was
taken away during the call. -/
def Truthful (k : LeaseKind) (call : ReleaseCall a) (s : Server) : Prop :=
  call.ReportsLost k s →
    ¬k.Whole call.start (s.holdings a) ∨ TakenAway k call.start (call.first :: call.more) s

end ReleaseCall

/-! ## One execution -/

/-- The members of a permit set are different, so each is counted once. -/
theorem semReleaseLoop_snd (h : tokens.Nodup) (z : Permits) (removed : Nat) :
    (semReleaseLoop tokens z removed).2 =
      removed + tokens.countP (fun m => (z.score m).isSome) := by
  induction tokens generalizing z removed with
  | nil => rfl
  | cons m ms ih =>
      obtain ⟨hm, hms⟩ := List.nodup_cons.mp h
      have hrest : ms.countP (fun m' => ((z.rem m).score m').isSome) =
          ms.countP (fun m' => (z.score m').isSome) := by
        apply List.countP_congr
        intro m' hm'
        have hne : m' ≠ m := fun he => hm (he ▸ hm')
        rw [ZSet.score_rem_of_ne z hne]
      rw [semReleaseLoop, ih hms, hrest, List.countP_cons]
      omega

/-- `sem_release` answers the number of its tokens when all were there. -/
theorem semRelease_snd_eq_iff (h : tokens.Nodup) (hlen : tokens.length < 2 ^ 53) (z : Permits) :
    (semRelease tokens z).2 = .int tokens.length ↔ ∀ m ∈ tokens, z.score m ≠ none := by
  have hle := List.countP_le_length (p := fun m => (z.score m).isSome) (l := tokens)
  rw [semRelease, semReleaseLoop_snd h, Nat.zero_add, Reply.number_of_lt (by omega),
    Reply.int.injEq, List.countP_eq_length]
  simp [Option.isSome_iff_ne_none]

theorem singleRelease_snd_eq_iff (a : String) (k : Slot String) :
    (singleRelease a k).2 = .int 1 ↔ storedBy a k ≠ none := by
  rw [storedBy_ne_none_iff]
  rcases singleRelease_cases a k with ⟨hown, heq⟩ | ⟨hown, heq⟩ <;> simp [heq, hown]

theorem semRelease_score_of_mem (z : Permits) (h : m ∈ tokens) :
    (semRelease tokens z).1.score m = none := by
  rw [semRelease_fst, ZSet.score_remAll, if_pos h]

namespace LeaseKind

/-- An execution answers success exactly when it finds all that was granted,
expired or not. -/
theorem success_iff (k : LeaseKind) (t : Int) (a : String) (s : Server) :
    (k.releaseCmd.run t a s).2 = k.success ↔ k.Stored (s.holdings a) := by
  cases k with
  | singleOwner => exact singleRelease_snd_eq_iff a s.single.lock
  | permitSet n =>
      have hiff := semRelease_snd_eq_iff (nodup_permitTokens a n.val)
        (by rw [length_permitTokens]; exact n.isLt) s.permits
      rw [length_permitTokens] at hiff
      refine hiff.trans ⟨fun h i hi => h _ (mem_permitTokens.mpr ⟨i, hi, rfl⟩), ?_⟩
      rintro h _ hm
      obtain ⟨i, hi, rfl⟩ := mem_permitTokens.mp hm
      exact h i hi
  | rwWriter => exact singleRelease_snd_eq_iff a s.rw.writer
  | rwReader =>
      have hiff := semRelease_snd_eq_iff (List.nodup_singleton a) (by simp) s.rw.readers
      exact hiff.trans (by simp [Stored, Server.holdings])

/-- After it, nothing of the grant is left. -/
theorem gone_after (k : LeaseKind) (t : Int) (a : String) (s : Server) :
    k.Gone ((k.releaseCmd.run t a s).1.holdings a) := by
  cases k with
  | singleOwner => exact storedBy_singleRelease_self a s.single.lock
  | permitSet n =>
      intro i hi
      exact semRelease_score_of_mem s.permits (mem_permitTokens.mpr ⟨i, hi, rfl⟩)
  | rwWriter => exact storedBy_singleRelease_self a s.rw.writer
  | rwReader => exact semRelease_score_of_mem s.rw.readers List.mem_cons_self

theorem not_stored_after {k : LeaseKind} (hk : k.Sends) (t : Int) (a : String) (s : Server) :
    ¬k.Stored ((k.releaseCmd.run t a s).1.holdings a) := by
  have hgone := k.gone_after t a s
  cases k with
  | singleOwner | rwWriter | rwReader => exact fun h => h hgone
  | permitSet n => exact fun h => h 0 hk (hgone 0 hk)

end LeaseKind

/-! ## Whole calls -/

theorem Bystander.fades (e : Bystander a) (s : Server) :
    (s.holdings a).Fades ((e.run s).holdings a) := by
  obtain ⟨time, owner, cmd, hby⟩ := e
  refine (s.lapses_evict time a).fades.trans ?_
  by_cases howner : owner = a
  · subst howner
    exact cmd.fades_of_renews (hby.resolve_left fun h => h rfl) time owner _
  · exact (cmd.lapses_of_ne howner time _).fades

/-- Until the command is executed, grants only fade. -/
theorem Execution.fades_found (x : Execution a) (s : Server) :
    (s.holdings a).Fades ((x.found s).holdings a) := by
  have hrun (es : List (Bystander a)) (s : Server) :
      (s.holdings a).Fades ((es.foldl (fun s e => e.run s) s).holdings a) := by
    induction es generalizing s with
    | nil => exact .refl _
    | cons e es ih => exact (e.fades s).trans (ih (e.run s))
  exact (hrun x.meanwhile s).trans (Server.lapses_evict x.time _ a).fades

namespace ReleaseCall

/-- What is not stored is not taken away. -/
theorem not_takenAway_cons {k : LeaseKind} {x : Execution a} {s : Server}
    (h : ¬k.Stored (s.holdings a)) (hrest : ¬TakenAway k x.time xs (x.run k s).1) (now : Int) :
    ¬TakenAway k now (x :: xs) s := by
  rintro (⟨hw, -⟩ | htaken)
  · exact h hw.stored
  · exact hrest htaken

/-- Once the grant is not stored, no execution answers success, and nothing is
taken away. -/
theorem lost_of_not_stored {k : LeaseKind} (hk : k.Sends) (now : Int) (x : Execution a)
    (xs : List (Execution a)) {s : Server} (h : ¬k.Stored (s.holdings a)) :
    lastAnswer k x xs s ≠ k.success ∧ ¬TakenAway k now (x :: xs) s := by
  induction xs generalizing now x s with
  | nil =>
      have hfound : ¬k.Stored ((x.found s).holdings a) := mt (x.fades_found s).stored h
      exact ⟨mt (k.success_iff x.time a (x.found s)).mp hfound, not_takenAway_cons h id now⟩
  | cons y ys ih =>
      obtain ⟨hans, htaken⟩ := ih x.time y (LeaseKind.not_stored_after hk x.time a (x.found s))
      exact ⟨hans, not_takenAway_cons h htaken now⟩

/-- **Truthful releases**: a call of `Release` tells the truth exactly when
its command is executed once, or the grant is not whole when the call begins
or when the command is first executed. -/
theorem truthful_iff {k : LeaseKind} (hk : k.Sends) (call : ReleaseCall a) (s : Server) :
    call.Truthful k s ↔ call.more = [] ∨ ¬k.Whole call.start (s.holdings a) ∨
      ¬k.Whole call.first.time ((call.first.found s).holdings a) := by
  obtain ⟨start, x, xs⟩ := call
  constructor
  · intro h
    by_contra hcon
    push Not at hcon
    obtain ⟨hmore, hstart, hfound⟩ := hcon
    obtain ⟨y, ys, rfl⟩ := List.exists_cons_of_ne_nil hmore
    have hafter : ¬k.Stored ((x.run k s).1.holdings a) :=
      LeaseKind.not_stored_after hk x.time a (x.found s)
    obtain ⟨hans, htaken⟩ := lost_of_not_stored hk x.time y ys hafter
    -- the grant was there all the time, and the first execution removed it
    rcases h hans with hnot | ⟨-, hnot⟩ | hrest
    · exact hnot hstart
    · exact hnot hfound
    · exact htaken hrest
  · intro h hlost
    by_cases hstart : k.Whole start (s.holdings a)
    · refine .inr (.inl ⟨hstart, ?_⟩)
      rcases h with rfl | hnot | hfound
      · have hstored : ¬k.Stored ((x.found s).holdings a) :=
          mt (k.success_iff x.time a (x.found s)).mpr hlost
        exact fun hw => hstored hw.stored
      · exact absurd hstart hnot
      · exact hfound
    · exact .inl hstart

/-- A permit that is released once, after it was reclaimed by another owner. -/
theorem truthful_iff_reclaimed :
    let s := (OwnerCmd.run 0 "a" (.semAcquire 0 1000 1 1) .init).1
    let call : ReleaseCall "a" :=
      ⟨999, ⟨[⟨1000, "b", .semAcquire 1000 1000 1 1, .inl (by decide)⟩], 1001⟩, []⟩
    call.ReportsLost (.permitSet 1) s ∧ call.Truthful (.permitSet 1) s := by
  intro s call
  have hlost : lastAnswer (.permitSet 1) call.first call.more s = .int 0 := by decide +kernel
  have hsends : (LeaseKind.permitSet 1).Sends := Nat.one_pos
  refine ⟨?_, (truthful_iff hsends call s).mpr (.inl rfl)⟩
  rw [ReportsLost, hlost]
  decide

/-- **A false `ErrLost`**: `a` holds the mutex, nothing else happens, and the
release command is executed twice because the first answer was lost.  The
first execution removes the intact grant, the second reports it lost. -/
theorem retried_release_reports_lost :
    let s := (OwnerCmd.run 0 "a" (.singleAcquire 1000 true) .init).1
    let call : ReleaseCall "a" := ⟨4, ⟨[], 5⟩, [⟨[], 6⟩]⟩
    LeaseKind.singleOwner.Whole 4 (s.holdings "a") ∧
      (call.first.run .singleOwner s).2 = .int 1 ∧
      call.ReportsLost .singleOwner s ∧
      ¬TakenAway .singleOwner 4 (call.first :: call.more) s ∧
      ¬call.Truthful .singleOwner s := by
  intro s call
  have hwhole : LeaseKind.singleOwner.Whole 4 (s.holdings "a") :=
    show storedBy "a" s.single.lock ≠ none by decide +kernel
  have hfound : LeaseKind.singleOwner.Whole 5 ((call.first.found s).holdings "a") :=
    show storedBy "a" (call.first.found s).single.lock ≠ none by decide +kernel
  have hafter : ¬LeaseKind.singleOwner.Stored ((call.first.run .singleOwner s).1.holdings "a") :=
    LeaseKind.not_stored_after (k := .singleOwner) trivial 5 "a" (call.first.found s)
  obtain ⟨hlost, hrest⟩ := lost_of_not_stored (k := .singleOwner) trivial 5 ⟨[], 6⟩ [] hafter
  have htaken : ¬TakenAway .singleOwner 4 (call.first :: call.more) s := by
    rintro (⟨-, hnot⟩ | htaken)
    · exact hnot hfound
    · exact hrest htaken
  refine ⟨hwhole, by decide +kernel, hlost, htaken, ?_⟩
  intro htrue
  rcases htrue hlost with hnot | htaken'
  · exact hnot hwhole
  · exact htaken htaken'

end ReleaseCall

end Distsync
