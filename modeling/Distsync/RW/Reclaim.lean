import Distsync.RW.Queue
import Distsync.Trans.Machine

/-!
# Distsync.RW.Reclaim

Readers that crash.  Their members stay in the readers set, which has no TTL,
until somebody reclaims them.

`rw_write_lock` does, on the way to its grant, and `rw_read_lock` does not.  So
a granted attempt leaves no expired reader exactly when it is a writer's, or a
reader's that finds none (`reclaimed_iff`); and readers alone, each of which
crashes, let the set grow without bound (`readers_grow`).
-/

namespace Distsync

open Redis Trans

/-- The keys of one read-write lock, and commands at their server times. -/
def rwServer : Machine RWStore (Int × RWCmd) Reply := fun e s => e.2.exec e.1 s

/-- No member has expired at `now`. -/
def Reclaimed (now : Int) (z : Permits) : Prop := ∀ m sc, z.score m = some sc → now < sc

/-- Then all members are of grants that have not expired. -/
theorem Reclaimed.card_eq {z : Permits} (h : Reclaimed now z) : z.card = z.countAbove now :=
  (ZSet.countAbove_eq_card fun e he => h e.1 e.2 (ZSet.score_eq_some_iff.mpr he)).symm

namespace RWCmd

/-- The command is answered with a grant. -/
def Granted (e : Int × RWCmd) (s : RWStore) : Prop := ∃ n, (rwServer e s).2 = .int n

/-- If the command is an attempt and granted, no expired reader is left, and
there are as many members as grants that have not expired. -/
def Reclaims (e : Int × RWCmd) (s : RWStore) : Prop :=
  ∀ a, e.2.attempt = some a → Granted e s →
    Reclaimed a.now (rwServer e s).1.readers ∧
      (rwServer e s).1.readers.card = (rwServer e s).1.readers.countAbove a.now

/-- If the command is a reader's attempt and granted, it finds no other reader
that has expired, and its own grant lasts. -/
def FindsReclaimed (e : Int × RWCmd) (s : RWStore) : Prop :=
  ∀ token ttl now wt, e.2 = .readLock token ttl now wt → Granted e s →
    (ownsAt now s.readers token = true ∨ 0 < ttl) ∧
      ∀ m, m ≠ token → ∀ sc, s.readers.score m = some sc → now < sc

/-! ## One attempt -/

theorem reclaims_writeLock {s : RWStore} (h : s.Exclusive) (t : Int) (token : String)
    (ttl now wt : Int) : Reclaims (t, .writeLock token ttl now wt) s := by
  rintro a ⟨⟩ ⟨n, hn⟩
  have hempty : (rwServer (t, .writeLock token ttl now wt) s).1.readers = ∅ := by
    change (rwWriteLock t token ttl now wt (s.evict t)).1.readers = ∅
    rcases rwWriteLock_cases t token ttl now wt (s.evict t) with
      ⟨hown, heq⟩ | ⟨-, z, r, -, hr, heq⟩ | ⟨-, hempty, -, -, heq⟩
    · rw [heq]
      exact h.evict t (by rw [hown]; nofun)
    · rw [rwServer, exec, run, heq] at hn
      rcases hr with rfl | ⟨rfl, -⟩ <;> contradiction
    · rw [heq, RWStore.grantWriter, RWStore.prepare_readers]
      exact hempty
  have hreclaimed : Reclaimed now (∅ : Permits) := nofun
  rw [hempty]
  exact ⟨hreclaimed, hreclaimed.card_eq⟩

/-- The set that a granted reader leaves. -/
theorem readers_of_granted {s : RWStore} {t : Int} {token : String} {ttl now wt : Int}
    (h : Granted (t, .readLock token ttl now wt) s) :
    (rwServer (t, .readLock token ttl now wt) s).1.readers =
      if ownsAt now s.readers token then s.readers else s.readers.add token (now + ttl) := by
  obtain ⟨n, hn⟩ := h
  rw [rwServer, exec, run] at hn ⊢
  rcases rwReadLock_cases t token ttl now wt (s.evict t) with
    ⟨hown, heq⟩ | ⟨-, heq⟩ | ⟨hown, -, -, heq⟩
  · have howns : ownsAt now s.readers token = true := hown
    rw [heq, if_pos howns]
    rfl
  · rw [heq] at hn
    contradiction
  · have hnot : ownsAt now s.readers token = false := hown
    rw [heq, hnot, RWStore.grantReader, RWStore.prepare_readers]
    rfl

theorem reclaimed_grant_iff (now ttl : Int) (token : String) (z : Permits) :
    Reclaimed now (if ownsAt now z token then z else z.add token (now + ttl)) ↔
      (ownsAt now z token = true ∨ 0 < ttl) ∧
        ∀ m, m ≠ token → ∀ sc, z.score m = some sc → now < sc := by
  cases hown : ownsAt now z token with
  | true =>
      obtain ⟨own, hscore, hlt⟩ := ownsAt_iff.mp hown
      rw [if_pos rfl]
      refine ⟨fun h => ⟨.inl rfl, fun m _ => h m⟩, fun h m sc hsc => ?_⟩
      by_cases hm : m = token
      · subst hm
        cases hscore.symm.trans hsc
        exact hlt
      · exact h.2 m hm sc hsc
  | false =>
      rw [if_neg nofun]
      constructor
      · intro h
        have hself := h token _ (ZSet.score_add_self ..)
        refine ⟨.inr (by omega), fun m hm sc hsc => h m sc ?_⟩
        rw [ZSet.score_add_of_ne _ _ hm, hsc]
      · rintro ⟨hlasts, hothers⟩ m sc hsc
        have httl : 0 < ttl := hlasts.resolve_left nofun
        rw [ZSet.score_add] at hsc
        split at hsc
        · cases hsc
          omega
        · next hm => exact hothers m hm sc hsc

theorem reclaims_readLock_iff (t : Int) (token : String) (ttl now wt : Int) (s : RWStore) :
    Reclaims (t, .readLock token ttl now wt) s ↔
      FindsReclaimed (t, .readLock token ttl now wt) s := by
  constructor
  · rintro h _ _ _ _ ⟨⟩ hgranted
    have hleft := (h _ rfl hgranted).1
    rw [readers_of_granted hgranted] at hleft
    exact (reclaimed_grant_iff ..).mp hleft
  · rintro h _ ⟨⟩ hgranted
    have hleft := (reclaimed_grant_iff ..).mpr (h _ _ _ _ rfl hgranted)
    rw [← readers_of_granted hgranted] at hleft
    exact ⟨hleft, hleft.card_eq⟩

/-- While the two roles are apart, only readers leave others behind. -/
theorem reclaims_iff {s : RWStore} (h : s.Exclusive) (e : Int × RWCmd) :
    Reclaims e s ↔ FindsReclaimed e s := by
  obtain ⟨t, c⟩ := e
  cases c with
  | readLock token ttl now wt => exact reclaims_readLock_iff t token ttl now wt s
  | writeLock token ttl now wt =>
      exact iff_of_true (reclaims_writeLock h t token ttl now wt) nofun
  | readerRenew | readerRelease | writerRenew | writerRelease | zrem | hdel | expireWriter
  | sweep => exact iff_of_true nofun nofun

end RWCmd

/-- **Reclaimed readers**: in a run of commands in any order and with any
timestamps, every granted attempt leaves no reader that is expired at its
timestamp if and only if every granted attempt of a reader finds none but its
own, and is granted for some time. -/
theorem reclaimed_iff (run : List (Int × RWCmd)) :
    rwServer.Along RWCmd.Reclaims run .init ↔ rwServer.Along RWCmd.FindsReclaimed run .init :=
  rwServer.along_congr (I := RWStore.Exclusive) (fun e _ h => e.2.run_exclusive e.1 (h.evict e.1))
    (fun e _ h => RWCmd.reclaims_iff h e) (fun h => absurd rfl h) run

/-- **A crashed reader stays**: `r1` is granted a second and is not heard of
again.  Four seconds later `r2` is granted, and `r1` is still counted. -/
theorem crashed_reader_stays :
    let run : List (Int × RWCmd) :=
      [(0, .readLock "r1" 1000 0 2000), (5000, .readLock "r2" 1000 5000 2000)]
    let s := rwServer.final run .init
    run.Pairwise (fun e e' => e.1 ≤ e'.1) ∧
      rwServer.trace run .init = run.map (fun e => (e, .int 1)) ∧
      s.readers.score "r1" = some 1000 ∧ s.readers.card = 2 ∧ s.readers.countAbove 5000 = 1 ∧
      ¬rwServer.Along RWCmd.Reclaims run .init := by
  intro run s
  have hr1 : s.readers.score "r1" = some 1000 := by decide +kernel
  refine ⟨by decide, by decide +kernel, hr1, by decide +kernel, by decide +kernel, ?_⟩
  rintro ⟨-, h, -⟩
  exact absurd ((h _ rfl ⟨1, by decide +kernel⟩).1 "r1" 1000 hr1) (by decide)

/-! ## Readers alone -/

/-- Nobody writes, and no writer is waiting. -/
structure RWStore.ReadersOnly (s : RWStore) : Prop where
  writer : s.writer = .absent
  queue : ∀ m sc, s.queue.score m = some sc → isWriterMember m = false

theorem RWStore.ReadersOnly.evict {s : RWStore} (h : s.ReadersOnly) (t : Int) :
    (s.evict t).ReadersOnly := by
  refine ⟨?_, fun m sc hm => ?_⟩
  · rw [RWStore.evict, h.writer]
    rfl
  · rcases Slot.evict_eq t s.waiters with heq | heq
    · rw [RWStore.queue, RWStore.evict, heq] at hm
      exact h.queue m sc hm
    · rw [RWStore.queue, RWStore.evict, heq] at hm
      contradiction

/-- A new reader is granted. -/
theorem RWStore.ReadersOnly.readLock {s : RWStore} (h : s.ReadersOnly) (t : Int) {token : String}
    (hnew : s.readers.score token = none) (ttl now wt : Int) :
    (rwReadLock t token ttl now wt s).2 = .int 1 ∧
      (rwReadLock t token ttl now wt s).1.ReadersOnly ∧
      (rwReadLock t token ttl now wt s).1.readers = s.readers.add token (now + ttl) := by
  have hprep (m : String) (sc : Nat)
      (hm : (s.prepare t (readerMember token) now wt).queue.score m = some sc) :
      isWriterMember m = false := by
    rcases RWStore.score_enter ((RWStore.shrinks_purge _ _ _).score hm) with ⟨rfl, -⟩ | ⟨-, hold⟩
    · exact isWriterMember_readerMember token
    · exact h.queue m sc hold
  have hahead : ((s.prepare t (readerMember token) now wt).queue.below (rwReadSeq token s)).any
      isWriterMember = false := by
    refine List.any_eq_false.mpr fun m hm => ?_
    obtain ⟨sc, hsc, -⟩ := ZSet.mem_below.mp hm
    rw [hprep m sc hsc]
    nofun
  have hans := rwReadLock_granted t token ttl now wt h.writer hahead
  refine ⟨hans, ?_⟩
  rcases rwReadLock_cases t token ttl now wt s with ⟨hown, -⟩ | ⟨-, heq⟩ | ⟨-, -, -, heq⟩
  · obtain ⟨sc, hsc, -⟩ := ownsAt_iff.mp hown
    rw [hnew] at hsc
    contradiction
  · rw [heq] at hans
    contradiction
  · rw [heq]
    refine ⟨⟨?_, fun m sc hm => ?_⟩, ?_⟩
    · exact (RWStore.prepare_writer ..).trans h.writer
    · exact hprep m sc ((RWStore.shrinks_leave _ _).score hm)
    · rw [RWStore.grantReader, RWStore.prepare_readers]

/-- `n` readers that come every two seconds, ask for one, and do not release. -/
def crashes (n : Nat) : List (Int × RWCmd) :=
  (List.range n).map fun (i : Nat) =>
    (2000 * (i : Int), .readLock (permitToken "r" i) 1000 (2000 * (i : Int)) 2000)

theorem crashes_succ (n : Nat) : crashes (n + 1) = crashes n ++
    [(2000 * (n : Int), .readLock (permitToken "r" n) 1000 (2000 * (n : Int)) 2000)] := by
  rw [crashes, List.range_succ, List.map_append]
  rfl

theorem crashes_spec (n : Nat) :
    let s := rwServer.final (crashes n) .init
    rwServer.Along RWCmd.Granted (crashes n) .init ∧ s.ReadersOnly ∧ s.readers.card = n ∧
      ∀ m sc, s.readers.score m = some sc →
        (∃ i < n, m = permitToken "r" i) ∧ sc < 2000 * (n : Int) := by
  induction n with
  | zero => exact ⟨trivial, ⟨rfl, nofun⟩, rfl, nofun⟩
  | succ n ih =>
      obtain ⟨hgranted, honly, hcard, hscore⟩ := ih
      rw [crashes_succ, Machine.along_append, Machine.final_append]
      generalize rwServer.final (crashes n) .init = s at honly hcard hscore
      have hnew : s.readers.score (permitToken "r" n) = none := by
        rw [Option.eq_none_iff_forall_ne_some]
        intro sc hsc
        obtain ⟨⟨i, hi, heq⟩, -⟩ := hscore _ sc hsc
        have := (permitToken_inj.mp heq).2
        omega
      obtain ⟨hans, honly', hreaders⟩ := (honly.evict (2000 * (n : Int))).readLock
        (2000 * (n : Int)) hnew 1000 (2000 * (n : Int)) 2000
      refine ⟨⟨hgranted, ⟨1, hans⟩, trivial⟩, honly', ?_, fun m sc hsc => ?_⟩
      · exact (congrArg ZSet.card hreaders).trans
          ((ZSet.card_add_of_none hnew _).trans (congrArg (· + 1) hcard))
      · have hsc := (congrArg (ZSet.score · m) hreaders).symm.trans hsc
        rw [ZSet.score_add] at hsc
        split at hsc
        · next hm =>
          cases hsc
          exact ⟨⟨n, by omega, hm⟩, by omega⟩
        · obtain ⟨⟨i, hi, heq⟩, hlt⟩ := hscore m sc hsc
          exact ⟨⟨i, by omega, heq⟩, by omega⟩

/-- **Growth without bound**: all of them are granted, none of their grants is
left after two seconds, and all of them are still in the set. -/
theorem readers_grow (n : Nat) :
    rwServer.Along RWCmd.Granted (crashes n) .init ∧
      (rwServer.final (crashes n) .init).readers.card = n ∧
      (rwServer.final (crashes n) .init).readers.countAbove (2000 * (n : Int)) = 0 := by
  obtain ⟨hgranted, -, hcard, hscore⟩ := crashes_spec n
  refine ⟨hgranted, hcard, List.countP_eq_zero.mpr fun e he => ?_⟩
  have hlt := (hscore e.1 e.2 (ZSet.score_eq_some_iff.mpr he)).2
  simpa using hlt.le

end Distsync
