import Distsync.RW
import Distsync.Lease.System

/-!
# Distsync.RW.Lease

Read-write locks as their holders see them: any number of `RWReader` and
`RWWriter` objects on one set of keys, and one clock shared by clients and
server.

The two roles expire differently: a writer by the TTL of its key, which the
server counts, a reader by a score, which it has written itself.  Both kinds
of lease are covered as long as they are valid: the writer's token is in the
key (`writer_of_valid`), the reader's in the set (`reader_of_valid`).  On the
server the two exclude each other.
-/

namespace Distsync

open Redis Trans

/-- The two roles of a read-write lock. -/
inductive Role where
  | reader
  | writer
deriving DecidableEq

namespace Role

/-- The command of `RWReader.Acquire` or `RWWriter.TryAcquire`. -/
def lockCmd (role : Role) (id : String) (ttl start : Int) : RWCmd :=
  match role with
  | reader => .readLock id (milliseconds ttl) (unixMilli start) (waiterTimeout ttl)
  | writer => .writeLock id (milliseconds ttl) (unixMilli start) (waiterTimeout ttl)

/-- The command of `Renew`. -/
def renewCmd (role : Role) (id : String) (ttl start : Int) : RWCmd :=
  match role with
  | reader => .readerRenew (unixMilli start) (milliseconds ttl) [id]
  | writer => .writerRenew id (milliseconds ttl)

/-- The command of `Release`. -/
def releaseCmd (role : Role) (id : String) : RWCmd :=
  match role with
  | reader => .readerRelease [id]
  | writer => .writerRelease id

/-- The entry name of an owner in the arrival queue. -/
def member (role : Role) (id : String) : String :=
  match role with
  | reader => readerMember id
  | writer => writerMember id

end Role

/-- The lease objects on one read-write lock. -/
structure RWFleet (ι : Type) where
  id : ι → String
  id_inj : Function.Injective id
  ttl : ι → WholeTtl
  role : ι → Role

namespace RWFleet

variable {ι : Type} (F : RWFleet ι)

/-- What may happen to the keys with no lease call behind it: the two commands
of anybody's `Dequeue`, and expiry. -/
inductive Internal (server : Int) (s : RWStore) : RWStore → Prop
  | zrem (m : String) : Internal server s (RWCmd.exec (unixMilli server) (.zrem m) s).1
  | hdel (m : String) : Internal server s (RWCmd.exec (unixMilli server) (.hdel m) s).1
  | sweep : Internal server s (RWCmd.exec (unixMilli server) .sweep s).1
  /-- The writer key may be gone as soon as its deadline is reached. -/
  | expireWriter (hw : s.writer = .present v (some d)) (hd : d * 1000000 ≤ server) :
      Internal server s { s with writer := .absent }

/-- The lease objects against the server. -/
def system : LeaseSystem ι RWStore where
  ttl := F.ttl
  clocks := .shared
  acquire server start i :=
    RWCmd.exec (unixMilli server) ((F.role i).lockCmd (F.id i) (F.ttl i).ns start)
  renew server start i :=
    RWCmd.exec (unixMilli server) ((F.role i).renewCmd (F.id i) (F.ttl i).ns start)
  release server i := RWCmd.exec (unixMilli server) ((F.role i).releaseCmd (F.id i))
  internal := Internal
  -- `RWReader.Renew` and `RWWriter.Renew` do not look at whether there was a grant
  sendsRenew _ := True

end RWFleet

/-! ## What holds of the keys -/

namespace RWStore

/-- Nobody holds the lock; counter and queue may be in any state. -/
def Vacant (s : RWStore) : Prop := s.writer = .absent ∧ s.readers = ∅

/-- The roles exclude each other, the writer key has a TTL, and a writer has
counted its grant. -/
structure Inv (s : RWStore) : Prop where
  exclusive : s.Exclusive
  timed : Timed s.writer
  counted : s.writer.get ≠ none → s.fencing ≠ none

theorem Vacant.inv {s : RWStore} (h : s.Vacant) : s.Inv := by
  refine ⟨fun _ => h.2, ?_, ?_⟩ <;> rw [h.1]
  · nofun
  · exact fun hne => absurd rfl hne

theorem Inv.evict {s : RWStore} (h : s.Inv) (t : Int) : (s.evict t).Inv := by
  refine ⟨h.exclusive.evict t, ?_, ?_⟩
  · intro v hv
    have hget : ((s.writer).evict t).get = some v := Slot.get_eq_some_iff.mpr ⟨_, hv⟩
    exact h.timed v ((Slot.get_evict_eq_some hget).symm.trans hv)
  · intro hne
    apply h.counted
    intro hn
    rw [Slot.get_eq_none_iff] at hn
    exact hne (by rw [RWStore.evict, hn]; rfl)

/-- A command that leaves fencing and the writer key alone, or drops it. -/
theorem Inv.of_writer {s s' : RWStore} (h : s.Inv) (hex : s'.Exclusive) (ht : Timed s'.writer)
    (hf : s'.fencing = s.fencing) (hw : s'.writer.get ≠ none → s.writer.get ≠ none) : s'.Inv :=
  ⟨hex, ht, fun hne => by rw [hf]; exact h.counted (hw hne)⟩

theorem Inv.run {s : RWStore} (h : s.Inv) (t : Int) (c : RWCmd) : (c.run t s).1.Inv := by
  have hex := c.run_exclusive t h.exclusive
  cases c with
  | readLock token ttl now wt =>
      have hw := rwReadLock_writer t token ttl now wt s
      refine h.of_writer hex ?_ hw.2 ?_ <;> rw [RWCmd.run, hw.1]
      · exact h.timed
      · exact fun hne => hne
  | writeLock token ttl now wt =>
      rcases rwWriteLock_cases t token ttl now wt s with
        ⟨-, heq⟩ | ⟨-, z, r, -, -, heq⟩ | ⟨-, -, -, -, heq⟩
      · rw [RWCmd.run, heq]
        exact h
      · rw [RWCmd.run, heq] at hex ⊢
        refine h.of_writer hex ?_ (prepare_fencing ..) ?_ <;>
          rw [show RWStore.writer _ = s.writer from prepare_writer ..]
        · exact h.timed
        · exact fun hne => hne
      · rw [RWCmd.run, heq] at hex ⊢
        exact ⟨hex, nofun, nofun⟩
  | writerRenew token ttl =>
      refine h.of_writer hex (timed_singleRenew h.timed _ _ _) rfl ?_
      intro hne hn
      rcases singleRenew_cases t token ttl s.writer with ⟨hown, -⟩ | ⟨-, heq⟩
      · exact absurd (hn.symm.trans hown) nofun
      · rw [RWCmd.run, heq] at hne
        exact hne hn
  | writerRelease token =>
      refine h.of_writer hex (timed_singleRelease h.timed _) rfl ?_
      intro hne hn
      rcases singleRelease_cases token s.writer with ⟨hown, -⟩ | ⟨-, heq⟩
      · exact absurd (hn.symm.trans hown) nofun
      · rw [RWCmd.run, heq] at hne
        exact hne hn
  | expireWriter => exact ⟨hex, nofun, fun hne => absurd rfl hne⟩
  | readerRenew | readerRelease | zrem | hdel | sweep => exact ⟨hex, h.timed, h.counted⟩

theorem Inv.exec {s : RWStore} (h : s.Inv) (t : Int) (c : RWCmd) : (c.exec t s).1.Inv :=
  (h.evict t).run t c

end RWStore

namespace RWFleet

variable {ι : Type} (F : RWFleet ι)

theorem keeps_inv : F.system.Keeps RWStore.Inv where
  acquire _ _ _ _ h := h.exec _ _
  renew _ _ _ _ h := h.exec _ _
  release _ _ _ h := h.exec _ _
  internal server s s' h hs := by
    cases hs with
    | zrem m => exact h.exec _ _
    | hdel m => exact h.exec _ _
    | sweep => exact h.exec _ _
    | expireWriter => exact ⟨fun hne => absurd rfl hne, nofun, fun hne => absurd rfl hne⟩

/-! ## The writer role -/

/-- What a command finds of a stored token after eviction. -/
theorem lapse_evict (server : Int) (token : String) (lock : Slot String) :
    KeyLease.Lapse server (storedDeadline token lock)
      (storedDeadline token (lock.evict (unixMilli server))) := by
  cases lock with
  | absent => exact .inl rfl
  | present v d =>
      rcases Slot.evict_eq (unixMilli server) (.present v d) with heq | heq
      · exact .inl (by rw [heq])
      · obtain ⟨e, rfl, he⟩ := Slot.evict_eq_absent_iff.mp heq
        by_cases hv : v = token
        · subst hv
          refine .inr ⟨by rw [heq]; rfl, e, storedDeadline_present v e, ?_⟩
          have htrunc := unixMilli_le server
          omega
        · exact .inl (by rw [heq, storedDeadline_present_of_ne hv]; rfl)

/-- `rw_write_lock` as its own object sees it. -/
theorem writeLock_own {p : RWStore} (h : p.Inv) (t : Int) (token : String) (ttl now wt : Int) :
    let k := storedDeadline token p.writer
    let res := rwWriteLock t token ttl now wt p
    (k ≠ none ∧ storedDeadline token res.1.writer = k ∧ (∃ n, res.2 = .int n) ∨
      k = none ∧ storedDeadline token res.1.writer = none ∧ (res.2 = .nil ∨ res.2 = .err) ∨
      k = none ∧ storedDeadline token res.1.writer = some (t + ttl) ∧ ∃ n, res.2 = .int n) := by
  intro k res
  rcases rwWriteLock_cases t token ttl now wt p with
    ⟨hown, heq⟩ | ⟨hown, z, r, -, hr, heq⟩ | ⟨hw, -, -, -, heq⟩
  · obtain ⟨d, hd⟩ := storedDeadline_eq_some h.timed hown
    refine .inl ⟨by simp only [k, hd]; nofun, by simp only [res, heq, k], ?_⟩
    obtain ⟨n, hn⟩ := Option.ne_none_iff_exists'.mp (h.counted (by rw [hown]; nofun))
    exact ⟨_, by simp only [res, heq, hn]; rfl⟩
  · have hk := storedDeadline_eq_none hown
    refine .inr (.inl ⟨hk, ?_, by simp only [res, heq]; exact hr.imp_right And.left⟩)
    simp only [res, heq, RWStore.prepare_writer]
    exact hk
  · refine .inr (.inr ⟨by simp only [k, hw]; rfl, ?_, _, by simp only [res, heq]; rfl⟩)
    simp only [res, heq, RWStore.grantWriter, storedDeadline_present]

variable {F}

/-- A command that leaves the deadline to the server. -/
theorem lapse_exec {s : RWStore} (server : Int) (c : RWCmd) (token : String)
    (h : storedDeadline token (c.run (unixMilli server) (s.evict (unixMilli server))).1.writer =
      storedDeadline token (s.writer.evict (unixMilli server))) :
    KeyLease.Lapse server (storedDeadline token s.writer)
      (storedDeadline token (RWCmd.exec (unixMilli server) c s).1.writer) := by
  rw [RWCmd.exec, h]
  exact lapse_evict server token s.writer

theorem writer_keyServed (hrole : F.role i = .writer) :
    F.system.KeyServed RWStore.Inv i (fun s => storedDeadline (F.id i) s.writer) where
  acquire server start s h := by
    refine ⟨_, lapse_evict server (F.id i) s.writer, ?_⟩
    have hown := writeLock_own (h.evict (unixMilli server)) (unixMilli server) (F.id i)
      (milliseconds (F.ttl i).ns) (unixMilli start) (waiterTimeout (F.ttl i).ns)
    simp only [system, hrole, Role.lockCmd, RWCmd.exec, RWCmd.run]
    rw [WholeTtl.milliseconds_ns] at hown ⊢
    exact hown
  renew server start s h := by
    refine ⟨_, lapse_evict server (F.id i) s.writer, ?_⟩
    simp only [system, hrole, Role.renewCmd, RWCmd.exec, RWCmd.run]
    rcases singleRenew_stored (unixMilli server) (F.id i) (F.ttl i).milliseconds_pos
        (s.writer.evict (unixMilli server)) with ⟨hown, hans, heq⟩ | ⟨-, heq⟩
    · obtain ⟨d, hd⟩ := storedDeadline_eq_some (h.evict (unixMilli server)).timed hown
      refine .inl ⟨?_, ?_, hans⟩
      · exact Option.ne_none_iff_exists'.mpr ⟨d, hd⟩
      · simp only [RWStore.evict, heq, storedDeadline_present]
        rw [WholeTtl.milliseconds_ns]
    · refine .inr ?_
      simp only [RWStore.evict, heq]
      exact ⟨trivial, by simp⟩
  release server s _ := by
    simp only [system, hrole, Role.releaseCmd, RWCmd.exec, RWCmd.run]
    exact congrArg Option.join (storedBy_singleRelease_self ..)
  acquire_other server start j s hij _ := by
    refine lapse_exec server _ _ ?_
    cases F.role j with
    | reader => rw [Role.lockCmd, RWCmd.run, (rwReadLock_writer ..).1]; rfl
    | writer => exact congrArg Option.join (storedBy_rwWriteLock (F.id_inj.ne hij.symm) ..)
  renew_other server start j s hij _ := by
    refine lapse_exec server _ _ ?_
    cases F.role j with
    | reader => rfl
    | writer => exact congrArg Option.join (storedBy_singleRenew (F.id_inj.ne hij.symm) ..)
  release_other server j s hij _ := by
    refine lapse_exec server _ _ ?_
    cases F.role j with
    | reader => rfl
    | writer => exact congrArg Option.join (storedBy_singleRelease (F.id_inj.ne hij.symm) _)
  internal server s s' _ hs := by
    cases hs with
    | zrem m => exact lapse_exec server _ _ rfl
    | hdel m => exact lapse_exec server _ _ rfl
    | sweep => exact lapse_exec server _ _ rfl
    | expireWriter hw hd =>
        rename_i v d
        by_cases hv : v = F.id i
        · exact .inr ⟨rfl, d, by rw [hw, hv, storedDeadline_present], hd⟩
        · exact .inl (by rw [hw, storedDeadline_present_of_ne hv]; rfl)

/-! ## The reader role -/

theorem reader_scoreServed (hrole : F.role i = .reader) :
    F.system.ScoreServed RWStore.Inv i (fun s => s.readers.score (F.id i)) where
  acquire server start s _ _ := by
    refine ⟨_, .inl rfl, ?_⟩
    simp only [system, hrole, Role.lockCmd, RWCmd.exec, RWCmd.run]
    have hdead : ∀ {z : Permits} {now : Int} {m : String}, ownsAt now z m = false →
        ∀ x, z.score m = some x → x ≤ now := by
      intro z now m hown x hx
      by_contra hlt
      exact absurd (hown.symm.trans (ownsAt_iff.mpr ⟨x, hx, by omega⟩)) nofun
    rcases rwReadLock_cases (unixMilli server) (F.id i) (milliseconds (F.ttl i).ns)
        (unixMilli start) (waiterTimeout (F.ttl i).ns) (s.evict (unixMilli server)) with
      ⟨hown, heq⟩ | ⟨hown, heq⟩ | ⟨hown, -, -, heq⟩ <;> rw [heq]
    · exact .inl ⟨ownsAt_iff.mp hown, rfl, 1, rfl⟩
    · exact .inr (.inl ⟨hdead hown, by rw [RWStore.prepare_readers]; rfl, rfl⟩)
    · refine .inr (.inr ⟨hdead hown, ?_, 1, rfl⟩)
      rw [RWStore.grantReader, ZSet.score_add_self, WholeTtl.milliseconds_ns]
  renew server start s _ := by
    simp only [system, hrole, Role.renewCmd, RWCmd.exec, RWCmd.run]
    rcases semRenew_cases (unixMilli start) (milliseconds (F.ttl i).ns) [F.id i]
        (s.evict (unixMilli server)).readers with ⟨-, heq⟩ | ⟨-, heq⟩ <;> rw [heq]
    · refine .inl ⟨?_, rfl⟩
      rw [ZSet.score_addAll, if_pos List.mem_cons_self, WholeTtl.milliseconds_ns]
    · exact .inr ⟨rfl, nofun⟩
  release server s _ := by
    simp only [system, hrole, Role.releaseCmd, RWCmd.exec, RWCmd.run, semRelease_fst,
      ZSet.score_remAll, List.mem_singleton, if_true]
  acquire_other server start j s hij _ hle := by
    simp only [system, RWCmd.exec]
    cases F.role j with
    | reader => exact .inl (rwReadLock_score_of_ne _ _ _ _ _ (F.id_inj.ne hij))
    | writer =>
        rcases rwWriteLock_readers (unixMilli server) (F.id j) (milliseconds (F.ttl j).ns)
            (unixMilli start) (waiterTimeout (F.ttl j).ns) (s.evict (unixMilli server)) with
          heq | heq <;> simp only [Role.lockCmd, RWCmd.run, heq]
        · exact .inl rfl
        · rw [ZSet.score_remUpTo]
          exact ScoreLease.lapse_filter hle _
  renew_other server start j s hij _ := by
    have hnot : F.id i ∉ [F.id j] := by simpa using F.id_inj.ne hij
    simp only [system, RWCmd.exec]
    cases F.role j with
    | reader => exact .inl (semRenew_score_of_notMem _ _ _ hnot)
    | writer => exact .inl rfl
  release_other server j s hij _ := by
    have hnot : F.id i ∉ [F.id j] := by simpa using F.id_inj.ne hij
    simp only [system, RWCmd.exec]
    cases F.role j with
    | reader => exact .inl (semRelease_score_of_notMem _ hnot)
    | writer => exact .inl rfl
  internal server s s' _ hs := by
    cases hs with
    | zrem m => exact .inl rfl
    | hdel m => exact .inl rfl
    | sweep => exact .inl rfl
    | expireWriter => exact .inl rfl

theorem reader_init (F : RWFleet ι) (i : ι) (st : RWStore) (h : st.Vacant) :
    st.Inv ∧ st.readers.score (F.id i) = none := by
  refine ⟨h.inv, ?_⟩
  rw [h.2]
  rfl

/-! ## Readers and writers with valid leases -/

variable [DecidableEq ι] {s : LeaseState ι RWStore}

/-- A valid writer has its token in the writer key. -/
theorem writer_of_valid (hlast : P.Last)
    (h : Reach (F.system.Init RWStore.Vacant) (F.system.Step P) s)
    (hrole : F.role i = .writer) (hv : (s.obj i).Valid (s.clock i)) :
    s.store.writer.get = some (F.id i) := by
  refine get_of_storedDeadline
    ((writer_keyServed hrole).key_of_valid hlast F.keeps_inv (fun st hst => ⟨hst.inv, ?_⟩) h hv)
  rw [hst.1]
  rfl

/-- A valid reader whose renewals are sent after the grant and do not overlap is
in the readers set. -/
theorem reader_of_valid
    (h : Reach (F.system.Init RWStore.Vacant)
      (F.system.Step Policy.sequential.onceGranted.lastAnswer) s)
    (hrole : F.role i = .reader) (hv : (s.obj i).Valid (s.clock i)) : s.store.readers ≠ ∅ := by
  have hlast := Policy.sequential.onceGranted.last_lastAnswer
  have horder :
      (Policy.sequential.onceGranted.lastAnswer.sendingIf F.system.sendsRenew).Orderly :=
    ⟨fun _ hstart => hstart.2.1, fun _ hstart => hstart.2.2, fun _ _ _ hexec => hexec⟩
  have hscore := (reader_scoreServed hrole).score_of_valid_orderly hlast horder F.keeps_inv
    (F.reader_init i) rfl h hv
  intro hempty
  rw [hempty] at hscore
  exact hscore rfl

variable (F) in
/-- **Reader/writer exclusion**: when the renewals of each object are sent after
its grant and do not overlap, and every attempt returns with the answer of its last
execution, a writer that has not begun releasing and has its deadline ahead is the
only lease, of either role, of which this is true. -/
theorem valid_writer_alone
    (h : Reach (F.system.Init RWStore.Vacant)
      (F.system.Step Policy.sequential.onceGranted.lastAnswer) s) :
    ∀ i, F.role i = .writer → (s.obj i).Valid (s.clock i) →
      ∀ j, (s.obj j).Valid (s.clock j) → j = i := by
  intro i hi hvi j hvj
  have hlast := Policy.sequential.onceGranted.last_lastAnswer
  have hstored := writer_of_valid hlast h hi hvi
  cases hj : F.role j with
  | reader =>
      have hinv : s.store.Inv := F.keeps_inv.reach (fun st hst => hst.inv) h
      exact absurd (hinv.exclusive (by rw [hstored]; nofun)) (reader_of_valid h hj hvj)
  | writer =>
      have hstored' := writer_of_valid hlast h hj hvj
      exact F.id_inj (Option.some.inj (hstored'.symm.trans hstored))

/-- Nothing has happened, and the clock shows 0. -/
theorem reach_start (F : RWFleet ι) (P : Policy) :
    Reach (F.system.Init RWStore.Vacant) (F.system.Step P)
      ⟨0, fun _ => 0, .init, fun _ => .fresh⟩ :=
  .init ⟨⟨rfl, rfl⟩, fun _ => rfl, fun _ => rfl⟩

/-- A writer and a reader of one lock. -/
def writerAndReader : RWFleet Bool where
  id := fun first => if first then "w" else "r"
  id_inj := by
    intro i j
    revert i j
    decide
  ttl := fun _ => .second
  role := fun first => if first then .writer else .reader

/-- The writer gets the lock, and it is alone. -/
theorem valid_writer_alone_writerAndReader :
    ∃ s, Reach (writerAndReader.system.Init RWStore.Vacant)
        (writerAndReader.system.Step Policy.sequential.onceGranted.lastAnswer) s ∧
      (s.obj true).Valid (s.clock true) ∧
      ∀ j, (s.obj j).Valid (s.clock j) → j = true := by
  have hreach := LeaseSystem.reach_run
    (writerAndReader.reach_start Policy.sequential.onceGranted.lastAnswer)
    [.acquireStart true, .acquireExec true, .acquireReturn true (.int 1)] (by decide +kernel)
  refine ⟨_, hreach, ?_, writerAndReader.valid_writer_alone hreach true rfl ?_⟩ <;>
    exact ⟨by decide +kernel, 989000000, by decide +kernel, by decide +kernel⟩

/-- Three writers of one lock. -/
def threeWriters : RWFleet (Fin 3) where
  id := ["u", "v", "w"].get
  id_inj := by
    intro i j
    revert i j
    decide
  ttl := fun _ => .second
  role := fun _ => .writer

/-- **Neither condition can be left out.**  An attempt of writer `"u"` that is
refused at 100 ms is executed again at 120 ms, after the release of `"v"`; the
refusal arrives, the next attempt at 600 ms finds the key its own, and `"u"`
counts on it until 1589 ms though `"w"` can have it from 1120 ms on.  And a renewal
that a reader sends before it is granted carries an older timestamp than the grant:
executed after it, it takes the score from 1500 back to 1000, and a writer is
granted at 1001 ms while the reader counts on 1489 ms. -/
theorem outdated_answer_or_early_renewal :
    (∃ s, Reach (threeWriters.system.Init RWStore.Vacant)
        (threeWriters.system.Step Policy.sequential.onceGranted) s ∧
      s.server = 1121000000 ∧ (s.obj 0).Valid (s.clock 0) ∧ (s.obj 2).Valid (s.clock 2)) ∧
    ∃ s, Reach (writerAndReader.system.Init RWStore.Vacant)
        (writerAndReader.system.Step Policy.sequential.lastAnswer) s ∧
      s.server = 1001000000 ∧ (s.obj true).Valid (s.clock true) ∧
      (s.obj false).Valid (s.clock false) := by
  constructor
  · have hreach := LeaseSystem.reach_run (threeWriters.reach_start Policy.sequential.onceGranted)
      [.acquireStart 1, .acquireExec 1, .acquireReturn 1 (.int 1), .acquireStart 0,
        .elapse 100000000, .acquireExec 0, .elapse 10000000, .releaseStart 1, .releaseExec 1,
        .elapse 10000000, .acquireExec 0, .acquireReturn 0 .nil,
        .elapse 480000000, .acquireStart 0, .acquireExec 0, .acquireReturn 0 (.int 2),
        .elapse 521000000, .acquireStart 2, .acquireExec 2, .acquireReturn 2 (.int 3)]
      (by decide +kernel)
    exact ⟨_, hreach, by decide +kernel,
      ⟨by decide +kernel, 1589000000, by decide +kernel, by decide +kernel⟩,
      ⟨by decide +kernel, 2110000000, by decide +kernel, by decide +kernel⟩⟩
  · have hsent := (writerAndReader.reach_start Policy.sequential.lastAnswer).step
      (.renewStart false 0 rfl trivial fun _ _ h => absurd h (Option.some_ne_none _).symm)
    have hgranted := LeaseSystem.reach_run hsent
      [.elapse 500000000, .acquireStart false, .acquireExec false,
        .acquireReturn false (.int 1)] (by decide +kernel)
    have hrenewed := hgranted.step
      (.renewExec false 0 (q := ⟨0, false, true⟩) rfl rfl)
    have hreach := LeaseSystem.reach_run hrenewed
      [.elapse 501000000, .acquireStart true, .acquireExec true,
        .acquireReturn true (.int 1)] (by decide +kernel)
    exact ⟨_, hreach, by decide +kernel,
      ⟨by decide +kernel, 1990000000, by decide +kernel, by decide +kernel⟩,
      ⟨by decide +kernel, 1489000000, by decide +kernel, by decide +kernel⟩⟩

end RWFleet

end Distsync
