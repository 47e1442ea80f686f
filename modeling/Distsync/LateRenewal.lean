import Distsync.Semaphore.Lease
import Distsync.RW.Lease

/-!
# Distsync.LateRenewal

What a renewal that arrives late does to a lease that lives in a sorted set.

`sem_renew` writes the send time of the request plus the TTL, and it writes it
also when a later renewal has already moved the score further; the client, on
the other hand, keeps the latest deadline it was told.  When renewals arrive
in order the score covers every confirmed deadline.  When an old one arrives
after a newer one was confirmed, it does not, and the members can be reclaimed
while the holder still counts on them.
-/

namespace Distsync

open Redis Trans

variable {ι : Type} [DecidableEq ι]

/-- **The score covers the confirmed deadline** of every `PermitSet` and of
every `RWReader`, as long as renewals are sent after the grant, none is executed
after one that was sent more than a hundredth of the TTL and a millisecond later,
and every attempt returns with the answer of its last execution. -/
theorem score_covers_deadline (F : PermitFleet ι) (G : RWFleet ι) :
    (∀ s, Reach (F.system.Init (· = ∅)) (F.system.Step .inOrder) s → ∀ i deadline,
      (s.obj i).releasing = false → (s.obj i).expiresAt = some deadline → s.clock i < deadline →
      ∀ m ∈ F.tokens i, ∃ sc, s.store.score m = some sc ∧ deadline ≤ sc * 1000000) ∧
    (∀ s, Reach (G.system.Init RWStore.Vacant) (G.system.Step .inOrder) s → ∀ i deadline,
      G.role i = .reader →
      (s.obj i).releasing = false → (s.obj i).expiresAt = some deadline → s.clock i < deadline →
      ∃ sc, s.store.readers.score (G.id i) = some sc ∧ deadline ≤ sc * 1000000) := by
  constructor
  · intro s h i deadline hrel hd hlt m hm
    have hinv : F.Inv s.store :=
      F.keeps_inv.reach (fun z hz => (PermitFleet.init_inv (i := i) z hz).1) h
    rw [PermitFleet.commonScore hinv i m hm]
    exact (F.scoreServed i).score_of_valid F.keeps_inv PermitFleet.init_inv rfl h hrel hd hlt
  · intro s h i deadline hrole hrel hd hlt
    exact (RWFleet.reader_scoreServed hrole).score_of_valid G.keeps_inv (G.reader_init i) rfl h
      hrel hd hlt

/-! ## A renewal that was overtaken -/

namespace Overtaken

/-- One holder of one permit, with a TTL of one second. -/
def fleet : PermitFleet Unit where
  id := fun _ => "a"
  id_inj := fun _ _ _ => rfl
  permits := fun _ => 1
  capacity := 1
  ttl := fun _ => .second
  permits_pos := by decide

/-- One reader, with a TTL of one second. -/
def oneReader : RWFleet Unit where
  id := fun _ => "r"
  id_inj := fun _ _ _ => rfl
  ttl := fun _ => .second
  role := fun _ => .reader

/-- The system with its one holder, everybody's clock at `now`. -/
def state (now : Int) (z : Permits) (o : LeaseObj) : LeaseState Unit Permits :=
  ⟨now, fun _ => now, z, fun _ => o⟩

/-- The permit with the given score. -/
def scored (sc : Int) : Permits := (∅ : Permits).add "a#0" sc

/-- The lease, granted at time 0. -/
def granted : LeaseObj := ⟨.held 0 1, some 989000000, false, fun _ => none⟩

/-- Two renewals are on their way, sent at 100 ms and at 500 ms. -/
def waiting : LeaseObj := (granted.renewStart 0 100000000).renewStart 1 500000000

/-- The second was executed and confirmed. -/
def renewed : LeaseObj :=
  (waiting.renewReply 1 ⟨500000000, false, true⟩).renewReturn 1 ⟨500000000, true, true⟩
    (fleet.ttl ()).ns 500000000 true

/-- What a run reaches. -/
def Reaches (P : Policy) (now : Int) (z : Permits) (o : LeaseObj) : Prop :=
  Reach (fleet.system.Init (· = ∅)) (fleet.system.Step P) (state now z o)

section Calls

variable {P : Policy} {now : Int} {z : Permits} {o : LeaseObj} (h : Reaches P now z o)
include h

theorem Reaches.tick (hle : now ≤ now') : Reaches P now' z o := by
  refine Reach.step h (.tick fun _ => ?_)
  exact ⟨hle, rfl⟩

theorem Reaches.acquireStart (hphase : o.phase = .idle) : Reaches P now z (o.acquireStart now) :=
  Reach.step h (.acquireStart () hphase)

theorem Reaches.acquireExec (hphase : o.phase = .calling start answers)
    (hans : fleet.system.acquire now start () z = (z', ans)) :
    Reaches P now z' (o.acquireReply start answers ans) := by
  have hstep : Reaches P now (fleet.system.acquire now start () z).1
      (o.acquireReply start answers (fleet.system.acquire now start () z).2) :=
    Reach.step h (.acquireExec () hphase)
  rwa [hans] at hstep

theorem Reaches.acquireReturn (hphase : o.phase = .calling start [ans])
    (hP : P.mayReturn [ans] ans) :
    Reaches P now z (o.acquireReturn start (fleet.ttl ()).ns now ans) :=
  Reach.step h (.acquireReturn () hphase List.mem_cons_self hP)

theorem Reaches.renewStart (k : Nat) (hk : o.renewals k = none)
    (hphase : o.phase.granted = true) (hP : P.mayStart o) :
    Reaches P now z (o.renewStart k now) := Reach.step h (.renewStart () k hk hphase hP)

theorem Reaches.renewExec (hk : o.renewals k = some q) (hP : P.mayExec (fleet.ttl ()) o q)
    (hans : fleet.system.renew now q.start () z = (z', .int 1)) :
    Reaches P now z' (o.renewReply k q) := by
  have hstep : Reaches P now (fleet.system.renew now q.start () z).1
      (if (fleet.system.renew now q.start () z).2 = .int 1 then o.renewReply k q else o) :=
    Reach.step h (.renewExec () k hk hP)
  rwa [hans, if_pos rfl] at hstep

theorem Reaches.renewReturn (hk : o.renewals k = some q) (hrun : q.running = true)
    (hok : q.ok = true) : Reaches P now z (o.renewReturn k q (fleet.ttl ()).ns now true) :=
  Reach.step h (.renewReturn () k hk hrun true fun _ => hok)

end Calls

theorem reaches_granted {P : Policy} (hreturn : ∀ ans, P.mayReturn [ans] ans) :
    Reaches P 0 (scored 1000) granted := by
  have hinit : Reaches P 0 ∅ .fresh := fleet.reach_start P
  have hreturned := ((hinit.acquireStart rfl).acquireExec rfl
    (show _ = (scored 1000, Reply.int 1) by decide +kernel)).acquireReturn rfl (hreturn _)
  have hresult : acquireResult 0 (fleet.ttl ()).ns 0 (.int 1) = .granted 989000000 1 := by
    decide +kernel
  rwa [LeaseObj.acquireReturn, hresult] at hreturned

/-- The lease is renewed twice, and the newer renewal comes first: nothing
that `inOrder` would forbid so far. -/
theorem reaches_renewed {P : Policy} (hreturn : ∀ ans, P.mayReturn [ans] ans)
    (hstart : ∀ o : LeaseObj, o.phase.granted = true → P.mayStart o)
    (hexec : P.mayExec (fleet.ttl ()) waiting ⟨500000000, false, true⟩) :
    Reaches P 500000000 (scored 1500) renewed := by
  have hsent : Reaches P 100000000 (scored 1000) (granted.renewStart 0 100000000) :=
    ((reaches_granted hreturn).tick (by decide)).renewStart 0 rfl rfl (hstart _ rfl)
  have hwaiting : Reaches P 500000000 (scored 1000) waiting :=
    (hsent.tick (by decide)).renewStart 1 rfl rfl (hstart _ rfl)
  have hreplied : Reaches P 500000000 (scored 1500)
      (waiting.renewReply 1 ⟨500000000, false, true⟩) :=
    hwaiting.renewExec rfl hexec (by decide +kernel)
  exact hreplied.renewReturn rfl rfl rfl

theorem renewed_expiresAt : renewed.expiresAt = some 1489000000 := by decide +kernel

end Overtaken

open Overtaken

/-- At 500 ms the renewed permit is covered until 1500 ms, its own deadline
being 1489 ms; so is a reader that has just been granted. -/
theorem score_covers_deadline_renewed :
    (Reaches .inOrder 500000000 (scored 1500) renewed ∧ renewed.expiresAt = some 1489000000 ∧
      ∃ sc, (scored 1500).score "a#0" = some sc ∧ 1489000000 ≤ sc * 1000000) ∧
    ∃ s, Reach (oneReader.system.Init RWStore.Vacant) (oneReader.system.Step .inOrder) s ∧
      (s.obj ()).expiresAt = some 989000000 ∧
      ∃ sc, s.store.readers.score "r" = some sc ∧ 989000000 ≤ sc * 1000000 := by
  have hcovers := score_covers_deadline fleet oneReader
  constructor
  · have hreach : Reaches .inOrder 500000000 (scored 1500) renewed := by
      refine reaches_renewed (fun _ => ⟨rfl, trivial⟩) (fun _ ho => ⟨ho, trivial⟩) ?_
      intro k q hq hok
      rcases update_eq_some hq with ⟨-, rfl⟩ | ⟨-, hq⟩
      · contradiction
      · rcases update_eq_some hq with ⟨-, rfl⟩ | ⟨-, hq⟩ <;> contradiction
    exact ⟨hreach, renewed_expiresAt, hcovers.1 _ hreach () _ (by decide +kernel)
      renewed_expiresAt (by decide) "a#0" (by decide +kernel)⟩
  · have hreach := LeaseSystem.reach_run (oneReader.reach_start .inOrder)
      [.acquireStart (), .acquireExec (), .acquireReturn () (.int 1)] (by decide +kernel)
    refine ⟨_, hreach, ?_, hcovers.2 _ hreach () _ rfl (by decide +kernel) ?_
      (by decide +kernel)⟩ <;> decide +kernel

/-- **A late renewal takes the lease back**: the renewal sent at 100 ms is
executed after the one sent at 500 ms was confirmed.  The holder counts on
1489 ms, its permit expires at 1100 ms. -/
theorem late_renewal_lowers_score :
    ∃ s, Reach (fleet.system.Init (· = ∅)) (fleet.system.Step .afterGrant) s ∧
      (s.obj ()).releasing = false ∧ (s.obj ()).expiresAt = some 1489000000 ∧
      s.clock () = 500000000 ∧ s.store.score "a#0" = some 1100 := by
  have hrenewed := reaches_renewed (P := .afterGrant) (fun _ => ⟨rfl, trivial⟩)
    (fun _ ho => ⟨ho, trivial⟩) trivial
  have hlate : Reaches .afterGrant 500000000 (scored 1100)
      (renewed.renewReply 0 ⟨100000000, false, true⟩) :=
    hrenewed.renewExec rfl trivial (by decide +kernel)
  exact ⟨_, hlate, by decide +kernel, renewed_expiresAt, rfl, by decide +kernel⟩

end Distsync
