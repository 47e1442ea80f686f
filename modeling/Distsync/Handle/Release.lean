import Distsync.Server.Verdicts
import Distsync.Trans

/-!
# Distsync.Handle.Release

Releasing a handle, and trying again (`handle.release` in `guard.go`).

A call of `release` holds `releaseMu` until it returns.  It marks the handle
lost, stops the background loop and waits for it, and only then sends the
command, which is executed at most once.  When the transport fails the command
may still be on its way, and the next call sends the same one again; when the
server has answered, no other is sent.

All of this is read off a log of what the calls have sent and returned
(`Releasing.release_protocol`).
-/

namespace Distsync

open Redis Trans

/-- A command and the owner it is sent for. -/
structure Remote where
  owner : String
  cmd : OwnerCmd
deriving DecidableEq

/-- The command of `Release`. -/
def LeaseClient.command (l : LeaseClient) : Remote := ⟨l.id, l.kind.releaseCmd⟩

/-- The goroutine of the `Renewer`. -/
inductive Loop where
  /-- No renewer was started. -/
  | absent
  | running
  /-- `done` is closed. -/
  | ended
deriving DecidableEq

/-- Where the call that holds `releaseMu` is. -/
inductive ReleasePhase where
  /-- No call holds it. -/
  | idle
  | entered
  /-- In `stop`, past `markLost`. -/
  | stopping
  /-- In `Renewer.Stop`, waiting for the loop. -/
  | joining
  /-- About to call the lease. -/
  | ready
  /-- The command is on its way. -/
  | sent (r : Remote)
  /-- The command was executed at time `t` on the keys `found`, and the answer
  is on its way. -/
  | executed (r : Remote) (t : Int) (found : Server) (reply : Reply)
deriving DecidableEq

/-- What calls of `release` have sent and returned. -/
inductive ReleaseEntry where
  /-- A command was sent, with the handle and its loop in this state. -/
  | sent (r : Remote) (lost : Bool) (loop : Loop)
  /-- A call got the answer to its command, and returned. -/
  | replied (r : Remote) (t : Int) (found : Server) (verdict : Verdict)
  /-- A call returned the error of the transport. -/
  | failed
  /-- A call returned and had sent nothing. -/
  | skipped (verdict : Verdict)
deriving DecidableEq

def ReleaseEntry.Answered : ReleaseEntry → Prop
  | replied .. => True
  | sent .. | failed | skipped _ => False

/-- A handle, its lease and the server. -/
structure Releasing where
  server : Server
  lease : LeaseClient
  released : Bool
  /-- `lostCtx` is canceled. -/
  lost : Bool
  loop : Loop
  /-- The context of the loop is canceled. -/
  canceled : Bool
  /-- `stopOnce` is done. -/
  stopped : Bool
  releaseDone : Bool
  phase : ReleasePhase
  /-- Commands that nobody waits for any more, and the server has not got. -/
  late : List Remote
  /-- The newest entry first. -/
  log : List ReleaseEntry

/-- What can happen next. -/
inductive ReleaseEvent where
  /-- Any other command is executed: of another owner, or a renewal. -/
  | others (t : Int) (r : Remote)
  /-- A command is executed after its call has failed. -/
  | late (t : Int) (r : Remote)
  /-- A renewal moves `ExpiresAt`. -/
  | renewed (expiresAt : Option Int)
  /-- The deadline or a renewal cancels `lostCtx`. -/
  | markLost
  /-- The loop finds the lease lost. -/
  | loopLost
  /-- The loop finds its context canceled. -/
  | loopCanceled
  /-- A call takes `releaseMu`. -/
  | call
  /-- It begins `stop`. -/
  | stop
  /-- It comes to `stopOnce`. -/
  | once
  /-- The loop it waits for has ended. -/
  | joined
  | send
  | execute (t : Int)
  | reply
  | transportError

namespace Releasing

/-- The call returns. -/
def done (x : Releasing) (e : ReleaseEntry) : Releasing :=
  { x with phase := .idle, log := e :: x.log }

/-- The answer to the command: what `Release` does to the lease, and
`releaseDone`. -/
def answer (x : Releasing) (r : Remote) (t : Int) (found : Server) (reply : Reply) : Releasing :=
  let verdict := Verdict.ofReply x.lease.kind.released reply
  { x.done (.replied r t found verdict) with
    lease := x.lease.forget verdict
    releaseDone := verdict ≠ .failed }

/-- One event, if it can happen. -/
def step (x : Releasing) : ReleaseEvent → Option Releasing
  | .others t r => some { x with server := (r.cmd.run t r.owner (x.server.evict t)).1 }
  | .late t r =>
      if r ∈ x.late then
        some { x with
          server := (r.cmd.run t r.owner (x.server.evict t)).1
          late := x.late.erase r }
      else none
  | .renewed expiresAt => some { x with lease := { x.lease with expiresAt } }
  | .markLost => some { x with lost := true }
  | .loopLost =>
      if x.loop = .running then some { x with lost := true, loop := .ended } else none
  | .loopCanceled =>
      if x.loop = .running ∧ x.canceled = true then some { x with loop := .ended } else none
  | .call =>
      match x.phase with
      | .idle => some (if x.releaseDone then x.done (.skipped .ok) else { x with phase := .entered })
      | _ => none
  | .stop =>
      match x.phase with
      | .entered => some { x with released := true, lost := true, phase := .stopping }
      | _ => none
  | .once =>
      match x.phase with
      | .stopping =>
          some (if x.stopped then { x with phase := .ready }
            else { x with canceled := true, phase := .joining })
      | _ => none
  | .joined =>
      match x.phase with
      | .joining =>
          if x.loop = .running then none else some { x with stopped := true, phase := .ready }
      | _ => none
  | .send =>
      match x.phase with
      | .ready =>
          let r := x.lease.command
          some (if x.lease.kind.Sends then
              { x with phase := .sent r, log := .sent r x.lost x.loop :: x.log }
            else { x.done (.skipped .lost) with releaseDone := true })
      | _ => none
  | .execute t =>
      match x.phase with
      | .sent r =>
          let found := x.server.evict t
          let (server, reply) := r.cmd.run t r.owner found
          some { x with server, phase := .executed r t found reply }
      | _ => none
  | .reply =>
      match x.phase with
      | .executed r t found reply => some (x.answer r t found reply)
      | _ => none
  | .transportError =>
      match x.phase with
      | .sent r => some { x.done .failed with late := r :: x.late }
      | .executed .. => some (x.done .failed)
      | _ => none

/-- The handle of the lease `l`, before any call of `release` and whatever the
keys hold, with or without a loop. -/
def start (server : Server) (l : LeaseClient) (lost : Bool) (loop : Loop) : Releasing :=
  ⟨server, l, false, lost, loop, false, false, false, .idle, [], []⟩

def Init (l : LeaseClient) (x : Releasing) : Prop :=
  ∃ server lost loop, x = start server l lost loop

def Step (x x' : Releasing) : Prop := ∃ e, x.step e = some x'

/-- Events one after the other, if they can happen. -/
def run (x : Releasing) (es : List ReleaseEvent) : Option Releasing := es.foldlM step x

end Releasing

/-! ## The log -/

/-- What an entry says about the handle and the keys. -/
def ReleaseEntry.Sound (l : LeaseClient) : ReleaseEntry → Prop
  | sent r lost loop => lost = true ∧ loop ≠ .running ∧ r = l.command
  | replied r t found verdict => verdict = .ok →
      l.kind.Stored (found.holdings l.id) ∧
        l.kind.Gone ((r.cmd.run t r.owner found).1.holdings l.id)
  | failed | skipped _ => True

/-- What a log says when `releaseDone` is `done`. -/
structure ReleaseLog (l : LeaseClient) (done : Bool) (log : List ReleaseEntry) : Prop where
  sound : ∀ e ∈ log, e.Sound l
  /-- After an answer, calls do nothing and return nil. -/
  final : log.Pairwise fun later earlier => earlier.Answered → later = .skipped .ok
  answered : ∀ e ∈ log, e.Answered → done = true

namespace ReleaseLog

/-- Until there is an answer, any sound entry may follow. -/
theorem cons (h : ReleaseLog l false log) (he : e.Sound l) (hdone : e.Answered → done = true) :
    ReleaseLog l done (e :: log) := by
  have hno {e' : ReleaseEntry} (hmem : e' ∈ log) (hans : e'.Answered) : False := by
    cases h.answered e' hmem hans
  refine ⟨List.forall_mem_cons.mpr ⟨he, h.sound⟩, List.pairwise_cons.mpr ⟨?_, h.final⟩, ?_⟩
  · intro e' hmem hans
    exact (hno hmem hans).elim
  · intro e' hmem hans
    rcases List.mem_cons.mp hmem with rfl | hmem
    · exact hdone hans
    · exact (hno hmem hans).elim

/-- A call that does nothing may always follow. -/
theorem skip (h : ReleaseLog l true log) : ReleaseLog l true (.skipped .ok :: log) :=
  ⟨List.forall_mem_cons.mpr ⟨trivial, h.sound⟩,
    List.pairwise_cons.mpr ⟨fun _ _ _ => rfl, h.final⟩, fun _ _ _ => rfl⟩

end ReleaseLog

/-- An answer of success means that the command has removed the whole grant. -/
theorem LeaseClient.sound_replied (l : LeaseClient) (t : Int) (found : Server) :
    (ReleaseEntry.replied l.command t found
      (Verdict.ofReply l.kind.released (l.kind.releaseCmd.run t l.id found).2)).Sound l := by
  intro hok
  refine ⟨(l.kind.success_iff t l.id found).mp ?_, l.kind.gone_after t l.id found⟩
  obtain ⟨n, hn⟩ := l.kind.releaseCmd_run_int t l.id found
  rw [hn, Verdict.ofReply] at hok
  rw [hn, LeaseKind.success]
  split at hok
  · next heq => rw [heq]
  · contradiction

/-- The server's answer to a release is a verdict on the grant. -/
theorem LeaseKind.ofReply_ne_failed (k : LeaseKind) (t : Int) (a : String) (s : Server) (n : Nat) :
    Verdict.ofReply n (k.releaseCmd.run t a s).2 ≠ .failed := by
  obtain ⟨m, hm⟩ := k.releaseCmd_run_int t a s
  rw [hm, Verdict.ofReply]
  split <;> decide

theorem LeaseClient.id_forget (l : LeaseClient) (verdict : Verdict) :
    (l.forget verdict).id = l.id := by
  unfold forget
  split <;> rfl

/-! ## Runs -/

/-- What holds of a call at its place in `release`. -/
def ReleasePhase.Sound (l : LeaseClient) (lost : Bool) (loop : Loop) : ReleasePhase → Prop
  | idle | entered => True
  | stopping | joining => lost = true
  | ready => lost = true ∧ loop ≠ .running
  | sent r => r = l.command
  | executed r t found reply => r = l.command ∧ reply = (r.cmd.run t r.owner found).2

/-- A handle that is lost stays so, and a loop that has ended. -/
theorem ReleasePhase.Sound.mono {phase : ReleasePhase} (h : phase.Sound l lost loop)
    (hlost : lost = true → lost' = true) (hloop : loop ≠ .running → loop' ≠ .running) :
    phase.Sound l lost' loop' := by
  cases phase with
  | idle | entered => trivial
  | stopping | joining => exact hlost h
  | ready => exact ⟨hlost h.1, hloop h.2⟩
  | sent | executed => exact h

namespace Releasing

/-- What carries the argument: until `releaseDone`, the lease is the one that
was granted. -/
structure Sound (l : LeaseClient) (x : Releasing) : Prop where
  owner : x.lease.id = l.id
  kind : x.releaseDone = false → x.lease.kind = l.kind
  calling : x.phase ≠ .idle → x.releaseDone = false
  phase : x.phase.Sound l x.lost x.loop
  stopped : x.stopped = true → x.loop ≠ .running
  log : ReleaseLog l x.releaseDone x.log

theorem Init.sound {x : Releasing} (h : x.Init l) : x.Sound l := by
  obtain ⟨server, lost, loop, rfl⟩ := h
  have hlog : ReleaseLog l false [] := ⟨List.forall_mem_nil _, .nil, List.forall_mem_nil _⟩
  exact ⟨rfl, fun _ => rfl, fun h => absurd rfl h, trivial, Bool.false_ne_true.elim, hlog⟩

namespace Sound

variable {x : Releasing}

theorem at_phase (h : x.Sound l) (hphase : x.phase = ph) : ph.Sound l x.lost x.loop :=
  hphase ▸ h.phase

/-- During a call, the command is the one of the original grant. -/
theorem command_eq (h : x.Sound l) (hphase : x.phase ≠ .idle) : x.lease.command = l.command := by
  rw [LeaseClient.command, h.owner, h.kind (h.calling hphase), LeaseClient.command]

/-- During a call, nothing was answered. -/
theorem log_calling (h : x.Sound l) (hphase : x.phase ≠ .idle) : ReleaseLog l false x.log := by
  rw [← h.calling hphase]
  exact h.log

/-- When the release is done no call is under way, and the next returns nil. -/
theorem step_call (h : x.Sound l) (hdone : x.releaseDone = true) :
    x.step .call = some (x.done (.skipped .ok)) := by
  have hphase : x.phase = .idle := by
    by_contra hne
    cases hdone.symm.trans (h.calling hne)
  simp only [step, hphase, hdone, if_pos]

theorem markLost (h : x.Sound l) : { x with lost := true }.Sound l :=
  ⟨h.owner, h.kind, h.calling, h.phase.mono (fun _ => rfl) id, h.stopped, h.log⟩

theorem loopEnds (h : x.Sound l) : { x with loop := .ended }.Sound l :=
  ⟨h.owner, h.kind, h.calling, h.phase.mono id nofun, nofun, h.log⟩

theorem call (h : x.Sound l) :
    (if x.releaseDone then x.done (.skipped .ok) else { x with phase := .entered }).Sound l := by
  split
  · next hdone =>
    have hlog := h.log
    rw [hdone] at hlog
    refine ⟨h.owner, h.kind, fun hphase => absurd rfl hphase, trivial, h.stopped, ?_⟩
    rw [done, hdone]
    exact hlog.skip
  · next hdone =>
    exact ⟨h.owner, h.kind, fun _ => Bool.eq_false_iff.mpr hdone, trivial, h.stopped, h.log⟩

/-- A call that fails leaves the tokens as they were. -/
theorem failed (h : x.Sound l) (hphase : x.phase ≠ .idle) : (x.done .failed).Sound l := by
  refine ⟨h.owner, h.kind, fun hidle => absurd rfl hidle, trivial, h.stopped, ?_⟩
  rw [done, h.calling hphase]
  exact (h.log_calling hphase).cons trivial nofun

theorem answer (h : x.Sound l) (hphase : x.phase = .executed r t found reply) :
    (x.answer r t found reply).Sound l := by
  have hcalling : x.phase ≠ .idle := by rw [hphase]; nofun
  obtain ⟨rfl, rfl⟩ := h.at_phase hphase
  have hkind := h.kind (h.calling hcalling)
  have hne := l.kind.ofReply_ne_failed t l.id found l.kind.released
  have hdone : (x.answer l.command t found (l.kind.releaseCmd.run t l.id found).2).releaseDone =
      true := by
    simp only [Releasing.answer, hkind, decide_eq_true_iff]
    exact hne
  refine ⟨?_, fun hnot => ?_, fun hidle => absurd rfl hidle, trivial, h.stopped, ?_⟩
  · exact (x.lease.id_forget _).trans h.owner
  · cases hdone.symm.trans hnot
  · refine (h.log_calling hcalling).cons ?_ fun _ => hdone
    rw [hkind]
    exact l.sound_replied t found

theorem send (h : x.Sound l) (hphase : x.phase = .ready) :
    (if x.lease.kind.Sends then
        { x with phase := .sent x.lease.command, log := .sent x.lease.command x.lost x.loop :: x.log }
      else { x.done (.skipped .lost) with releaseDone := true }).Sound l := by
  have hcalling : x.phase ≠ .idle := by rw [hphase]; nofun
  obtain ⟨hlost, hloop⟩ := h.at_phase hphase
  have hlog := h.log_calling hcalling
  split
  · refine ⟨h.owner, h.kind, fun _ => h.calling hcalling, h.command_eq hcalling, h.stopped, ?_⟩
    simp only [h.calling hcalling]
    exact hlog.cons ⟨hlost, hloop, h.command_eq hcalling⟩ nofun
  · exact ⟨h.owner, nofun, fun hidle => absurd rfl hidle, trivial, h.stopped, hlog.cons trivial nofun⟩

end Sound

theorem sound_step {x x' : Releasing} (h : x.Sound l) (hs : Step x x') : x'.Sound l := by
  obtain ⟨e, he⟩ := hs
  cases e with
  | others t r =>
      cases he
      exact ⟨h.owner, h.kind, h.calling, h.phase, h.stopped, h.log⟩
  | late t r =>
      rw [step] at he
      split at he <;> cases he
      exact ⟨h.owner, h.kind, h.calling, h.phase, h.stopped, h.log⟩
  | renewed expiresAt =>
      cases he
      exact ⟨h.owner, h.kind, h.calling, h.phase, h.stopped, h.log⟩
  | markLost =>
      cases he
      exact h.markLost
  | loopLost =>
      rw [step] at he
      split at he <;> cases he
      exact h.markLost.loopEnds
  | loopCanceled =>
      rw [step] at he
      split at he <;> cases he
      exact h.loopEnds
  | call =>
      rw [step] at he
      split at he <;> cases he
      exact h.call
  | stop =>
      rw [step] at he
      split at he <;> cases he
      next hphase =>
      exact ⟨h.owner, h.kind, fun _ => h.calling (by rw [hphase]; nofun), rfl, h.stopped, h.log⟩
  | once =>
      rw [step] at he
      split at he <;> cases he
      next hphase =>
      have hdone := h.calling (by rw [hphase]; nofun)
      have hlost : x.lost = true := h.at_phase hphase
      split
      · next hstopped =>
        exact ⟨h.owner, h.kind, fun _ => hdone, ⟨hlost, h.stopped hstopped⟩, h.stopped, h.log⟩
      · exact ⟨h.owner, h.kind, fun _ => hdone, hlost, h.stopped, h.log⟩
  | joined =>
      rw [step] at he
      split at he
      · next hphase =>
        have hdone := h.calling (by rw [hphase]; nofun)
        have hlost : x.lost = true := h.at_phase hphase
        split at he <;> cases he
        next hloop =>
        exact ⟨h.owner, h.kind, fun _ => hdone, ⟨hlost, hloop⟩, fun _ => hloop, h.log⟩
      · contradiction
  | send =>
      rw [step] at he
      split at he <;> cases he
      next hphase => exact h.send hphase
  | execute t =>
      rw [step] at he
      split at he <;> cases he
      next r hphase =>
      exact ⟨h.owner, h.kind, fun _ => h.calling (by rw [hphase]; nofun),
        ⟨h.at_phase hphase, rfl⟩, h.stopped, h.log⟩
  | reply =>
      rw [step] at he
      split at he <;> cases he
      next hphase => exact h.answer hphase
  | transportError =>
      rw [step] at he
      split at he <;> cases he
      · next hphase =>
        have hfailed := h.failed (by rw [hphase]; nofun)
        exact ⟨hfailed.owner, hfailed.kind, hfailed.calling, trivial, hfailed.stopped, hfailed.log⟩
      · next hphase => exact h.failed (by rw [hphase]; nofun)

/-- A call whose command is answered does what `Release` does. -/
theorem run_answered {x : Releasing} (hphase : x.phase = .ready) (hsends : x.lease.kind.Sends)
    (t : Int) :
    let released := x.lease.release t (x.server.evict t)
    (x.run [.send, .execute t, .reply]).map (fun y => (y.server, y.lease, y.log.head?)) =
      some (released.1, released.2.1,
        some (.replied x.lease.command t (x.server.evict t) released.2.2)) := by
  simp only [run, List.foldlM_cons, step, hphase, if_pos hsends, LeaseClient.release]
  rfl

/-- **Releases can be retried**: whatever attempts fail and whatever happens
meanwhile, a command is only sent when the handle is lost and its loop is not
running, and it is always the command for the original grant; after the first
answer, calls send nothing and return nil, at once; and a command whose call
returns nil found the whole grant and left nothing of it. -/
theorem release_protocol {x : Releasing} (h : Reach (Init l) Step x) :
    (∀ r lost loop, .sent r lost loop ∈ x.log →
      lost = true ∧ loop ≠ .running ∧ r = ⟨l.id, l.kind.releaseCmd⟩) ∧
    x.log.Pairwise (fun later earlier => earlier.Answered → later = .skipped .ok) ∧
    ((∃ e ∈ x.log, e.Answered) → x.step .call = some (x.done (.skipped .ok))) ∧
    ∀ r t found, .replied r t found .ok ∈ x.log →
      l.kind.Stored (found.holdings l.id) ∧
        l.kind.Gone ((r.cmd.run t r.owner found).1.holdings l.id) := by
  have hsound : x.Sound l :=
    Reach.invariant (I := Sound l) (fun _ => Init.sound) (fun _ _ _ hx hs => sound_step hx hs) h
  refine ⟨fun r lost loop hmem => hsound.log.sound _ hmem, hsound.log.final, ?_, ?_⟩
  · rintro ⟨e, hmem, hans⟩
    exact hsound.step_call (hsound.log.answered e hmem hans)
  · intro r t found hmem
    exact hsound.log.sound _ hmem rfl

/-- Two permits.  The first command does not reach the server before its call
has failed, the second removes the permits, and then the first arrives. -/
theorem release_protocol_second_attempt :
    let l : LeaseClient := ⟨"a", .permitSet 2, 1000000000, some 989000000⟩
    let server := (OwnerCmd.run 0 "a" (.semAcquire 0 1000 2 2) .init).1
    let r : Remote := ⟨"a", .semRelease 2⟩
    let es : List ReleaseEvent := [.call, .stop, .once, .loopCanceled, .joined, .send,
      .transportError, .call, .stop, .once, .send, .execute 20, .reply, .late 30 r, .call]
    ∃ x, (start server l false .running).run es = some x ∧
      x.log = [.skipped .ok, .replied r 20 (server.evict 20) .ok, .sent r true .ended, .failed,
        .sent r true .ended] ∧
      l.kind.Stored ((server.evict 20).holdings "a") := by
  intro l server r es
  have hmap : ((start server l false .running).run es).map log =
      some [.skipped .ok, .replied r 20 (server.evict 20) .ok, .sent r true .ended, .failed,
        .sent r true .ended] := by
    decide +kernel
  obtain ⟨x, hrun, hlog⟩ := Option.map_eq_some_iff.mp hmap
  have hreach : Reach (Init l) Step x :=
    (Reach.init ⟨server, false, .running, rfl⟩).foldlM hrun
  obtain ⟨-, -, -, hremoved⟩ := release_protocol hreach
  exact ⟨x, hrun, hlog, (hremoved r 20 (server.evict 20) (by simp [hlog])).1⟩

end Releasing

end Distsync
