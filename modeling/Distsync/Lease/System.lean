import Distsync.Lease.Key
import Distsync.Lease.Score

/-!
# Distsync.Lease.System

Lease objects against a server: any number of objects on one set of keys, and
everything that can happen.  Calls are started, executed, answered and given
up at any time; the keys are touched by the scripts of all objects and by the
server itself; clocks move on.

A `LeaseSystem` says what the scripts of one kind of lease do.  To show that a
valid lease is still in the keys it is enough to say, one script at a time,
what becomes of the part of the keys that belongs to one object
(`KeyServed`, `ScoreServed`): the system then simulates a `KeyLease` or a
`ScoreLease` of that object.
-/

namespace Distsync

open Redis Trans

/-! ## Clocks -/

/-- How the clients' clocks relate to the server's. -/
inductive Clocks where
  /-- Each on its own; over any interval the server's clock advances at most
  100/99 times as far as a client's. -/
  | drifting
  /-- All show the same time. -/
  | shared

/-- The clocks of the server and of one client at the start. -/
def Clocks.Start : Clocks → Int → Int → Prop
  | drifting, _, _ => True
  | shared, server, clock => clock = server

/-- One clock step. -/
def Clocks.Tick : Clocks → Int → Int → Int → Int → Prop
  | drifting, server, clock, server', clock' =>
      clock ≤ clock' ∧ 99 * (server' - server) ≤ 100 * (clock' - clock)
  | shared, server, clock, server', clock' =>
      clock ≤ clock' ∧ server' - server = clock' - clock

theorem Clocks.Tick.le {K : Clocks} (h : K.Tick server clock server' clock') : clock ≤ clock' := by
  cases K with
  | drifting => exact h.1
  | shared => exact h.1

/-- Shared clocks are within the drift bound. -/
theorem Clocks.Tick.drift {K : Clocks} (h : K.Tick server clock server' clock') :
    99 * (server' - server) ≤ 100 * (clock' - clock) := by
  cases K with
  | drifting => exact h.2
  | shared =>
      obtain ⟨hle, heq⟩ := h
      omega

/-! ## The system -/

/-- One kind of lease: the scripts that objects `ι` run on keys `σ`.  Scripts
get the server clock and, where the client sends a timestamp, the time at
which the request was sent. -/
structure LeaseSystem (ι σ : Type) where
  ttl : ι → WholeTtl
  clocks : Clocks
  /-- `acquire server start i`. -/
  acquire : Int → Int → ι → σ → σ × Reply
  /-- `renew server start i`. -/
  renew : Int → Int → ι → σ → σ × Reply
  /-- `release server i`. -/
  release : Int → ι → σ → σ × Reply
  /-- What may happen to the keys with no lease call behind it. -/
  internal : Int → σ → σ → Prop
  /-- Whether `Renew` of an object sends its command at all. -/
  sendsRenew : LeaseObj → Prop

/-- The keys and the server clock, the objects and their clients' clocks. -/
structure LeaseState (ι σ : Type) where
  server : Int
  clock : ι → Int
  store : σ
  obj : ι → LeaseObj

namespace LeaseSystem

variable {ι σ : Type} (L : LeaseSystem ι σ)

/-- Everything that can happen, as far as `P` allows it.  The transport may have
an attempt executed several times before it returns, and any of the answers may be
the one that arrives. -/
inductive Step [DecidableEq ι] (P : Policy) : LeaseState ι σ → LeaseState ι σ → Prop
  | tick {s : LeaseState ι σ} {server : Int} {clock : ι → Int}
      (hclock : ∀ i, L.clocks.Tick s.server (s.clock i) server (clock i)) :
      Step P s { s with server := server, clock := clock }
  | internal {s : LeaseState ι σ} {store : σ} (hstore : L.internal s.server s.store store) :
      Step P s { s with store := store }
  | acquireStart {s : LeaseState ι σ} (i : ι) (hphase : (s.obj i).phase = .idle) :
      Step P s { s with obj := Function.update s.obj i ((s.obj i).acquireStart (s.clock i)) }
  | acquireExec {s : LeaseState ι σ} (i : ι) (hphase : (s.obj i).phase = .calling start answers) :
      Step P s { s with
        store := (L.acquire s.server start i s.store).1
        obj := Function.update s.obj i
          ((s.obj i).acquireReply start answers (L.acquire s.server start i s.store).2) }
  | acquireReturn {s : LeaseState ι σ} (i : ι)
      (hphase : (s.obj i).phase = .calling start answers) (hans : ans ∈ answers)
      (hP : P.mayReturn answers ans) :
      Step P s { s with
        obj := Function.update s.obj i
          ((s.obj i).acquireReturn start (L.ttl i).ns (s.clock i) ans) }
  /-- The attempt ends in a transport error. -/
  | acquireFail {s : LeaseState ι σ} (i : ι) (hphase : (s.obj i).phase = .calling start answers) :
      Step P s { s with obj := Function.update s.obj i ((s.obj i).acquireFail start) }
  /-- A failed attempt is executed after all. -/
  | acquireLate {s : LeaseState ι σ} (i : ι) (hphase : (s.obj i).phase = .failed start) :
      Step P s { s with store := (L.acquire s.server start i s.store).1 }
  | renewStart {s : LeaseState ι σ} (i : ι) (k : Nat) (hk : (s.obj i).renewals k = none)
      (hsends : L.sendsRenew (s.obj i)) (hP : P.mayStart (s.obj i)) :
      Step P s { s with obj := Function.update s.obj i ((s.obj i).renewStart k (s.clock i)) }
  | renewExec {s : LeaseState ι σ} (i : ι) (k : Nat) (hk : (s.obj i).renewals k = some q)
      (hP : P.mayExec (L.ttl i) (s.obj i) q) :
      Step P s { s with
        store := (L.renew s.server q.start i s.store).1
        obj := Function.update s.obj i
          (if (L.renew s.server q.start i s.store).2 = .int 1 then (s.obj i).renewReply k q
            else s.obj i) }
  | renewReturn {s : LeaseState ι σ} (i : ι) (k : Nat) (hk : (s.obj i).renewals k = some q)
      (hrun : q.running = true) (confirmed : Bool) (hok : confirmed = true → q.ok = true) :
      Step P s { s with
        obj := Function.update s.obj i
          ((s.obj i).renewReturn k q (L.ttl i).ns (s.clock i) confirmed) }
  | releaseStart {s : LeaseState ι σ} (i : ι) :
      Step P s { s with obj := Function.update s.obj i (s.obj i).releaseStart }
  | releaseExec {s : LeaseState ι σ} (i : ι) (hrel : (s.obj i).releasing = true) :
      Step P s { s with store := (L.release s.server i s.store).1 }
  | releaseReturn {s : LeaseState ι σ} (i : ι) (hrel : (s.obj i).releasing = true) :
      Step P s { s with obj := Function.update s.obj i (s.obj i).releaseReturn }

/-- Fresh lease objects and keys as `init` has them. -/
structure Init (init : σ → Prop) (s : LeaseState ι σ) : Prop where
  store : init s.store
  fresh : ∀ i, s.obj i = .fresh
  clocks : ∀ i, L.clocks.Start s.server (s.clock i)

end LeaseSystem

/-! ## Runs that can be executed -/

/-- What happens in a run without renewals in which all clocks go at the same
rate. -/
inductive LeaseEvent (ι : Type) where
  | elapse (d : Nat)
  | acquireStart (i : ι)
  | acquireExec (i : ι)
  | acquireReturn (i : ι) (ans : Reply)
  | releaseStart (i : ι)
  | releaseExec (i : ι)

theorem Clocks.tick_add (K : Clocks) (server clock : Int) (d : Nat) :
    K.Tick server clock (server + d) (clock + d) := by
  cases K with
  | drifting => exact ⟨by omega, by omega⟩
  | shared => exact ⟨by omega, by omega⟩

namespace LeaseSystem

variable {ι σ : Type} (L : LeaseSystem ι σ)

/-- The state after an event, if it can happen. -/
def next [DecidableEq ι] (P : Policy) [∀ answers ans, Decidable (P.mayReturn answers ans)]
    (s : LeaseState ι σ) : LeaseEvent ι → Option (LeaseState ι σ)
  | .elapse d => some { s with server := s.server + d, clock := fun i => s.clock i + d }
  | .acquireStart i =>
      if (s.obj i).phase = .idle then
        some { s with obj := Function.update s.obj i ((s.obj i).acquireStart (s.clock i)) }
      else none
  | .acquireExec i =>
      match (s.obj i).phase with
      | .calling start answers =>
          some { s with
            store := (L.acquire s.server start i s.store).1
            obj := Function.update s.obj i
              ((s.obj i).acquireReply start answers (L.acquire s.server start i s.store).2) }
      | _ => none
  | .acquireReturn i ans =>
      match (s.obj i).phase with
      | .calling start answers =>
          if ans ∈ answers ∧ P.mayReturn answers ans then
            some { s with
              obj := Function.update s.obj i
                ((s.obj i).acquireReturn start (L.ttl i).ns (s.clock i) ans) }
          else none
      | _ => none
  | .releaseStart i => some { s with obj := Function.update s.obj i (s.obj i).releaseStart }
  | .releaseExec i =>
      if (s.obj i).releasing = true then
        some { s with store := (L.release s.server i s.store).1 }
      else none

variable {L} in
theorem step_of_next [DecidableEq ι] {P : Policy}
    [∀ answers ans, Decidable (P.mayReturn answers ans)] (s : LeaseState ι σ) (e : LeaseEvent ι)
    (s' : LeaseState ι σ) (h : L.next P s e = some s') : L.Step P s s' := by
  cases e with
  | elapse d =>
      cases h
      exact .tick fun i => L.clocks.tick_add s.server (s.clock i) d
  | acquireStart i =>
      rw [next] at h
      split at h <;> cases h
      next hphase => exact .acquireStart i hphase
  | acquireExec i =>
      rw [next] at h
      split at h <;> cases h
      next hphase => exact .acquireExec i hphase
  | acquireReturn i ans =>
      rw [next] at h
      split at h
      · next hphase =>
        split at h <;> cases h
        next hans => exact .acquireReturn i hphase hans.1 hans.2
      · contradiction
  | releaseStart i =>
      cases h
      exact .releaseStart i
  | releaseExec i =>
      rw [next] at h
      split at h <;> cases h
      next hrel => exact .releaseExec i hrel

variable {L} in
/-- Events that can happen one after the other lead on to a reachable state. -/
theorem reach_run [DecidableEq ι] {P : Policy}
    [∀ answers ans, Decidable (P.mayReturn answers ans)] {init : σ → Prop} {s : LeaseState ι σ}
    (h : Reach (L.Init init) (L.Step P) s) (es : List (LeaseEvent ι))
    (hes : (es.foldlM (L.next P) s).isSome = true) :
    Reach (L.Init init) (L.Step P) ((es.foldlM (L.next P) s).get hes) :=
  h.execute step_of_next (Option.some_get hes).symm

/-! ## What holds of the keys and of the attempts on their way -/

/-- A property of the keys that every script and the server keep. -/
structure Keeps (I : σ → Prop) : Prop where
  acquire : ∀ server start i st, I st → I (L.acquire server start i st).1
  renew : ∀ server start i st, I st → I (L.renew server start i st).1
  release : ∀ server i st, I st → I (L.release server i st).1
  internal : ∀ server st st', I st → L.internal server st st' → I st'

variable {L} [DecidableEq ι] {init : σ → Prop} {I : σ → Prop}

theorem Keeps.reach (hI : L.Keeps I) (hinit : ∀ st, init st → I st) {s : LeaseState ι σ}
    (h : Reach (L.Init init) (L.Step P) s) : I s.store := by
  refine Reach.invariant (I := fun s => I s.store) (fun s hs => hinit _ hs.store) ?_ h
  intro s s' _ ih hs
  cases hs with
  | internal hstore => exact hI.internal _ _ _ ih hstore
  | acquireExec i hphase => exact hI.acquire _ _ _ _ ih
  | acquireLate i hphase => exact hI.acquire _ _ _ _ ih
  | renewExec i k hk hP => exact hI.renew _ _ _ _ ih
  | releaseExec i hrel => exact hI.release _ _ _ ih
  | tick | acquireStart | acquireReturn | acquireFail | renewStart | renewReturn | releaseStart
  | releaseReturn => exact ih

/-- No attempt carries a timestamp from its client's future. -/
theorem reach_sent {s : LeaseState ι σ} (h : Reach (L.Init init) (L.Step P) s) (i : ι) :
    (s.obj i).Sent (s.clock i) := by
  refine Reach.invariant (I := fun s => ∀ i, (s.obj i).Sent (s.clock i)) ?_ ?_ h i
  · intro s hs i
    rw [hs.fresh i]
    exact LeaseObj.sent_fresh _
  · intro s s' _ ih hs
    cases hs with
    | tick hclock => exact fun i => (ih i).mono (hclock i).le
    | internal => exact ih
    | acquireStart i hphase => exact LeaseObj.Sent.update ih (LeaseObj.sent_acquireStart _ _)
    | acquireExec i hphase => exact LeaseObj.Sent.update ih ((ih i).acquireReply hphase _)
    | acquireReturn i hphase => exact LeaseObj.Sent.update ih ((ih i).acquireReturn hphase _ _ _)
    | acquireFail i hphase => exact LeaseObj.Sent.update ih ((ih i).acquireFail hphase)
    | acquireLate => exact ih
    | renewExec i k =>
        refine LeaseObj.Sent.update ih ?_
        split <;> exact ih i
    | renewStart i | renewReturn i | releaseStart i | releaseReturn i =>
        exact LeaseObj.Sent.update ih (ih i)
    | releaseExec => exact ih

theorem reach_shared (hshared : L.clocks = .shared) {s : LeaseState ι σ}
    (h : Reach (L.Init init) (L.Step P) s) (i : ι) : s.clock i = s.server := by
  refine Reach.invariant (I := fun s => s.clock i = s.server) ?_ ?_ h
  · intro s hs
    have hstart := hs.clocks i
    rw [hshared] at hstart
    exact hstart
  · intro s s' _ ih hs
    cases hs with
    | tick hclock =>
        have htick := hclock i
        rw [hshared] at htick
        have heq := htick.2
        simp only
        omega
    | internal | acquireStart | acquireExec | acquireReturn | acquireFail | acquireLate
    | renewStart | renewExec | renewReturn | releaseStart | releaseExec | releaseReturn => exact ih

/-! ## One object's view -/

section View

variable {τ : Type} (v : Int → Int → σ → LeaseObj → τ) {R : τ → τ → Prop} {s : LeaseState ι σ}

/-- What object `i` sees, as `v` puts it together from the clocks, the keys
and the object. -/
def view (i : ι) (s : LeaseState ι σ) : τ := v s.server (s.clock i) s.store (s.obj i)

variable {v}

/-- A step of object `j` touches its own client state and the keys. -/
theorem view_update {store : σ} {o : LeaseObj} (i j : ι)
    (hself : i = j → Relation.ReflTransGen R (view v i s) (v s.server (s.clock i) store o))
    (hother : i ≠ j →
      Relation.ReflTransGen R (view v i s) (v s.server (s.clock i) store (s.obj i))) :
    Relation.ReflTransGen R (view v i s)
      (view v i { s with store := store, obj := Function.update s.obj j o }) := by
  by_cases hij : i = j
  · subst hij
    simpa only [view, Function.update_self] using hself rfl
  · simpa only [view, Function.update_of_ne hij] using hother hij

omit [DecidableEq ι] in
/-- A step that touches the keys only. -/
theorem view_store {store : σ} (i : ι)
    (h : Relation.ReflTransGen R (view v i s) (v s.server (s.clock i) store (s.obj i))) :
    Relation.ReflTransGen R (view v i s) (view v i { s with store := store }) := h

/-- A step of object `j` that does not touch the keys. -/
theorem view_client {o : LeaseObj} (i j : ι)
    (hself : i = j → R (view v i s) (v s.server (s.clock i) s.store o)) :
    Relation.ReflTransGen R (view v i s)
      (view v i { s with obj := Function.update s.obj j o }) :=
  view_update i j (fun hij => .single (hself hij)) (fun _ => .refl)

end View

/-! ## Leases that live in one key -/

variable (L) in
/-- `key` reads the deadline of object `i` off the keys; this is what the
scripts may do to it.  `I` is what they may assume of the keys. -/
structure KeyServed (I : σ → Prop) (i : ι) (key : σ → Option Int) : Prop where
  acquire : ∀ server start st, I st → ∃ k, KeyLease.Lapse server (key st) k ∧
    let res := L.acquire server start i st
    (k ≠ none ∧ key res.1 = k ∧ (∃ n, res.2 = .int n) ∨
      k = none ∧ key res.1 = none ∧ (res.2 = .nil ∨ res.2 = .err) ∨
      k = none ∧ key res.1 = some (unixMilli server + (L.ttl i).ms) ∧ ∃ n, res.2 = .int n)
  renew : ∀ server start st, I st → ∃ k, KeyLease.Lapse server (key st) k ∧
    let res := L.renew server start i st
    (k ≠ none ∧ key res.1 = some (unixMilli server + (L.ttl i).ms) ∧ res.2 = .int 1 ∨
      key res.1 = k ∧ res.2 ≠ .int 1)
  release : ∀ server st, I st → key (L.release server i st).1 = none
  acquire_other : ∀ server start j st, i ≠ j → I st →
    KeyLease.Lapse server (key st) (key (L.acquire server start j st).1)
  renew_other : ∀ server start j st, i ≠ j → I st →
    KeyLease.Lapse server (key st) (key (L.renew server start j st).1)
  release_other : ∀ server j st, i ≠ j → I st →
    KeyLease.Lapse server (key st) (key (L.release server j st).1)
  internal : ∀ server st st', I st → L.internal server st st' →
    KeyLease.Lapse server (key st) (key st')

/-- **Simulation**: whatever happens, the object sees a `KeyLease` run. -/
theorem KeyServed.view_step {key : σ → Option Int} (hkey : L.KeyServed I i key) (hlast : P.Last)
    {s s' : LeaseState ι σ} (hs : L.Step P s s') (hI : I s.store) :
    Relation.ReflTransGen (KeyLease.Step (L.ttl i))
      (view (fun server clock st o => ⟨server, clock, key st, o⟩) i s)
      (view (fun server clock st o => ⟨server, clock, key st, o⟩) i s') := by
  cases hs with
  | tick hclock => exact .single (.tick (hclock i).le (hclock i).drift)
  | internal hstore => exact (hkey.internal _ _ _ hI hstore).steps
  | acquireStart j hphase =>
      refine view_client i j ?_
      rintro rfl
      exact .acquireStart hphase
  | acquireExec j hphase =>
      refine view_update i j ?_ fun hij => (hkey.acquire_other _ _ j _ hij hI).steps
      rintro rfl
      obtain ⟨k, hlapse, hres⟩ := hkey.acquire s.server _ s.store hI
      refine hlapse.steps.trans ?_
      rcases hres with ⟨hk, heq, n, hans⟩ | ⟨hk, heq, hans⟩ | ⟨hk, heq, n, hans⟩
      · obtain ⟨d, rfl⟩ := Option.ne_none_iff_exists'.mp hk
        rw [heq, hans]
        exact .single (.replay hphase rfl n)
      · rw [heq, hk]
        exact .single (.refuse hphase rfl hans)
      · rw [heq, hans]
        exact .single (.grant hphase hk n)
  | acquireReturn j hphase hans hP =>
      refine view_client i j ?_
      rintro rfl
      obtain ⟨earlier, rfl⟩ := List.head?_eq_some_iff.mp (hlast _ _ hP)
      exact .acquireReturn hphase
  | acquireFail j hphase =>
      refine view_client i j ?_
      rintro rfl
      exact .acquireFail hphase
  | acquireLate j hphase =>
      refine view_store i ?_
      by_cases hij : i = j
      · subst hij
        obtain ⟨k, hlapse, hres⟩ := hkey.acquire s.server _ s.store hI
        refine hlapse.steps.trans ?_
        rcases hres with ⟨-, heq, -⟩ | ⟨hk, heq, -⟩ | ⟨hk, heq, -⟩
        · rw [heq]
          exact .refl
        · rw [heq, hk]
          exact .refl
        · rw [heq]
          exact .single (.lateGrant hphase hk)
      · exact (hkey.acquire_other _ _ j _ hij hI).steps
  | renewStart j k hk hsends hP =>
      refine view_client i j ?_
      rintro rfl
      exact .renewStart k hk
  | renewExec j k hk hP =>
      refine view_update i j ?_ fun hij => (hkey.renew_other _ _ j _ hij hI).steps
      rintro rfl
      obtain ⟨k', hlapse, hres⟩ := hkey.renew s.server _ s.store hI
      refine hlapse.steps.trans ?_
      rcases hres with ⟨hk', heq, hans⟩ | ⟨heq, hans⟩
      · obtain ⟨d, rfl⟩ := Option.ne_none_iff_exists'.mp hk'
        rw [heq, if_pos hans]
        exact .single (.renewExtend k hk rfl)
      · rw [heq, if_neg hans]
        exact .refl
  | renewReturn j k hk hrun confirmed hok =>
      refine view_client i j ?_
      rintro rfl
      exact .renewReturn k hk hrun confirmed hok
  | releaseStart j =>
      refine view_client i j ?_
      rintro rfl
      exact .releaseStart
  | releaseExec j hrel =>
      refine view_store i ?_
      by_cases hij : i = j
      · subst hij
        rw [hkey.release s.server s.store hI]
        exact .single (.release hrel)
      · exact (hkey.release_other _ j _ hij hI).steps
  | releaseReturn j hrel =>
      refine view_client i j ?_
      rintro rfl
      exact .releaseReturn hrel

/-- **A valid lease is stored.** -/
theorem KeyServed.key_of_valid {key : σ → Option Int} (hkey : L.KeyServed I i key)
    (hlast : P.Last) (hI : L.Keeps I) (hinit : ∀ st, init st → I st ∧ key st = none)
    {s : LeaseState ι σ} (h : Reach (L.Init init) (L.Step P) s) (hv : (s.obj i).Valid (s.clock i)) :
    key s.store ≠ none := by
  have hview : Reach KeyLease.Init (KeyLease.Step (L.ttl i))
      (view (fun server clock st o => ⟨server, clock, key st, o⟩) i s) := by
    refine Reach.simulate _ (fun s hs => ⟨(hinit _ hs.store).2, hs.fresh i⟩) ?_ h
    exact fun _ _ hr hs => hkey.view_step hlast hs (hI.reach (fun st hst => (hinit st hst).1) hr)
  exact KeyLease.key_of_valid hview hv

/-! ## Leases that live in a sorted set -/

variable (L) in
/-- `score` reads the common score of the members of object `i` off the keys;
this is what the scripts may do to it. -/
structure ScoreServed (I : σ → Prop) (i : ι) (score : σ → Option Int) : Prop where
  acquire : ∀ server start st, I st → start ≤ server → ∃ sc,
    ScoreLease.Lapse server (score st) sc ∧
    let res := L.acquire server start i st
    ((∃ x, sc = some x ∧ unixMilli start < x) ∧ score res.1 = sc ∧ (∃ n, res.2 = .int n) ∨
      (∀ x, sc = some x → x ≤ unixMilli start) ∧ score res.1 = sc ∧ res.2 = .nil ∨
      (∀ x, sc = some x → x ≤ unixMilli start) ∧
        score res.1 = some (unixMilli start + (L.ttl i).ms) ∧ ∃ n, res.2 = .int n)
  renew : ∀ server start st, I st →
    let res := L.renew server start i st
    score res.1 = some (unixMilli start + (L.ttl i).ms) ∧ res.2 = .int 1 ∨
      score res.1 = score st ∧ res.2 ≠ .int 1
  release : ∀ server st, I st → score (L.release server i st).1 = none
  acquire_other : ∀ server start j st, i ≠ j → I st → start ≤ server →
    ScoreLease.Lapse server (score st) (score (L.acquire server start j st).1)
  renew_other : ∀ server start j st, i ≠ j → I st →
    ScoreLease.Lapse server (score st) (score (L.renew server start j st).1)
  release_other : ∀ server j st, i ≠ j → I st →
    ScoreLease.Lapse server (score st) (score (L.release server j st).1)
  internal : ∀ server st st', I st → L.internal server st st' →
    ScoreLease.Lapse server (score st) (score st')

/-- **Simulation**: whatever happens, the object sees a `ScoreLease` run. -/
theorem ScoreServed.view_step {score : σ → Option Int} (hscore : L.ScoreServed I i score)
    (hlast : P.Last) {s s' : LeaseState ι σ} (hs : L.Step P s s') (hI : I s.store)
    (hsent : ∀ j, (s.obj j).Sent (s.clock j)) (hshared : ∀ j, s.clock j = s.server) :
    Relation.ReflTransGen (ScoreLease.Step (L.ttl i) (P.sendingIf L.sendsRenew))
      (view (fun _ clock st o => ⟨clock, score st, o⟩) i s)
      (view (fun _ clock st o => ⟨clock, score st, o⟩) i s') := by
  have hlapse : ∀ {sc}, ScoreLease.Lapse s.server (score s.store) sc →
      Relation.ReflTransGen (ScoreLease.Step (L.ttl i) (P.sendingIf L.sendsRenew))
        ⟨s.clock i, score s.store, s.obj i⟩ ⟨s.clock i, sc, s.obj i⟩ := by
    intro sc h
    rw [← hshared i] at h
    exact h.steps
  cases hs with
  | tick hclock => exact .single (.tick (hclock i).le)
  | internal hstore => exact hlapse (hscore.internal _ _ _ hI hstore)
  | acquireStart j hphase =>
      refine view_client i j ?_
      rintro rfl
      exact .acquireStart hphase
  | acquireExec j hphase =>
      have hle := (hsent j).1 _ _ hphase
      rw [hshared j] at hle
      refine view_update i j ?_ fun hij => hlapse (hscore.acquire_other _ _ j _ hij hI hle)
      rintro rfl
      obtain ⟨sc, hl, hres⟩ := hscore.acquire s.server _ s.store hI hle
      refine (hlapse hl).trans ?_
      rcases hres with ⟨⟨x, hx, hlt⟩, heq, n, hans⟩ | ⟨hdead, heq, hans⟩ | ⟨hdead, heq, n, hans⟩
      · rw [heq, hans]
        exact .single (.replay hphase (fun hdead => absurd (hdead x hx) (by omega)) n)
      · rw [heq, hans]
        exact .single (.refuse hphase hdead)
      · rw [heq, hans]
        refine .single (.grant hphase ?_ n)
        exact hdead
  | acquireReturn j hphase hans hP =>
      refine view_client i j ?_
      rintro rfl
      obtain ⟨earlier, rfl⟩ := List.head?_eq_some_iff.mp (hlast _ _ hP)
      exact .acquireReturn hphase
  | acquireFail j hphase =>
      refine view_client i j ?_
      rintro rfl
      exact .acquireFail hphase
  | acquireLate j hphase =>
      have hle := (hsent j).2 _ hphase
      rw [hshared j] at hle
      refine view_store i ?_
      by_cases hij : i = j
      · subst hij
        obtain ⟨sc, hl, hres⟩ := hscore.acquire s.server _ s.store hI hle
        refine (hlapse hl).trans ?_
        rcases hres with ⟨-, heq, -⟩ | ⟨-, heq, -⟩ | ⟨-, heq, -⟩
        · rw [heq]
        · rw [heq]
        · rw [heq]
          exact .single (.lateGrant hphase)
      · exact hlapse (hscore.acquire_other _ _ j _ hij hI hle)
  | renewStart j k hk hsends hP =>
      refine view_client i j ?_
      rintro rfl
      exact .renewStart k hk ⟨hsends, hP⟩
  | renewExec j k hk hP =>
      refine view_update i j ?_ fun hij => hlapse (hscore.renew_other _ _ j _ hij hI)
      rintro rfl
      rcases hscore.renew s.server _ s.store hI with ⟨heq, hans⟩ | ⟨heq, hans⟩
      · rw [if_pos hans, heq]
        exact .single (.renewExtend k hk hP)
      · rw [if_neg hans, heq]
        exact .refl
  | renewReturn j k hk hrun confirmed hok =>
      refine view_client i j ?_
      rintro rfl
      exact .renewReturn k hk hrun confirmed hok
  | releaseStart j =>
      refine view_client i j ?_
      rintro rfl
      exact .releaseStart
  | releaseExec j hrel =>
      refine view_store i ?_
      by_cases hij : i = j
      · subst hij
        rw [hscore.release s.server s.store hI]
        exact .single (.release hrel)
      · exact hlapse (hscore.release_other _ j _ hij hI)
  | releaseReturn j hrel =>
      refine view_client i j ?_
      rintro rfl
      exact .releaseReturn hrel

theorem ScoreServed.reach_view {score : σ → Option Int} (hscore : L.ScoreServed I i score)
    (hlast : P.Last) (hI : L.Keeps I) (hinit : ∀ st, init st → I st ∧ score st = none)
    (hshared : L.clocks = .shared) {s : LeaseState ι σ} (h : Reach (L.Init init) (L.Step P) s) :
    Reach ScoreLease.Init (ScoreLease.Step (L.ttl i) (P.sendingIf L.sendsRenew))
      (view (fun _ clock st o => ⟨clock, score st, o⟩) i s) := by
  refine Reach.simulate _ (fun s hs => ⟨(hinit _ hs.store).2, hs.fresh i⟩) ?_ h
  exact fun _ _ hr hs => hscore.view_step hlast hs (hI.reach (fun st hst => (hinit st hst).1) hr)
    (reach_sent hr) (reach_shared hshared hr)

/-- **A confirmed deadline is covered** when renewals arrive in order. -/
theorem ScoreServed.score_of_valid {score : σ → Option Int} (hscore : L.ScoreServed I i score)
    (hI : L.Keeps I) (hinit : ∀ st, init st → I st ∧ score st = none)
    (hshared : L.clocks = .shared) {s : LeaseState ι σ}
    (h : Reach (L.Init init) (L.Step .inOrder) s) (hrel : (s.obj i).releasing = false)
    (hd : (s.obj i).expiresAt = some deadline) (hlt : s.clock i < deadline) :
    ∃ sc, score s.store = some sc ∧ deadline ≤ sc * 1000000 := by
  have hview : Reach ScoreLease.Init (ScoreLease.Step (L.ttl i) .inOrder) _ :=
    (hscore.reach_view Policy.last_inOrder hI hinit hshared h).mono fun _ _ hs =>
      hs.of_policy (fun hstart => hstart.2) fun _ _ _ hexec => hexec
  exact ScoreLease.score_of_valid hview hrel hd hlt

/-- In particular when they do not overlap. -/
theorem ScoreServed.score_of_valid_orderly {score : σ → Option Int}
    (hscore : L.ScoreServed I i score) (hlast : P.Last)
    (hP : (P.sendingIf L.sendsRenew).Orderly) (hI : L.Keeps I)
    (hinit : ∀ st, init st → I st ∧ score st = none) (hshared : L.clocks = .shared)
    {s : LeaseState ι σ} (h : Reach (L.Init init) (L.Step P) s)
    (hv : (s.obj i).Valid (s.clock i)) : score s.store ≠ none := by
  obtain ⟨hrel, deadline, hd, hlt⟩ := hv
  have hview := ScoreLease.reach_inOrder hP (hscore.reach_view hlast hI hinit hshared h)
  obtain ⟨sc, hsc, -⟩ := ScoreLease.score_of_valid hview hrel hd hlt
  exact Option.ne_none_iff_exists'.mpr ⟨sc, hsc⟩

end LeaseSystem

end Distsync
