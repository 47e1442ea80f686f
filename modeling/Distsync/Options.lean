import Distsync.Acquire.Progress
import Distsync.Heartbeat

/-!
# Distsync.Options

The configuration of a primitive (`options.go`, `New` and `resolved` in
`dist.go`), and the background loop that a guard gets by it.

No option is refused, so any lease time can be asked for: zero or less, which
stands for the default of the client, or a few nanoseconds.  The ticker of a
loop panics when its interval is not positive, and the interval of a short TTL
rounds to zero.  That this never happens is due to the calls, which hand out no
guard under such a TTL (`Client.guarded_iff`).
-/

namespace Distsync

/-! ## Configurations -/

/-- `config`. -/
structure Config where
  ttl : Int
  autoRenew : Bool
  retry : RetryPolicy
  fencing : Bool
  watchdog : Bool

/-- `Option`, the options of one primitive. -/
inductive PrimitiveOption where
  | lease (d : Int)
  | autoRenew
  | noAutoRenew
  | watchdog
  | fencing
  | retry (base max : Int)

def PrimitiveOption.apply (c : Config) : PrimitiveOption → Config
  | lease d => { c with ttl := d }
  | autoRenew => { c with autoRenew := true }
  | noAutoRenew => { c with autoRenew := false }
  | watchdog => { c with watchdog := true }
  | fencing => { c with fencing := true }
  | retry base max => { c with retry := ⟨base, max⟩ }

/-- A client, without what it reports to. -/
structure Client where
  defaults : Config

/-- `ClientOption`, without the options that set what a client reports to. -/
inductive ClientOption where
  | withDefaultLease (d : Int)
  | withAutoRenew (enabled : Bool)
  | withRetry (base max : Int)

def ClientOption.apply (c : Client) : ClientOption → Client
  | withDefaultLease d => { c with defaults.ttl := d }
  | withAutoRenew enabled => { c with defaults.autoRenew := enabled }
  | withRetry base max => { c with defaults.retry := ⟨base, max⟩ }

namespace Client

/-- `New`. -/
def new (opts : List ClientOption) : Client :=
  opts.foldl ClientOption.apply ⟨⟨10000000000, true, .default, false, false⟩⟩

/-- `Client.resolved`. -/
def resolved (c : Client) (opts : List PrimitiveOption) : Config :=
  let cfg := opts.foldl PrimitiveOption.apply c.defaults
  if cfg.ttl ≤ 0 then { cfg with ttl := c.defaults.ttl } else cfg

end Client

/-- What `Mutex.guard`, `RWMutex.guard`, `Semaphore.permit` and
`Leader.runHeld` start for a new guard: the loop and the interval of its
ticker. -/
def Config.loop (c : Config) (jitter : Jitter) : Option (Duty × Int) :=
  if c.autoRenew then some (.renew, renewalInterval c.ttl jitter)
  else if c.watchdog then some (.watch, renewalInterval c.ttl jitter)
  else none

/-! ## The lease time that is asked for -/

/-- The lease time that an option sets. -/
def PrimitiveOption.ttl : PrimitiveOption → Option Int
  | lease d => some d
  | autoRenew | noAutoRenew | watchdog | fencing | retry .. => none

/-- The default lease time that an option sets. -/
def ClientOption.ttl : ClientOption → Option Int
  | withDefaultLease d => some d
  | withAutoRenew _ | withRetry .. => none

/-- The last one that is set, if any. -/
def lastSet (set : α → Option β) (default : β) (opts : List α) : β :=
  (opts.filterMap set).getLast?.getD default

/-- The last `Lease` if it is positive, and otherwise the default: the last
`WithDefaultLease` or ten seconds. -/
def askedLease (copts : List ClientOption) (opts : List PrimitiveOption) : Int :=
  let default := lastSet ClientOption.ttl 10000000000 copts
  let d := lastSet PrimitiveOption.ttl default opts
  if d ≤ 0 then default else d

/-- Options are applied in order, so the last one that sets a field decides. -/
theorem foldl_eq_lastSet (field : σ → β) {apply : σ → α → σ} {set : α → Option β}
    (happly : ∀ s a, field (apply s a) = (set a).getD (field s)) (opts : List α) (s : σ) :
    field (opts.foldl apply s) = lastSet set (field s) opts := by
  induction opts generalizing s with
  | nil => rfl
  | cons a opts ih =>
      rw [List.foldl_cons, ih, happly, lastSet, lastSet, List.filterMap_cons]
      cases set a with
      | none => rfl
      | some b =>
          dsimp only
          rw [List.getLast?_cons]
          rfl

theorem Client.ttl_resolved (copts : List ClientOption) (opts : List PrimitiveOption) :
    ((Client.new copts).resolved opts).ttl = askedLease copts opts := by
  have hdefault : (Client.new copts).defaults.ttl = lastSet ClientOption.ttl 10000000000 copts := by
    refine foldl_eq_lastSet (fun c : Client => c.defaults.ttl) (fun c o => ?_) copts _
    cases o <;> rfl
  have hset (c : Config) : (opts.foldl PrimitiveOption.apply c).ttl =
      lastSet PrimitiveOption.ttl c.ttl opts := by
    refine foldl_eq_lastSet Config.ttl (fun c o => ?_) opts c
    cases o <;> rfl
  rw [resolved, askedLease, ← hdefault, ← hset]
  split <;> rfl

/-! ## Guards -/

/-- The TTLs under which an answer can come in time. -/
theorem lt_requestExpiry_iff (start ttl : Int) : start < requestExpiry start ttl ↔ 1010102 ≤ ttl := by
  rw [requestExpiry]
  rcases le_or_gt 0 ttl with hpos | hneg
  · rw [Int.tdiv_eq_ediv_of_nonneg hpos]
    omega
  · have hdiv : ttl.tdiv 100 = -((-ttl) / 100) := by
      rw [← Int.tdiv_eq_ediv_of_nonneg (by omega), Int.neg_tdiv, neg_neg]
    omega

theorem acquireResult_granted (h : acquireResult start ttl now reply = .granted e m) :
    now < requestExpiry start ttl := by
  cases reply with
  | nil | err => cases h
  | int n =>
      rw [acquireResult] at h
      split at h
      · assumption
      · contradiction

namespace Request

/-- No answer is back before its command is sent. -/
def Clocked {q : Request} (r : q.Try) : Prop := ∀ x back, r.heard = some (x, back) → r.start ≤ back

theorem TryEnd.granted_of_result {e : TryEnd} {n : Nat} (h : e.result = .guard n) :
    e = .granted n := by
  cases e <;> cases h
  rfl

/-- A guard comes from an attempt that was granted. -/
theorem tryAcquire_of_guard {q : Request} {rs : List q.Try} {s : Server} {r : q.Try} {n : Nat}
    (h : (q.call retries rs s).2 = some (r, .guard n)) :
    r ∈ rs ∧ ∃ s', (q.tryAcquire r s').2 = .granted n := by
  cases retries with
  | false =>
      cases rs with
      | nil => contradiction
      | cons r₀ rs =>
          obtain ⟨rfl, hres⟩ : r₀ = r ∧ (q.tryAcquire r₀ s).2.result = .guard n := by
            simpa [call, acquireOnce] using h
          exact ⟨List.mem_cons_self, s, TryEnd.granted_of_result hres⟩
  | true =>
      rw [call, if_pos rfl] at h
      induction rs generalizing s with
      | nil => contradiction
      | cons r₀ rs ih =>
          rw [acquireLoop] at h
          rcases htry : q.tryAcquire r₀ s with ⟨s', e⟩
          simp only [htry] at h
          cases e with
          | errBusy =>
              dsimp only at h
              split at h
              · cases h
              · cases h
              · obtain ⟨hr, hgranted⟩ := ih h
                exact ⟨List.mem_cons_of_mem _ hr, hgranted⟩
          | granted fence =>
              cases h
              exact ⟨List.mem_cons_self, s, by rw [htry]⟩
          | errLost | errScript | errTransport => cases h

theorem le_ttl_of_guard {q : Request} {rs : List q.Try} {s : Server} {r : q.Try} {n : Nat}
    (hclock : ∀ r ∈ rs, Clocked r) (h : (q.call retries rs s).2 = some (r, .guard n)) :
    1010102 ≤ q.ttl := by
  obtain ⟨hr, s', hgranted⟩ := tryAcquire_of_guard h
  rw [tryAcquire, commands] at hgranted
  cases hheard : r.heard with
  | none => simp [hheard] at hgranted
  | some answer =>
      obtain ⟨x, back⟩ := answer
      have hback := hclock r hr x back hheard
      simp only [hheard, answered] at hgranted
      split at hgranted <;> cases hgranted
      next hres =>
      exact (lt_requestExpiry_iff r.start q.ttl).mp (hback.trans_lt (acquireResult_granted hres))

end Request

namespace Contender

/-- No answer is back before its command is sent. -/
def Clocked {c : Contender} (r : Round c) : Prop :=
  ∀ t back, r.delivery = .answered t back → r.start ≤ back

theorem le_ttl_of_granted {c : Contender} {r : Round c} (hclock : Clocked r)
    (h : c.tryAcquire r s = (s', .granted n)) : 1010102 ≤ c.ttl := by
  rw [tryAcquire] at h
  cases hd : r.delivery with
  | unsent => simp [hd] at h
  | inFlight executed => cases executed <;> simp [hd] at h
  | lost executed => cases executed <;> simp [hd] at h
  | answered t back =>
      simp only [hd, discardLateGrant] at h
      split at h
      · cases h
      · cases h
      · split at h <;> cases h
      · next hres =>
        have hback := hclock t back hd
        exact (lt_requestExpiry_iff r.start c.ttl).mp (hback.trans_lt (acquireResult_granted hres))

theorem le_ttl_of_acquireOnce {c : Contender} {rs : List (Round c)} {s : RWStore} {n : Nat}
    (hclock : ∀ r ∈ rs, Clocked r) (h : (c.acquireOnce rs s).2.2 = some (.guard n)) :
    1010102 ≤ c.ttl := by
  cases rs with
  | nil => contradiction
  | cons r rs =>
      rcases htry : c.tryAcquire r s with ⟨s', o⟩
      simp only [acquireOnce, htry] at h
      cases o with
      | granted fence => exact le_ttl_of_granted (hclock r List.mem_cons_self) htry
      | busy | late | failed | unsent | inFlight | lost => cases h

theorem le_ttl_of_acquireLoop {c : Contender} {rs : List (Round c)} {s : RWStore} {n : Nat}
    (hclock : ∀ r ∈ rs, Clocked r) (h : (c.acquireLoop rs s).2.2 = some (.guard n)) :
    1010102 ≤ c.ttl := by
  induction rs generalizing s with
  | nil => contradiction
  | cons r rs ih =>
      obtain ⟨hr, hrs⟩ := List.forall_mem_cons.mp hclock
      rcases htry : c.tryAcquire r s with ⟨s', o⟩
      simp only [acquireLoop, htry] at h
      cases o with
      | granted fence => exact le_ttl_of_granted hr htry
      | busy =>
          dsimp only at h
          split at h
          · cases h
          · cases h
          · exact ih hrs h
      | late | failed | unsent | inFlight | lost => cases h

end Contender

namespace Config

/-- The lease objects of the calls of `Mutex`, `Leader` and `Semaphore`. -/
inductive Makes (c : Config) : Request → Prop
  | mutex (id : String) : Makes c (Mutex.request id c.ttl)
  | leader (id : String) : Makes c (Leader.request id c.ttl c.fencing)
  | semaphore (id : String) (h : Semaphore.request id c.ttl capacity n = some q) : Makes c q

theorem Makes.ttl_eq {c : Config} (h : c.Makes q) : q.ttl = c.ttl := by
  cases h with
  | mutex id | leader id => rfl
  | semaphore id h =>
      rw [Semaphore.request] at h
      split at h <;> cases h
      rfl

/-- Some call under this configuration returns a guard. -/
inductive Guarded (c : Config) : Prop
  | lease (hq : c.Makes q) (retries : Bool) {rs : List q.Try} {s : Server} {r : q.Try} {n : Nat}
      (hclock : ∀ r ∈ rs, Request.Clocked r) (h : (q.call retries rs s).2 = some (r, .guard n))
  | rwMutex (call : Call) (id : String) {rs : List (Round (call.contender id c.ttl))}
      {s : RWStore} {n : Nat} (hclock : ∀ r ∈ rs, Contender.Clocked r)
      (h : (call.run id c.ttl rs s).2.2 = some (.guard n))

theorem Guarded.le_ttl {c : Config} (h : c.Guarded) : 1010102 ≤ c.ttl := by
  cases h with
  | lease hq retries hclock h =>
      rw [← hq.ttl_eq]
      exact Request.le_ttl_of_guard hclock h
  | rwMutex call id hclock h =>
      rw [Call.run_eq] at h
      split at h
      · exact Contender.le_ttl_of_acquireLoop hclock h
      · exact Contender.le_ttl_of_acquireOnce hclock h

/-- Under any longer TTL, a mutex that nobody has locked can be locked. -/
theorem guarded_of_le_ttl {c : Config} (h : 1010102 ≤ c.ttl) : c.Guarded := by
  let q := Mutex.request "a" c.ttl
  let r : q.Try := ⟨0, [], some (⟨[], 0⟩, 0), [], [], [], .elapsed⟩
  have hprompt : r.Prompt 0 :=
    ⟨⟨rfl, rfl⟩, nofun, ⟨⟨[], 0⟩, 0, rfl, nofun, le_refl _, le_refl _⟩, rfl⟩
  have hdrains : q.Drains (-1) .init := nofun
  have hclock : ∀ r' ∈ [r], Request.Clocked r' := by
    intro r' hr' x back hheard
    cases List.mem_singleton.mp hr'
    cases hheard
    exact le_refl _
  have hlate := (lt_requestExpiry_iff 0 c.ttl).mpr h
  rcases q.tryAcquire_prompt trivial (le_refl 0) hlate hprompt hdrains with
    ⟨n, hgranted⟩ | ⟨-, -, hbusy⟩
  · exact .lease (.mutex "a") false hclock (Request.call_of_granted hgranted false [])
  · cases hbusy

end Config

/-- **Configurations**: whatever options a client and a primitive are given, some
call returns a guard just when the lease time that they ask for is long enough,
and then the ticker of the guard's loop has an interval that is positive and at
most two fifths of it, whatever the jitter. -/
theorem Client.guarded_iff (copts : List ClientOption) (opts : List PrimitiveOption) :
    let cfg := (Client.new copts).resolved opts
    (cfg.Guarded ↔ 1010102 ≤ askedLease copts opts) ∧
      (cfg.Guarded → ∀ jitter, ∀ x ∈ cfg.loop jitter,
        0 < x.2 ∧ x.2 ≤ 2 * askedLease copts opts / 5) := by
  intro cfg
  have httl : cfg.ttl = askedLease copts opts := Client.ttl_resolved copts opts
  rw [← httl]
  refine ⟨⟨Config.Guarded.le_ttl, Config.guarded_of_le_ttl⟩, fun hguarded jitter x hx => ?_⟩
  have hle := hguarded.le_ttl
  have hbounds := renewalInterval_bounds (show 6 ≤ cfg.ttl by omega) jitter
  rw [Config.loop] at hx
  split at hx
  · cases hx
    exact hbounds
  · split at hx <;> cases hx
    exact hbounds

/-- A lease time of zero stands for the default; one of five nanoseconds is
taken as it is, and its ticker would have had no interval. -/
theorem Client.guarded_iff_zero :
    (∀ jitter, ∀ x ∈ ((Client.new []).resolved [.lease 5, .lease 0]).loop jitter,
      0 < x.2 ∧ x.2 ≤ 4000000000) ∧
    ¬ ((Client.new []).resolved [.lease 5]).Guarded ∧
    ((Client.new []).resolved [.lease 5]).loop ⟨4 / 5, by norm_num, by norm_num⟩ =
      some (.renew, 0) := by
  have hzero := Client.guarded_iff [] [.lease 5, .lease 0]
  have hfive := Client.guarded_iff [] [.lease 5]
  refine ⟨hzero.2 (hzero.1.mpr (by decide)), fun h => ?_, by decide +kernel⟩
  exact absurd (hfive.1.mp h) (by decide)

end Distsync
