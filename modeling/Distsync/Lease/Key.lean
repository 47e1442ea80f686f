import Distsync.Trans
import Distsync.Lease

/-!
# Distsync.Lease.Key

A lease that lives in one key with a server-side TTL (`SingleOwner`, and the
writer role of a read-write lock), as one lease object sees it: its own client
clock, the server clock, and the deadline of the key while the key stores this
object's token.

The two clocks may drift: over any interval the server clock advances at most
100/99 times as far as the client's.  The 1% and the millisecond that
`requestExpiry` deducts are exactly what this drift and the truncation of the
server's clock to milliseconds can take away, so a deadline that is still
ahead on the client's clock is *backed*: the key is stored, and the server
cannot drop it before the client's clock gets there.
-/

namespace Distsync

open Redis Trans

/-- One lease object and its view of the key.  Clocks count nanoseconds, the
key's deadline counts milliseconds. -/
structure KeyLease where
  server : Int
  clock : Int
  key : Option Int
  obj : LeaseObj

namespace KeyLease

/-- The deadline the server gives the key when a script runs now. -/
def extended (T : WholeTtl) (c : KeyLease) : Int := unixMilli c.server + T.ms

/-- What can happen to one lease.  A call may be executed several times, and an
attempt returns with the answer of its last execution; a failed attempt may still
execute later, a renewal or release at any time. -/
inductive Step (T : WholeTtl) : KeyLease → KeyLease → Prop
  | tick {c : KeyLease} {server clock : Int} (hclock : c.clock ≤ clock)
      (hdrift : 99 * (server - c.server) ≤ 100 * (clock - c.clock)) :
      Step T c { c with server := server, clock := clock }
  | expire {c : KeyLease} (hkey : c.key = some d) (hd : d * 1000000 ≤ c.server) :
      Step T c { c with key := none }
  | acquireStart {c : KeyLease} (hphase : c.obj.phase = .idle) :
      Step T c { c with obj := c.obj.acquireStart c.clock }
  | replay {c : KeyLease} (hphase : c.obj.phase = .calling start answers) (hkey : c.key = some d)
      (n : Nat) : Step T c { c with obj := c.obj.acquireReply start answers (.int n) }
  | grant {c : KeyLease} (hphase : c.obj.phase = .calling start answers) (hkey : c.key = none)
      (n : Nat) :
      Step T c { c with
        key := some (c.extended T)
        obj := c.obj.acquireReply start answers (.int n) }
  | refuse {c : KeyLease} (hphase : c.obj.phase = .calling start answers) (hkey : c.key = none)
      (hans : ans = .nil ∨ ans = .err) :
      Step T c { c with obj := c.obj.acquireReply start answers ans }
  | acquireFail {c : KeyLease} (hphase : c.obj.phase = .calling start answers) :
      Step T c { c with obj := c.obj.acquireFail start }
  | lateGrant {c : KeyLease} (hphase : c.obj.phase = .failed start) (hkey : c.key = none) :
      Step T c { c with key := some (c.extended T) }
  | acquireReturn {c : KeyLease} (hphase : c.obj.phase = .calling start (ans :: answers)) :
      Step T c { c with obj := c.obj.acquireReturn start T.ns c.clock ans }
  | renewStart {c : KeyLease} (k : Nat) (hk : c.obj.renewals k = none) :
      Step T c { c with obj := c.obj.renewStart k c.clock }
  | renewExtend {c : KeyLease} (k : Nat) (hk : c.obj.renewals k = some q)
      (hkey : c.key = some d) :
      Step T c { c with key := some (c.extended T), obj := c.obj.renewReply k q }
  | renewReturn {c : KeyLease} (k : Nat) (hk : c.obj.renewals k = some q)
      (hrun : q.running = true) (confirmed : Bool) (hok : confirmed = true → q.ok = true) :
      Step T c { c with obj := c.obj.renewReturn k q T.ns c.clock confirmed }
  | releaseStart {c : KeyLease} : Step T c { c with obj := c.obj.releaseStart }
  | release {c : KeyLease} (hrel : c.obj.releasing = true) : Step T c { c with key := none }
  | releaseReturn {c : KeyLease} (hrel : c.obj.releasing = true) :
      Step T c { c with obj := c.obj.releaseReturn }

/-- What others can do to the key while it stores this token: nothing, or drop
it at its deadline. -/
def Lapse (server : Int) (key key' : Option Int) : Prop :=
  key' = key ∨ key' = none ∧ ∃ d, key = some d ∧ d * 1000000 ≤ server

/-- A fresh lease object whose token is not stored. -/
def Init (c : KeyLease) : Prop := c.key = none ∧ c.obj = .fresh

/-- While `deadline` is ahead on the client's clock, the key is stored, and
even at full drift the server clock gets to the key's deadline no earlier than
the client's clock gets to `deadline`. -/
def Backed (c : KeyLease) (deadline : Int) : Prop :=
  c.clock < deadline →
    ∃ d, c.key = some d ∧ 99 * c.server + 100 * (deadline - c.clock) ≤ 99 * (d * 1000000)

/-- The invariant of a lease that has not begun releasing. -/
structure Inv (T : WholeTtl) (c : KeyLease) : Prop where
  /-- Between attempts the token is not stored. -/
  idle : c.obj.phase = .idle → c.key = none
  refused : ∀ start answers, c.obj.phase = .calling start (.nil :: answers) → c.key = none
  /-- A grant of the running attempt backs the deadline the caller will get. -/
  calling : ∀ start answers, c.obj.phase = .calling start answers → start ≤ c.clock ∧
    (c.key ≠ none ∨ (∃ n, answers.head? = some (.int n)) → c.Backed (requestExpiry start T.ns))
  /-- So does a renewal that was executed. -/
  renewal : ∀ k q, c.obj.renewals k = some q → q.start ≤ c.clock ∧
    (q.ok = true → c.Backed (requestExpiry q.start T.ns))
  /-- The confirmed deadline is backed, and not further ahead than a request
  sent now could move it. -/
  expiry : ∀ deadline, c.obj.expiresAt = some deadline →
    c.Backed deadline ∧ deadline ≤ requestExpiry c.clock T.ns

theorem Lapse.steps {c : KeyLease} {key' : Option Int} (h : Lapse c.server c.key key') :
    Relation.ReflTransGen (Step T) c { c with key := key' } := by
  rcases h with rfl | ⟨rfl, d, hkey, hd⟩
  · exact .refl
  · exact .single (.expire hkey hd)

/-! ## Backed deadlines -/

/-- The margin of `requestExpiry`: a script that runs now backs every deadline
of a request already sent. -/
theorem backed_extended {c : KeyLease} (hkey : c.key = some (c.extended T))
    (hle : deadline ≤ requestExpiry c.clock T.ns) : c.Backed deadline := by
  intro _
  refine ⟨_, hkey, ?_⟩
  have htrunc := lt_unixMilli_add c.server
  rw [requestExpiry_ns] at hle
  rw [extended]
  omega

/-- Clock steps within the drift bound keep a deadline backed. -/
theorem Backed.tick {c : KeyLease} (h : c.Backed deadline) {server clock : Int}
    (hclock : c.clock ≤ clock)
    (hdrift : 99 * (server - c.server) ≤ 100 * (clock - c.clock)) :
    Backed { c with server := server, clock := clock } deadline := by
  intro hlt
  have hlt' : clock < deadline := hlt
  obtain ⟨d, hd, hle⟩ := h (by omega)
  exact ⟨d, hd, by simp only; omega⟩

/-- A key that the server may drop backs no deadline that is still ahead. -/
theorem Backed.expire {c : KeyLease} (h : c.Backed deadline) (hkey : c.key = some d)
    (hd : d * 1000000 ≤ c.server) : Backed { c with key := none } deadline := by
  intro hlt
  have hlt' : c.clock < deadline := hlt
  obtain ⟨d', hd', hle⟩ := h hlt'
  rw [hkey] at hd'
  cases hd'
  omega

/-- Being backed depends on the clocks and the key only. -/
theorem Backed.congr {c c' : KeyLease} (h : c.Backed deadline) (hs : c'.server = c.server)
    (hc : c'.clock = c.clock) (hk : c'.key = c.key) : c'.Backed deadline := by
  intro hlt
  rw [hs, hc, hk]
  exact h (hc ▸ hlt)

/-! ## The invariant is kept -/

/-- A script that stores or extends the key now backs everything: every
deadline of the lease belongs to a request already sent. -/
theorem Inv.extend {c : KeyLease} (h : c.Inv T) {obj : LeaseObj}
    (hidle : obj.phase ≠ .idle)
    (hrefused : ∀ start answers, obj.phase ≠ .calling start (.nil :: answers))
    (hphase : ∀ start answers, obj.phase = .calling start answers → start ≤ c.clock)
    (hren : ∀ k q, obj.renewals k = some q → q.start ≤ c.clock)
    (hexp : obj.expiresAt = c.obj.expiresAt) :
    Inv T { c with key := some (c.extended T), obj := obj } := by
  have hbacked : ∀ deadline, deadline ≤ requestExpiry c.clock T.ns →
      Backed { c with key := some (c.extended T), obj := obj } deadline :=
    fun _ hle => backed_extended rfl hle
  refine ⟨fun hi => absurd hi hidle, fun start answers hr => absurd hr (hrefused start answers),
    ?_, ?_, ?_⟩
  · intro start r hp
    exact ⟨hphase start r hp, fun _ => hbacked _ (requestExpiry_mono T (hphase start r hp))⟩
  · intro k q hq
    exact ⟨hren k q hq, fun _ => hbacked _ (requestExpiry_mono T (hren k q hq))⟩
  · intro deadline hd
    have hle := (h.expiry deadline (hexp ▸ hd)).2
    exact ⟨hbacked _ hle, hle⟩

/-- Steps of the client alone: clocks and key stay, so what was backed stays
backed, and only the fields that changed have to be looked at. -/
theorem Inv.of_obj {c : KeyLease} {obj : LeaseObj}
    (hidle : obj.phase = .idle → c.key = none)
    (hrefused : ∀ start answers, obj.phase = .calling start (.nil :: answers) → c.key = none)
    (hphase : ∀ start answers, obj.phase = .calling start answers → start ≤ c.clock ∧
      (c.key ≠ none ∨ (∃ n, answers.head? = some (.int n)) → c.Backed (requestExpiry start T.ns)))
    (hren : ∀ k q, obj.renewals k = some q → q.start ≤ c.clock ∧
      (q.ok = true → c.Backed (requestExpiry q.start T.ns)))
    (hexp : ∀ deadline, obj.expiresAt = some deadline →
      c.Backed deadline ∧ deadline ≤ requestExpiry c.clock T.ns) :
    Inv T { c with obj := obj } := by
  refine ⟨hidle, hrefused, ?_, ?_, ?_⟩
  · intro start r hp
    exact ⟨(hphase start r hp).1, fun hk => ((hphase start r hp).2 hk).congr rfl rfl rfl⟩
  · intro k q hq
    exact ⟨(hren k q hq).1, fun hok => ((hren k q hq).2 hok).congr rfl rfl rfl⟩
  · intro deadline hd
    exact ⟨(hexp deadline hd).1.congr rfl rfl rfl, (hexp deadline hd).2⟩

theorem Inv.tick {c : KeyLease} (h : c.Inv T) {server clock : Int} (hclock : c.clock ≤ clock)
    (hdrift : 99 * (server - c.server) ≤ 100 * (clock - c.clock)) :
    Inv T { c with server := server, clock := clock } := by
  refine ⟨h.idle, h.refused, ?_, ?_, ?_⟩
  · intro start r hp
    obtain ⟨hle, hb⟩ := h.calling start r hp
    exact ⟨hle.trans hclock, fun hk => (hb hk).tick hclock hdrift⟩
  · intro k q hq
    obtain ⟨hle, hb⟩ := h.renewal k q hq
    exact ⟨hle.trans hclock, fun hok => (hb hok).tick hclock hdrift⟩
  · intro deadline hd
    obtain ⟨hb, hle⟩ := h.expiry deadline hd
    exact ⟨hb.tick hclock hdrift, hle.trans (requestExpiry_mono T hclock)⟩

theorem Inv.expire {c : KeyLease} (h : c.Inv T) (hkey : c.key = some d)
    (hd : d * 1000000 ≤ c.server) : Inv T { c with key := none } := by
  refine ⟨fun _ => rfl, fun _ _ _ => rfl, ?_, ?_, ?_⟩
  · intro start r hp
    obtain ⟨hle, hb⟩ := h.calling start r hp
    refine ⟨hle, fun _ => (hb (.inl ?_)).expire hkey hd⟩
    rw [hkey]
    nofun
  · intro k q hq
    obtain ⟨hle, hb⟩ := h.renewal k q hq
    exact ⟨hle, fun hok => (hb hok).expire hkey hd⟩
  · intro deadline hd'
    obtain ⟨hb, hle⟩ := h.expiry deadline hd'
    exact ⟨hb.expire hkey hd, hle⟩

/-- `TryAcquire` returns: only a grant that is still in time sets a deadline,
and the execution that granted it backs it. -/
theorem Inv.acquireReturn {c : KeyLease} (h : c.Inv T)
    (hphase : c.obj.phase = .calling start (ans :: answers))
    (hrel : (c.obj.acquireReturn start T.ns c.clock ans).releasing = false) :
    Inv T { c with obj := c.obj.acquireReturn start T.ns c.clock ans } := by
  obtain ⟨hstart, hb⟩ := h.calling start _ hphase
  rw [LeaseObj.acquireReturn] at hrel ⊢
  cases ans with
  | nil =>
      simp only [acquireResult]
      exact .of_obj (fun _ => h.refused start answers hphase) (by simp) (by simp) h.renewal h.expiry
  | err =>
      simp only [acquireResult]
      exact .of_obj (by simp) (by simp) (by simp) h.renewal h.expiry
  | int n =>
      simp only [acquireResult] at hrel ⊢
      by_cases hlt : c.clock < requestExpiry start T.ns
      · simp only [if_pos hlt]
        refine .of_obj (by simp) (by simp) (by simp) h.renewal ?_
        rintro _ ⟨⟩
        exact ⟨hb (.inr ⟨n, rfl⟩), requestExpiry_mono T hstart⟩
      · simp only [if_neg hlt] at hrel
        contradiction

/-- `Renew` returns: a confirmed renewal was executed, so its deadline is
backed. -/
theorem Inv.renewReturn {c : KeyLease} (h : c.Inv T) (hk : c.obj.renewals k = some q)
    (hok : confirmed = true → q.ok = true) :
    Inv T { c with obj := c.obj.renewReturn k q T.ns c.clock confirmed } := by
  obtain ⟨hstart, hb⟩ := h.renewal k q hk
  refine .of_obj h.idle h.refused h.calling ?_ ?_
  · intro k' q' hq'
    rcases update_eq_some hq' with ⟨-, rfl⟩ | ⟨-, hq'⟩
    · exact ⟨hstart, hb⟩
    · exact h.renewal k' q' hq'
  · intro deadline hd
    rcases c.obj.renewReturn_expiresAt k q T.ns c.clock confirmed with heq | ⟨hconf, -, heq⟩
    · rw [heq] at hd
      exact h.expiry deadline hd
    · rw [heq] at hd
      cases hd
      exact ⟨hb (hok hconf), requestExpiry_mono T hstart⟩

/-- Every step of a lease that has not begun releasing keeps the invariant. -/
theorem Inv.step (hs : Step T c c') (h : c.obj.releasing = false → c.Inv T)
    (hrel : c'.obj.releasing = false) : c'.Inv T := by
  cases hs with
  | tick hclock hdrift => exact (h hrel).tick hclock hdrift
  | expire hkey hd => exact (h hrel).expire hkey hd
  | acquireStart hphase =>
      have hi := h hrel
      refine .of_obj (by simp) (by simp) ?_ hi.renewal hi.expiry
      rintro _ _ ⟨⟩
      refine ⟨le_refl _, ?_⟩
      rintro (hk | ⟨n, hn⟩)
      · exact absurd (hi.idle hphase) hk
      · contradiction
  | replay hphase hkey n =>
      have hi := h hrel
      obtain ⟨hle, hb⟩ := hi.calling _ _ hphase
      refine .of_obj (by simp) (by simp) ?_ hi.renewal hi.expiry
      rintro _ _ ⟨⟩
      refine ⟨hle, fun _ => hb (.inl ?_)⟩
      simp [hkey]
  | grant hphase hkey n =>
      have hi := h hrel
      refine hi.extend (by simp) (by simp) ?_ (fun k q hq => (hi.renewal k q hq).1) rfl
      rintro _ _ ⟨⟩
      exact (hi.calling _ _ hphase).1
  | refuse hphase hkey hans =>
      have hi := h hrel
      obtain ⟨hle, -⟩ := hi.calling _ _ hphase
      refine .of_obj (by simp) (fun _ _ _ => hkey) ?_ hi.renewal hi.expiry
      rintro _ _ ⟨⟩
      refine ⟨hle, ?_⟩
      rintro (hk | ⟨n, hn⟩)
      · exact absurd hkey hk
      · rcases hans with rfl | rfl <;> cases hn
  | acquireFail hphase =>
      have hi := h hrel
      exact .of_obj (by simp) (by simp) (by simp) hi.renewal hi.expiry
  | lateGrant hphase hkey =>
      have hi := h hrel
      refine hi.extend ?_ ?_ ?_ (fun k q hq => (hi.renewal k q hq).1) rfl <;> simp [hphase]
  | acquireReturn hphase =>
      refine (h ?_).acquireReturn hphase hrel
      revert hrel
      simp only [LeaseObj.acquireReturn]
      split <;> simp
  | renewStart k hk =>
      have hi := h hrel
      refine .of_obj hi.idle hi.refused hi.calling ?_ hi.expiry
      intro k' q hq
      rcases update_eq_some hq with ⟨-, rfl⟩ | ⟨-, hq⟩
      · exact ⟨le_refl _, by simp⟩
      · exact hi.renewal k' q hq
  | renewExtend k hk hkey =>
      have hi := h hrel
      refine hi.extend ?_ ?_ (fun start r hp => (hi.calling start r hp).1) ?_ rfl
      · intro hidle
        rw [hi.idle hidle] at hkey
        contradiction
      · intro start answers hr
        rw [hi.refused start answers hr] at hkey
        contradiction
      · intro k' q hq
        rcases update_eq_some hq with ⟨-, rfl⟩ | ⟨-, hq⟩
        · exact (hi.renewal k _ hk).1
        · exact (hi.renewal k' q hq).1
  | renewReturn k hk hrun confirmed hok => exact (h hrel).renewReturn hk hok
  | releaseStart => contradiction
  | release hr => simp [hr] at hrel
  | releaseReturn hr => simp [hr] at hrel

theorem reach_inv (h : Reach Init (Step T) c) : c.obj.releasing = false → c.Inv T := by
  refine Reach.invariant (I := fun c => c.obj.releasing = false → c.Inv T) ?_ ?_ h
  · rintro c ⟨hkey, hobj⟩ -
    refine ⟨fun _ => hkey, ?_, ?_, ?_, ?_⟩ <;> rw [hobj] <;> nofun
  · exact fun _ _ _ ih hs hrel => Inv.step hs ih hrel

/-- **A valid lease is stored**: while its deadline is ahead on the client's
clock, the server holds the key with this object's token. -/
theorem key_of_valid (h : Reach Init (Step T) c) (hv : c.obj.Valid c.clock) : c.key ≠ none := by
  obtain ⟨hrel, deadline, hd, hlt⟩ := hv
  obtain ⟨d, hkey, -⟩ := ((reach_inv h hrel).expiry deadline hd).1 hlt
  rw [hkey]
  nofun

end KeyLease

end Distsync
