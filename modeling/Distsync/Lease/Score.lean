import Distsync.Trans
import Distsync.Lease

/-!
# Distsync.Lease.Score

A lease that lives in a sorted set (`PermitSet`, and the reader role of a
read-write lock), as one lease object sees it: the clock it shares with
everybody, and the score of its members, which all carry the same one.

The scripts write the *send time* of the request plus the TTL.  So the score
of a renewal does not depend on when it is executed, but the score that stays
is that of the renewal executed last, and an old renewal that arrives late
takes back what a newer one has given.  Under `Policy.inOrder` (a renewal
arrives no later than any that was sent noticeably after it), hence also when
the renewals of an object do not overlap, a confirmed deadline stays covered
by the score.
-/

namespace Distsync

open Redis Trans

/-- One lease object and its view of the set.  The clock counts nanoseconds,
the score milliseconds. -/
structure ScoreLease where
  clock : Int
  score : Option Int
  obj : LeaseObj

namespace ScoreLease

/-- No member of the object is live at a request of `start`. -/
def DeadAt (c : ScoreLease) (start : Int) : Prop := ∀ sc, c.score = some sc → sc ≤ unixMilli start

/-- What can happen to one lease.  An attempt returns with the answer of its last
execution. -/
inductive Step (T : WholeTtl) (P : Policy) : ScoreLease → ScoreLease → Prop
  | tick {c : ScoreLease} {clock : Int} (hclock : c.clock ≤ clock) :
      Step T P c { c with clock := clock }
  /-- Somebody's script removes the expired members. -/
  | reclaim {c : ScoreLease} (hdead : c.DeadAt c.clock) : Step T P c { c with score := none }
  | acquireStart {c : ScoreLease} (hphase : c.obj.phase = .idle) :
      Step T P c { c with obj := c.obj.acquireStart c.clock }
  | replay {c : ScoreLease} (hphase : c.obj.phase = .calling start answers)
      (hlive : ¬c.DeadAt start) (n : Nat) :
      Step T P c { c with obj := c.obj.acquireReply start answers (.int n) }
  | grant {c : ScoreLease} (hphase : c.obj.phase = .calling start answers)
      (hdead : c.DeadAt start) (n : Nat) :
      Step T P c { c with
        score := some (unixMilli start + T.ms)
        obj := c.obj.acquireReply start answers (.int n) }
  | refuse {c : ScoreLease} (hphase : c.obj.phase = .calling start answers)
      (hdead : c.DeadAt start) :
      Step T P c { c with obj := c.obj.acquireReply start answers .nil }
  | acquireFail {c : ScoreLease} (hphase : c.obj.phase = .calling start answers) :
      Step T P c { c with obj := c.obj.acquireFail start }
  | lateGrant {c : ScoreLease} (hphase : c.obj.phase = .failed start) :
      Step T P c { c with score := some (unixMilli start + T.ms) }
  | acquireReturn {c : ScoreLease} (hphase : c.obj.phase = .calling start (ans :: answers)) :
      Step T P c { c with obj := c.obj.acquireReturn start T.ns c.clock ans }
  | renewStart {c : ScoreLease} (k : Nat) (hk : c.obj.renewals k = none)
      (hP : P.mayStart c.obj) :
      Step T P c { c with obj := c.obj.renewStart k c.clock }
  | renewExtend {c : ScoreLease} (k : Nat) (hk : c.obj.renewals k = some q)
      (hP : P.mayExec T c.obj q) :
      Step T P c { c with
        score := some (unixMilli q.start + T.ms)
        obj := c.obj.renewReply k q }
  | renewReturn {c : ScoreLease} (k : Nat) (hk : c.obj.renewals k = some q)
      (hrun : q.running = true) (confirmed : Bool) (hok : confirmed = true → q.ok = true) :
      Step T P c { c with obj := c.obj.renewReturn k q T.ns c.clock confirmed }
  | releaseStart {c : ScoreLease} : Step T P c { c with obj := c.obj.releaseStart }
  | release {c : ScoreLease} (hrel : c.obj.releasing = true) : Step T P c { c with score := none }
  | releaseReturn {c : ScoreLease} (hrel : c.obj.releasing = true) :
      Step T P c { c with obj := c.obj.releaseReturn }

/-- What others can do to the members at `now`: nothing, or take away those
that have expired. -/
def Lapse (now : Int) (score score' : Option Int) : Prop :=
  score' = score ∨ score' = none ∧ ∀ sc, score = some sc → sc ≤ unixMilli now

/-- A fresh lease object with no members. -/
def Init (c : ScoreLease) : Prop := c.score = none ∧ c.obj = .fresh

/-- While `deadline` is ahead, the members are there with a score that is not
earlier. -/
def Backed (c : ScoreLease) (deadline : Int) : Prop :=
  c.clock < deadline → ∃ sc, c.score = some sc ∧ deadline ≤ sc * 1000000

/-- The invariant of a lease that has not begun releasing. -/
structure Inv (T : WholeTtl) (c : ScoreLease) : Prop where
  /-- Between attempts no member is live. -/
  idle : c.obj.phase = .idle → c.DeadAt c.clock
  refused : ∀ start answers, c.obj.phase = .calling start (.nil :: answers) → c.DeadAt c.clock
  /-- A live member during an attempt was granted by this very attempt. -/
  calling : ∀ start answers, c.obj.phase = .calling start answers → start ≤ c.clock ∧
    (∀ sc, c.score = some sc → sc ≤ unixMilli start ∨ sc = unixMilli start + T.ms) ∧
    (∀ n, answers.head? = some (.int n) → c.Backed (requestExpiry start T.ns))
  held : ∀ start n, c.obj.phase = .held start n → start ≤ c.clock
  notLate : c.obj.phase ≠ .late
  /-- Renewals are sent after the grant, and those executed are backed. -/
  renewal : ∀ k q, c.obj.renewals k = some q → ∃ start n, c.obj.phase = .held start n ∧
    start ≤ q.start ∧ q.start ≤ c.clock ∧
    (q.ok = true → c.Backed (requestExpiry q.start T.ns))
  /-- The confirmed deadline is backed, and is that of the grant or of a
  renewal that was executed. -/
  expiry : ∀ deadline, c.obj.expiresAt = some deadline → c.Backed deadline ∧
    ∃ start n, c.obj.phase = .held start n ∧ (deadline = requestExpiry start T.ns ∨
      ∃ k q, c.obj.renewals k = some q ∧ q.ok = true ∧ deadline = requestExpiry q.start T.ns)

/-- Reclaiming what has expired at an earlier timestamp. -/
theorem lapse_filter (hle : start ≤ now) (score : Option Int) :
    Lapse now score (score.filter (fun sc => unixMilli start < sc)) := by
  cases score with
  | none => exact .inl rfl
  | some sc =>
      by_cases hlt : unixMilli start < sc
      · exact .inl (by rw [Option.filter_some, if_pos (decide_eq_true hlt)])
      · refine .inr ⟨by rw [Option.filter_some, if_neg (by simpa using hlt)], ?_⟩
        rintro _ ⟨⟩
        have := unixMilli_mono hle
        omega

theorem Lapse.steps {T : WholeTtl} {c : ScoreLease} {score' : Option Int}
    (h : Lapse c.clock c.score score') :
    Relation.ReflTransGen (Step T P) c { c with score := score' } := by
  rcases h with rfl | ⟨rfl, hdead⟩
  · exact .refl
  · exact .single (.reclaim hdead)

/-! ## Backed deadlines -/

theorem DeadAt.mono {c : ScoreLease} (h : c.DeadAt start) (hle : start ≤ start') :
    c.DeadAt start' := fun sc hsc => (h sc hsc).trans (unixMilli_mono hle)

theorem backed_of_le {c : ScoreLease} (hscore : c.score = some sc) (hle : deadline ≤ sc * 1000000) :
    c.Backed deadline := fun _ => ⟨sc, hscore, hle⟩

theorem Backed.tick {c : ScoreLease} (h : c.Backed deadline) {clock : Int}
    (hclock : c.clock ≤ clock) : Backed { c with clock := clock } deadline :=
  fun hlt => h (hclock.trans_lt hlt)

/-- What may be reclaimed backs no deadline that is still ahead. -/
theorem Backed.reclaim {c : ScoreLease} (h : c.Backed deadline) (hdead : c.DeadAt c.clock) :
    Backed { c with score := none } deadline := by
  intro hlt
  have hlt' : c.clock < deadline := hlt
  obtain ⟨sc, hsc, hle⟩ := h hlt'
  have htrunc := unixMilli_le c.clock
  have hsc' := hdead sc hsc
  omega

/-- Being backed depends on the clock and the score only. -/
theorem Backed.congr {c c' : ScoreLease} (h : c.Backed deadline) (hc : c'.clock = c.clock)
    (hs : c'.score = c.score) : c'.Backed deadline := by
  intro hlt
  rw [hs]
  exact h (hc ▸ hlt)

/-! ## The invariant is kept -/

/-- Steps of the client alone. -/
theorem Inv.of_obj {c : ScoreLease} {obj : LeaseObj}
    (hidle : obj.phase = .idle → c.DeadAt c.clock)
    (hrefused : ∀ start answers, obj.phase = .calling start (.nil :: answers) → c.DeadAt c.clock)
    (hphase : ∀ start answers, obj.phase = .calling start answers → start ≤ c.clock ∧
      (∀ sc, c.score = some sc → sc ≤ unixMilli start ∨ sc = unixMilli start + T.ms) ∧
      (∀ n, answers.head? = some (.int n) → c.Backed (requestExpiry start T.ns)))
    (hheld : ∀ start n, obj.phase = .held start n → start ≤ c.clock)
    (hlate : obj.phase ≠ .late)
    (hren : ∀ k q, obj.renewals k = some q → ∃ start n, obj.phase = .held start n ∧
      start ≤ q.start ∧ q.start ≤ c.clock ∧
      (q.ok = true → c.Backed (requestExpiry q.start T.ns)))
    (hexp : ∀ deadline, obj.expiresAt = some deadline → c.Backed deadline ∧
      ∃ start n, obj.phase = .held start n ∧ (deadline = requestExpiry start T.ns ∨
        ∃ k q, obj.renewals k = some q ∧ q.ok = true ∧ deadline = requestExpiry q.start T.ns)) :
    Inv T { c with obj := obj } := by
  refine ⟨hidle, hrefused, ?_, hheld, hlate, ?_, ?_⟩
  · intro start r hp
    obtain ⟨hle, hscore, hb⟩ := hphase start r hp
    exact ⟨hle, hscore, fun n hn => (hb n hn).congr rfl rfl⟩
  · intro k q hq
    obtain ⟨start, n, hp, hstart, hle, hb⟩ := hren k q hq
    exact ⟨start, n, hp, hstart, hle, fun hok => (hb hok).congr rfl rfl⟩
  · intro deadline hd
    exact ⟨(hexp deadline hd).1.congr rfl rfl, (hexp deadline hd).2⟩

theorem Inv.tick {c : ScoreLease} (h : c.Inv T) {clock : Int} (hclock : c.clock ≤ clock) :
    Inv T { c with clock := clock } := by
  refine ⟨fun hp => (h.idle hp).mono hclock,
    fun start answers hp => (h.refused start answers hp).mono hclock, ?_,
    fun start n hp => (h.held start n hp).trans hclock, h.notLate, ?_, ?_⟩
  · intro start r hp
    obtain ⟨hle, hscore, hb⟩ := h.calling start r hp
    exact ⟨hle.trans hclock, hscore, fun n hn => (hb n hn).tick hclock⟩
  · intro k q hq
    obtain ⟨start, n, hp, hstart, hle, hb⟩ := h.renewal k q hq
    exact ⟨start, n, hp, hstart, hle.trans hclock, fun hok => (hb hok).tick hclock⟩
  · intro deadline hd
    exact ⟨(h.expiry deadline hd).1.tick hclock, (h.expiry deadline hd).2⟩

theorem Inv.reclaim {c : ScoreLease} (h : c.Inv T) (hdead : c.DeadAt c.clock) :
    Inv T { c with score := none } := by
  refine ⟨nofun, nofun, ?_, h.held, h.notLate, ?_, ?_⟩
  · intro start r hp
    obtain ⟨hle, -, hb⟩ := h.calling start r hp
    exact ⟨hle, nofun, fun n hn => (hb n hn).reclaim hdead⟩
  · intro k q hq
    obtain ⟨start, n, hp, hstart, hle, hb⟩ := h.renewal k q hq
    exact ⟨start, n, hp, hstart, hle, fun hok => (hb hok).reclaim hdead⟩
  · intro deadline hd
    exact ⟨(h.expiry deadline hd).1.reclaim hdead, (h.expiry deadline hd).2⟩

/-- Before the grant there are no renewals and no deadline. -/
theorem Inv.not_held {c : ScoreLease} (h : c.Inv T)
    (hnot : ∀ start n, c.obj.phase ≠ .held start n) :
    (∀ k q, c.obj.renewals k ≠ some q) ∧ ∀ deadline, c.obj.expiresAt ≠ some deadline := by
  constructor
  · intro k q hq
    obtain ⟨start, n, hheld, -⟩ := h.renewal k q hq
    exact hnot start n hheld
  · intro deadline hd
    obtain ⟨-, start, n, hheld, -⟩ := h.expiry deadline hd
    exact hnot start n hheld

/-- Steps before the grant: only the attempt has to be looked at. -/
theorem Inv.attempt {c : ScoreLease} (h : c.Inv T) (score : Option Int) (phase : Phase)
    (hnot : ∀ start n, c.obj.phase ≠ .held start n) (hphase : phase.granted = false)
    (hidle : phase = .idle → DeadAt { c with score := score } c.clock)
    (hrefused : ∀ start answers, phase = .calling start (.nil :: answers) →
      DeadAt { c with score := score } c.clock)
    (hcalling : ∀ start answers, phase = .calling start answers → start ≤ c.clock ∧
      (∀ sc, score = some sc → sc ≤ unixMilli start ∨ sc = unixMilli start + T.ms) ∧
      (∀ n, answers.head? = some (.int n) → score = some (unixMilli start + T.ms))) :
    Inv T { c with score := score, obj := { c.obj with phase := phase } } := by
  obtain ⟨hren, hexp⟩ := h.not_held hnot
  refine ⟨hidle, hrefused, ?_, ?_, ?_, fun k q hq => absurd hq (hren k q),
    fun d hd => absurd hd (hexp d)⟩
  · intro start answers hp
    obtain ⟨hle, hscore, hint⟩ := hcalling start answers hp
    exact ⟨hle, hscore, fun n hn => backed_of_le (hint n hn) (requestExpiry_le_score start T)⟩
  · rintro start n rfl
    contradiction
  · rintro rfl
    contradiction

theorem Inv.acquireReturn {c : ScoreLease} (h : c.Inv T)
    (hphase : c.obj.phase = .calling start (ans :: answers))
    (hrel : (c.obj.acquireReturn start T.ns c.clock ans).releasing = false) :
    Inv T { c with obj := c.obj.acquireReturn start T.ns c.clock ans } := by
  have hnot : ∀ start n, c.obj.phase ≠ .held start n := by
    simp [hphase]
  rw [LeaseObj.acquireReturn] at hrel ⊢
  cases ans with
  | nil =>
      simp only [acquireResult]
      exact h.attempt _ _ hnot rfl (fun _ => h.refused start answers hphase) (by simp) (by simp)
  | err =>
      simp only [acquireResult]
      exact h.attempt _ _ hnot rfl (by simp) (by simp) (by simp)
  | int n =>
      simp only [acquireResult] at hrel ⊢
      by_cases hlt : c.clock < requestExpiry start T.ns
      · simp only [if_pos hlt]
        obtain ⟨hstart, -, hb⟩ := h.calling start _ hphase
        refine .of_obj (by simp) (by simp) (by simp) ?_ (by simp)
          (fun k q hq => absurd hq ((h.not_held hnot).1 k q)) ?_
        · rintro _ _ ⟨⟩
          exact hstart
        · rintro _ ⟨⟩
          exact ⟨hb n rfl, start, n, rfl, .inl rfl⟩
      · simp only [if_neg hlt] at hrel
        contradiction

/-- A renewal that arrives in order writes a score that covers the grant, all
renewals executed before, and itself. -/
theorem Inv.renewExtend {c : ScoreLease} (h : c.Inv T) (hk : c.obj.renewals k = some q)
    (hP : Policy.inOrder.mayExec T c.obj q) :
    Inv T { c with score := some (unixMilli q.start + T.ms), obj := c.obj.renewReply k q } := by
  obtain ⟨start, n, hheld, hstart, hle, -⟩ := h.renewal k q hk
  have hself : requestExpiry q.start T.ns ≤ (unixMilli q.start + T.ms) * 1000000 :=
    requestExpiry_le_score q.start T
  have hnone : ∀ start answers, c.obj.phase ≠ .calling start answers := by
    rw [hheld]
    nofun
  refine ⟨?_, fun _ _ hp => absurd hp (hnone _ _), fun _ _ hp => absurd hp (hnone _ _),
    h.held, h.notLate, ?_, ?_⟩
  · intro hp
    exact absurd (hheld.symm.trans hp) nofun
  · intro k' q' hq'
    rcases update_eq_some hq' with ⟨-, rfl⟩ | ⟨-, hq'⟩
    · exact ⟨start, n, hheld, hstart, hle, fun _ => backed_of_le rfl hself⟩
    · obtain ⟨start', n', hheld', hstart', hle', -⟩ := h.renewal k' q' hq'
      exact ⟨start', n', hheld', hstart', hle', fun hok =>
        backed_of_le rfl (requestExpiry_le_score_of_le T (hP k' q' hq' hok))⟩
  · intro deadline hd
    obtain ⟨-, start', n', hheld', hdeadline⟩ := h.expiry deadline hd
    obtain ⟨rfl, rfl⟩ : start = start' ∧ n = n' := Phase.held.inj (hheld.symm.trans hheld')
    rcases hdeadline with rfl | ⟨k', q', hq', hok, rfl⟩
    · exact ⟨backed_of_le rfl ((requestExpiry_mono T hstart).trans hself), start, n, hheld,
        .inl rfl⟩
    · refine ⟨backed_of_le rfl (requestExpiry_le_score_of_le T (hP k' q' hq' hok)), start, n, hheld,
        .inr ?_⟩
      by_cases hkk : k' = k
      · subst hkk
        obtain rfl : q = q' := Option.some.inj (hk.symm.trans hq')
        exact ⟨k', _, Function.update_self .., rfl, rfl⟩
      · exact ⟨k', q', (Function.update_of_ne hkk ..).trans hq', hok, rfl⟩

theorem Inv.renewReturn {c : ScoreLease} (h : c.Inv T) (hk : c.obj.renewals k = some q)
    (hok : confirmed = true → q.ok = true) :
    Inv T { c with obj := c.obj.renewReturn k q T.ns c.clock confirmed } := by
  obtain ⟨start, n, hheld, hstart, hle, hb⟩ := h.renewal k q hk
  have hnew : (c.obj.renewReturn k q T.ns c.clock confirmed).renewals k =
      some { q with running := false } := Function.update_self ..
  refine .of_obj h.idle h.refused h.calling h.held h.notLate ?_ ?_
  · intro k' q' hq'
    rcases update_eq_some hq' with ⟨-, rfl⟩ | ⟨-, hq'⟩
    · exact ⟨start, n, hheld, hstart, hle, hb⟩
    · exact h.renewal k' q' hq'
  · intro deadline hd
    rcases c.obj.renewReturn_expiresAt k q T.ns c.clock confirmed with heq | ⟨hconf, -, heq⟩
    · rw [heq] at hd
      obtain ⟨hback, start', n', hheld', hdeadline⟩ := h.expiry deadline hd
      refine ⟨hback, start', n', hheld', hdeadline.imp_right ?_⟩
      rintro ⟨k', q', hq', hok', rfl⟩
      by_cases hkk : k' = k
      · subst hkk
        obtain rfl : q = q' := Option.some.inj (hk.symm.trans hq')
        exact ⟨k', _, hnew, hok', rfl⟩
      · exact ⟨k', q', (Function.update_of_ne hkk ..).trans hq', hok', rfl⟩
    · rw [heq] at hd
      cases hd
      exact ⟨hb (hok hconf), start, n, hheld, .inr ⟨k, _, hnew, hok hconf, rfl⟩⟩

/-- Every step of a lease that has not begun releasing keeps the invariant,
when renewals arrive in order. -/
theorem Inv.step (hs : Step T .inOrder c c') (h : c.obj.releasing = false → c.Inv T)
    (hrel : c'.obj.releasing = false) : c'.Inv T := by
  cases hs with
  | tick hclock => exact (h hrel).tick hclock
  | reclaim hdead => exact (h hrel).reclaim hdead
  | acquireStart hphase =>
      have hi := h hrel
      refine hi.attempt _ _ (by simp [hphase]) rfl (by simp) (by simp) ?_
      rintro _ _ ⟨⟩
      exact ⟨le_refl _, fun sc hsc => .inl (hi.idle hphase sc hsc), by simp⟩
  | replay hphase hlive n =>
      have hi := h hrel
      obtain ⟨hle, hscore, -⟩ := hi.calling _ _ hphase
      refine hi.attempt _ _ (by simp [hphase]) rfl (by simp) (by simp) ?_
      rintro _ _ ⟨⟩
      refine ⟨hle, hscore, fun _ _ => ?_⟩
      rw [DeadAt] at hlive
      push Not at hlive
      obtain ⟨sc, hsc, hlt⟩ := hlive
      rcases hscore sc hsc with hdead | rfl
      · omega
      · exact hsc
  | grant hphase hdead n =>
      have hi := h hrel
      refine hi.attempt _ _ (by simp [hphase]) rfl (by simp) (by simp) ?_
      rintro _ _ ⟨⟩
      refine ⟨(hi.calling _ _ hphase).1, ?_, fun _ _ => rfl⟩
      rintro _ ⟨⟩
      exact .inr rfl
  | refuse hphase hdead =>
      have hi := h hrel
      obtain ⟨hle, -, -⟩ := hi.calling _ _ hphase
      refine hi.attempt _ _ (by simp [hphase]) rfl (by simp) (fun _ _ _ => hdead.mono hle) ?_
      rintro _ _ ⟨⟩
      exact ⟨hle, fun sc hsc => .inl (hdead sc hsc), by simp⟩
  | acquireFail hphase =>
      exact (h hrel).attempt _ _ (by simp [hphase]) rfl (by simp) (by simp) (by simp)
  | lateGrant hphase =>
      refine (h hrel).attempt _ c.obj.phase ?_ ?_ ?_ ?_ ?_ <;> simp [hphase, Phase.granted]
  | acquireReturn hphase =>
      refine (h ?_).acquireReturn hphase hrel
      revert hrel
      simp only [LeaseObj.acquireReturn]
      split <;> simp
  | renewStart k hk hP =>
      have hi := h hrel
      obtain ⟨start, n, hphase⟩ := (Phase.held_or_late hP.1).resolve_right hi.notLate
      refine .of_obj hi.idle hi.refused hi.calling hi.held hi.notLate ?_ ?_
      · intro k' q hq
        rcases update_eq_some hq with ⟨-, rfl⟩ | ⟨-, hq⟩
        · exact ⟨start, n, hphase, hi.held start n hphase, le_refl _, by simp⟩
        · exact hi.renewal k' q hq
      · intro deadline hd
        obtain ⟨hback, start', n', hheld, hdeadline⟩ := hi.expiry deadline hd
        refine ⟨hback, start', n', hheld, hdeadline.imp_right ?_⟩
        rintro ⟨k', q, hq, hok⟩
        have hkk : k' ≠ k := by
          rintro rfl
          rw [hk] at hq
          contradiction
        exact ⟨k', q, (Function.update_of_ne hkk ..).trans hq, hok⟩
  | renewExtend k hk hP => exact (h hrel).renewExtend hk hP
  | renewReturn k hk hrun confirmed hok => exact (h hrel).renewReturn hk hok
  | releaseStart => contradiction
  | release hr => simp [hr] at hrel
  | releaseReturn hr => simp [hr] at hrel

theorem reach_inv (h : Reach Init (Step T .inOrder) c) : c.obj.releasing = false → c.Inv T := by
  refine Reach.invariant (I := fun c => c.obj.releasing = false → c.Inv T) ?_ ?_ h
  · rintro c ⟨hscore, hobj⟩ -
    have hdead : c.DeadAt c.clock := by
      rw [DeadAt, hscore]
      nofun
    refine ⟨fun _ => hdead, fun _ _ _ => hdead, ?_, ?_, ?_, ?_, ?_⟩ <;> rw [hobj] <;> nofun
  · exact fun _ _ _ ih hs hrel => Inv.step hs ih hrel

/-- **A confirmed deadline is covered**: when renewals arrive in order, the
members of a valid lease are there with a score not earlier than its
deadline. -/
theorem score_of_valid (h : Reach Init (Step T .inOrder) c) (hrel : c.obj.releasing = false)
    (hd : c.obj.expiresAt = some deadline) (hlt : c.clock < deadline) :
    ∃ sc, c.score = some sc ∧ deadline ≤ sc * 1000000 :=
  ((reach_inv h hrel).expiry deadline hd).1 hlt

/-! ## Renewals that do not overlap arrive in order -/

/-- No renewal was sent after one whose caller still waits. -/
structure Ordered (c : ScoreLease) : Prop where
  sent : ∀ k q, c.obj.renewals k = some q → q.start ≤ c.clock
  last : ∀ k q, c.obj.renewals k = some q → q.running = true →
    ∀ k' q', c.obj.renewals k' = some q' → q'.start ≤ q.start

/-- Steps that send no renewal and wake no caller. -/
theorem Ordered.of_renewals {c c' : ScoreLease} (h : c.Ordered) (hclock : c.clock ≤ c'.clock)
    (hren : ∀ k q', c'.obj.renewals k = some q' → ∃ q, c.obj.renewals k = some q ∧
      q'.start = q.start ∧ (q'.running = true → q.running = true)) : c'.Ordered := by
  constructor
  · intro k q' hq'
    obtain ⟨q, hq, hstart, -⟩ := hren k q' hq'
    rw [hstart]
    exact (h.sent k q hq).trans hclock
  · intro k q' hq' hrun k' p' hp'
    obtain ⟨q, hq, hstart, hrun'⟩ := hren k q' hq'
    obtain ⟨p, hp, hstart', -⟩ := hren k' p' hp'
    rw [hstart, hstart']
    exact h.last k q hq (hrun' hrun) k' p hp

theorem Ordered.step (hP : P.Orderly) (hs : Step T P c c') (h : c.Ordered) : c'.Ordered := by
  have hsame : ∀ {clock score} {obj : LeaseObj}, c.clock ≤ clock →
      obj.renewals = c.obj.renewals → Ordered ⟨clock, score, obj⟩ := by
    intro clock score obj hclock hobj
    refine h.of_renewals hclock fun k q hq => ⟨q, ?_, rfl, fun hrun => hrun⟩
    exact hobj ▸ hq
  cases hs with
  | tick hclock => exact hsame hclock rfl
  | reclaim => exact hsame (le_refl _) rfl
  | acquireStart => exact hsame (le_refl _) rfl
  | replay => exact hsame (le_refl _) rfl
  | grant => exact hsame (le_refl _) rfl
  | refuse => exact hsame (le_refl _) rfl
  | acquireFail => exact hsame (le_refl _) rfl
  | lateGrant => exact hsame (le_refl _) rfl
  | acquireReturn => exact hsame (le_refl _) (LeaseObj.acquireReturn_renewals ..)
  | renewStart k hk hstart =>
      constructor
      · intro k' q hq
        rcases update_eq_some hq with ⟨-, rfl⟩ | ⟨-, hq⟩
        · exact le_refl _
        · exact h.sent k' q hq
      · intro k' q hq hrun j p hp
        rcases update_eq_some hq with ⟨-, rfl⟩ | ⟨-, hq⟩
        · rcases update_eq_some hp with ⟨-, rfl⟩ | ⟨-, hp⟩
          · exact le_refl _
          · exact h.sent j p hp
        · exact absurd (hrun.symm.trans (hP.alone _ hstart k' q hq)) nofun
  | renewExtend k hk hexec =>
      refine h.of_renewals (le_refl _) fun k' q' hq' => ?_
      rcases update_eq_some hq' with ⟨rfl, rfl⟩ | ⟨-, hq'⟩
      · exact ⟨_, hk, rfl, fun hrun => hrun⟩
      · exact ⟨q', hq', rfl, fun hrun => hrun⟩
  | renewReturn k hk hrun confirmed hok =>
      refine h.of_renewals (le_refl _) fun k' q' hq' => ?_
      rcases update_eq_some hq' with ⟨rfl, rfl⟩ | ⟨-, hq'⟩
      · exact ⟨_, hk, rfl, nofun⟩
      · exact ⟨q', hq', rfl, fun hrun => hrun⟩
  | releaseStart => exact hsame (le_refl _) rfl
  | release => exact hsame (le_refl _) rfl
  | releaseReturn => exact hsame (le_refl _) rfl

/-- A step under one policy is one under another that allows as much. -/
theorem Step.of_policy {P P' : Policy} (hs : Step T P c c')
    (hstart : P.mayStart c.obj → P'.mayStart c.obj)
    (hexec : ∀ k q, c.obj.renewals k = some q → P.mayExec T c.obj q → P'.mayExec T c.obj q) :
    Step T P' c c' := by
  cases hs with
  | tick hclock => exact .tick hclock
  | reclaim hdead => exact .reclaim hdead
  | acquireStart hphase => exact .acquireStart hphase
  | replay hphase hlive n => exact .replay hphase hlive n
  | grant hphase hdead n => exact .grant hphase hdead n
  | refuse hphase hdead => exact .refuse hphase hdead
  | acquireFail hphase => exact .acquireFail hphase
  | lateGrant hphase => exact .lateGrant hphase
  | acquireReturn hphase => exact .acquireReturn hphase
  | renewStart k hk hP => exact .renewStart k hk (hstart hP)
  | renewExtend k hk hP => exact .renewExtend k hk (hexec k _ hk hP)
  | renewReturn k hk hrun confirmed hok => exact .renewReturn k hk hrun confirmed hok
  | releaseStart => exact .releaseStart
  | release hrel => exact .release hrel
  | releaseReturn hrel => exact .releaseReturn hrel

/-- Runs in which the renewals of the object do not overlap are runs in which
they arrive in order. -/
theorem reach_inOrder (hP : P.Orderly) (h : Reach Init (Step T P) c) :
    Reach Init (Step T .inOrder) c := by
  refine Reach.simulate (fun c => c) (fun _ hi => hi) (fun c c' hr hs => .single ?_) h
  have hord : c.Ordered := by
    refine Reach.invariant (I := Ordered) ?_ ?_ hr
    · rintro c ⟨-, hobj⟩
      refine ⟨?_, ?_⟩ <;> rw [hobj] <;> nofun
    · exact fun _ _ _ ih hs => Ordered.step hP hs ih
  refine hs.of_policy (fun hstart => ⟨hP.granted _ hstart, trivial⟩) ?_
  intro k q hk hexec k' q' hq' _
  have hle := hord.last k q hk (hP.running _ _ _ hexec) k' q' hq'
  have htrunc := lt_unixMilli_add q.start
  have hdiv := T.tdiv_ns_nonneg
  omega

end ScoreLease

end Distsync
