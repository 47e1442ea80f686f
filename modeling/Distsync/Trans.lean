import Mathlib.Logic.Relation

/-!
# Distsync.Trans

Transition systems, as every safety argument of this development uses them:
the states a run reaches, the invariant rule (true at the start and kept by
each step, hence true of every reachable state) and the simulation rule (a
step of the concrete system is a finite run of the abstract one, hence
reachable states map to reachable states).  Systems whose events can be
executed have runs that are lists, and a rule for what a run can bring about.

Nothing here knows about locks or Redis.
-/

namespace Trans

/-- The states that a run of `step` reaches from an initial state. -/
inductive Reach (init : σ → Prop) (step : σ → σ → Prop) : σ → Prop
  | init {s : σ} (h : init s) : Reach init step s
  | step {s s' : σ} (h : Reach init step s) (hs : step s s') : Reach init step s'

variable {init : σ → Prop} {step : σ → σ → Prop}

/-- A reachable state stays reachable along any finite run. -/
theorem Reach.steps {s s' : σ} (h : Reach init step s) (hs : Relation.ReflTransGen step s s') :
    Reach init step s' := by
  induction hs with
  | refl => exact h
  | tail _ hlast ih => exact ih.step hlast

/-- **Invariant rule**: what holds initially and is kept by every step from a
reachable state holds in every reachable state. -/
theorem Reach.invariant {I : σ → Prop} (hinit : ∀ s, init s → I s)
    (hstep : ∀ s s', Reach init step s → I s → step s s' → I s') {s : σ}
    (h : Reach init step s) : I s := by
  induction h with
  | init h => exact hinit _ h
  | step h hs ih => exact hstep _ _ h ih hs

/-- **Simulation rule**: a map that sends initial states to initial states and
every step to a finite run sends reachable states to reachable states. -/
theorem Reach.simulate {init' : τ → Prop} {step' : τ → τ → Prop} (f : σ → τ)
    (hinit : ∀ s, init s → init' (f s))
    (hstep : ∀ s s', Reach init step s → step s s' →
      Relation.ReflTransGen step' (f s) (f s')) {s : σ}
    (h : Reach init step s) : Reach init' step' (f s) := by
  induction h with
  | init h => exact .init (hinit _ h)
  | step h hs ih => exact ih.steps (hstep _ _ h hs)

/-- Events that are steps and can be executed: a list of them that can happen one
after the other is a run. -/
theorem Reach.execute {next : σ → ε → Option σ} (hnext : ∀ s e s', next s e = some s' → step s s')
    {s s' : σ} (h : Reach init step s) {es : List ε} (hes : es.foldlM next s = some s') :
    Reach init step s' := by
  induction es generalizing s with
  | nil =>
      cases hes
      exact h
  | cons e es ih =>
      rw [List.foldlM_cons] at hes
      obtain ⟨s₁, hfirst, hrest⟩ := Option.bind_eq_some_iff.mp hes
      exact ih (h.step (hnext s e s₁ hfirst)) hrest

/-- In particular for a system whose steps are its events. -/
theorem Reach.foldlM {next : σ → ε → Option σ} {s s' : σ}
    (h : Reach init (fun s s' => ∃ e, next s e = some s') s) {es : List ε}
    (hes : es.foldlM next s = some s') : Reach init (fun s s' => ∃ e, next s e = some s') s' :=
  h.execute (fun _ e _ he => ⟨e, he⟩) hes

/-- **Progress rule**: if some event lowers the rank as long as it is not zero,
a list of events brings it to zero. -/
theorem exists_foldlM_of_rank (next : σ → ε → Option σ) (I : σ → Prop) (rank : σ → Nat)
    (hnext : ∀ s, I s → rank s ≠ 0 → ∃ e s', next s e = some s' ∧ I s' ∧ rank s' < rank s)
    {s : σ} (hs : I s) : ∃ (es : List ε) (s' : σ), es.foldlM next s = some s' ∧ I s' ∧ rank s' = 0 := by
  induction hr : rank s using Nat.strongRecOn generalizing s with
  | _ n ih =>
      subst hr
      by_cases hzero : rank s = 0
      · exact ⟨[], s, rfl, hs, hzero⟩
      · obtain ⟨e, s₁, hstep, hs₁, hlt⟩ := hnext s hs hzero
        obtain ⟨es, s', hes, hs', hrank⟩ := ih (rank s₁) hlt hs₁ rfl
        refine ⟨e :: es, s', ?_, hs', hrank⟩
        rw [List.foldlM_cons, hstep]
        exact hes

/-- Restricting the steps of a system restricts its reachable states. -/
theorem Reach.mono {step' : σ → σ → Prop} (hstep : ∀ s s', step s s' → step' s s') {s : σ}
    (h : Reach init step s) : Reach init step' s := by
  induction h with
  | init h => exact .init h
  | step _ hs ih => exact ih.step (hstep _ _ hs)

end Trans
