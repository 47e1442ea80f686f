import Distsync.Fencing

/-!
# Distsync.Fencing.Destination

What fencing tokens are for (`docs/semantics.md`, section 2): a destination that
stores the token with each write and rejects those that are not newer,

    UPDATE orders SET status='paid', fencing_token=? WHERE id=? AND fencing_token < ?

Clients write with the token they were told, whenever they get to it: while
they hold the lock, long after they lost it, several times, to several rows.
What a row accepts is then in grant order, with one write at most for each
grant (`accepted_in_grant_order`).
-/

namespace Distsync

open Redis Trans

/-- A fenced lock, what its clients were told, and a table of rows `ρ` with a
column `fencing_token`. -/
structure Fenced (σ ρ : Type) where
  store : σ
  log : FencedLock.Log
  /-- The answers that came back, with their owners. -/
  told : FencedLock.Log
  fencingToken : ρ → Nat
  /-- The updates of a row that affected it, with owner and token. -/
  accepted : ρ → FencedLock.Log

namespace Fenced

variable {σ κ ρ : Type} [DecidableEq ρ]

/-- The `UPDATE`. -/
def update (x : Fenced σ ρ) (row : ρ) (owner : String) (token : Nat) : Fenced σ ρ :=
  if x.fencingToken row < token then
    { x with
      fencingToken := Function.update x.fencingToken row token
      accepted := Function.update x.accepted row (x.accepted row ++ [(owner, .int token)]) }
  else x

/-- What the client of a command is told: the answer to an attempt after which
its owner holds the lock. -/
def tell (L : FencedLock σ κ) (t : Int) (c : κ) (x : Fenced σ ρ) : FencedLock.Log :=
  let r := L.run t (L.evict t x.store) c
  match L.owner c with
  | none => x.told
  | some token => if L.holder r.1 = some token then x.told ++ [(token, r.2)] else x.told

/-- A command is executed, and its answer comes back or not. -/
def lock (L : FencedLock σ κ) (t : Int) (c : κ) (delivered : Bool) (x : Fenced σ ρ) : Fenced σ ρ :=
  { x with
    store := (L.commit t c (x.store, x.log)).1
    log := (L.commit t c (x.store, x.log)).2
    told := if delivered then x.tell L t c else x.told }

inductive Step (L : FencedLock σ κ) (x : Fenced σ ρ) : Fenced σ ρ → Prop
  | lock (t : Int) (c : κ) (delivered : Bool) : Step L x (x.lock L t c delivered)
  /-- A client writes with a token that it was told. -/
  | write (row : ρ) (htold : (owner, .int token) ∈ x.told) : Step L x (x.update row owner token)

/-- A new lock and a new table. -/
def Init (L : FencedLock σ κ) (x : Fenced σ ρ) : Prop :=
  x = ⟨L.init, [], [], fun _ => 0, fun _ => []⟩

end Fenced

/-! ## What the clients know -/

namespace FencedLock

variable {σ κ : Type} {L : FencedLock σ κ}

/-- The log only grows. -/
theorem grows_commit (t : Int) (c : κ) (s : σ) (log : Log) : log <+: (L.commit t c (s, log)).2 := by
  rw [commit]
  dsimp only
  split
  · exact List.prefix_rfl
  · split
    · exact List.prefix_append ..
    · exact List.prefix_rfl

/-- The answer to an owner that holds the lock is that of its grant. -/
theorem answer_mem {s : σ} {log : Log} (h : L.Inv s log) {t : Int} {c : κ} (ho : L.owner c = some token)
    (hholds : L.holder (L.run t (L.evict t s) c).1 = some token) :
    (token, (L.run t (L.evict t s) c).2) ∈ (L.commit t c (s, log)).2 := by
  rcases L.run_cases t (L.evict t s) c with ⟨token', ho', hh, heq⟩ | ⟨token', ho', hfree, hh, -, -⟩ |
    ⟨hno, -, hh⟩
  · obtain rfl := Option.some.inj (ho.symm.trans ho')
    obtain ⟨n, hn, hlast⟩ := (h.evict t).last token hh
    rw [heq, hn]
    exact (grows_commit t c s log).subset (List.mem_of_getLast? hlast)
  · obtain rfl := Option.some.inj (ho.symm.trans ho')
    simp only [commit, ho, hfree, hh, ne_eq, reduceCtorEq, not_false_eq_true, true_and, if_true]
    exact List.mem_append_right _ List.mem_cons_self
  · rcases hh with hh | hh
    · exact absurd (hh.symm.trans hholds) (hno token ho)
    · rw [hh] at hholds
      contradiction

/-- A grant that was numbered `n` is the `n`-th. -/
theorem Inv.take_eq {s : σ} {log : Log} (h : L.Inv s log) (hb : log.length < 2 ^ 53)
    (hmem : (token, .int n) ∈ log) :
    ∃ k, n = k + 1 ∧ k < log.length ∧ log.take n = log.take k ++ [(token, .int n)] := by
  obtain ⟨k, hk, heq⟩ := List.getElem_of_mem hmem
  have hnumber := h.entries k hk
  rw [List.get_eq_getElem, heq, Reply.number_of_lt (by omega), Reply.int.injEq] at hnumber
  refine ⟨k, hnumber, hk, ?_⟩
  rw [hnumber, List.take_succ_eq_append_getElem hk, heq, hnumber]

end FencedLock

/-! ## What the rows accept -/

namespace Fenced

variable {σ κ ρ : Type} {L : FencedLock σ κ} {x : Fenced σ ρ}

variable (L) in
/-- Clients are told of grants, and a row has accepted some of the grants up to
the one of its token. -/
structure Inv (x : Fenced σ ρ) : Prop where
  run : L.Inv x.store x.log
  told : x.told ⊆ x.log
  bounded : ∀ row, x.fencingToken row ≤ x.log.length
  accepted : ∀ row, (x.accepted row).Sublist (x.log.take (x.fencingToken row))

theorem Init.inv (h : Init L x) : x.Inv L := by
  obtain rfl := h
  exact ⟨FencedLock.Run.inv (.init rfl), List.Subset.refl _, fun _ => le_refl _,
    fun _ => List.Sublist.refl _⟩

theorem Inv.lock (hi : x.Inv L) (t : Int) (c : κ) (delivered : Bool) :
    (x.lock L t c delivered).Inv L := by
  have hlog := FencedLock.grows_commit (L := L) t c x.store x.log
  have hkeep : x.told ⊆ (L.commit t c (x.store, x.log)).2 :=
    List.Subset.trans hi.told hlog.subset
  refine ⟨hi.run.commit t c, ?_, fun row => (hi.bounded row).trans hlog.length_le, fun row => ?_⟩
  · show (if delivered then x.tell L t c else x.told) ⊆ (L.commit t c (x.store, x.log)).2
    split
    · rw [tell]
      cases ho : L.owner c with
      | none => exact hkeep
      | some token =>
          dsimp only
          split
          · next hholds =>
            refine List.append_subset.mpr ⟨hkeep, ?_⟩
            simpa using FencedLock.answer_mem hi.run ho hholds
          · exact hkeep
    · exact hkeep
  · show (x.accepted row).Sublist ((L.commit t c (x.store, x.log)).2.take (x.fencingToken row))
    obtain ⟨grants, hgrants⟩ := hlog
    rw [← hgrants, List.take_append_of_le_length (hi.bounded row)]
    exact hi.accepted row

variable [DecidableEq ρ]

theorem log_update (x : Fenced σ ρ) (row : ρ) (owner : String) (token : Nat) :
    (x.update row owner token).log = x.log := by
  rw [Fenced.update]
  split <;> rfl

theorem Inv.update (hi : x.Inv L) (hb : x.log.length < 2 ^ 53) (row : ρ)
    (htold : (owner, .int token) ∈ x.told) : (x.update row owner token).Inv L := by
  obtain ⟨k, rfl, hk, htake⟩ := hi.run.take_eq hb (hi.told htold)
  rw [Fenced.update]
  split
  · next hnewer =>
    -- what the row has accepted so far was granted before
    have hupto : (x.log.take (x.fencingToken row)).Sublist (x.log.take k) :=
      List.take_sublist_take_left (by omega)
    refine ⟨hi.run, hi.told, fun row' => ?_, fun row' => ?_⟩
    · by_cases heq : row' = row
      · subst heq
        simp only [Function.update_self]
        omega
      · simp only [Function.update_of_ne heq]
        exact hi.bounded row'
    · by_cases heq : row' = row
      · subst heq
        simp only [Function.update_self]
        rw [htake]
        exact ((hi.accepted row').trans hupto).append (List.Sublist.refl _)
      · simp only [Function.update_of_ne heq]
        exact hi.accepted row'
  · exact hi

theorem reach_inv (h : Reach (Init L) (Step L) x) (hb : x.log.length < 2 ^ 53) : x.Inv L := by
  induction h with
  | init h => exact h.inv
  | step h hs ih =>
      cases hs with
      | lock t c delivered =>
          have hlog := FencedLock.grows_commit (L := L) t c
          exact (ih ((hlog _ _).length_le.trans_lt hb)).lock t c delivered
      | write row htold =>
          rw [log_update] at hb
          exact (ih hb).update hb row htold

theorem accepted_sublist (h : Reach (Init L) (Step L) x) (hb : x.log.length < 2 ^ 53) (row : ρ) :
    (x.accepted row).Sublist x.log :=
  ((reach_inv h hb).accepted row).trans (List.take_sublist ..)

end Fenced

/-- **Accepted writes are in grant order**: whatever the clients of a fenced
lock do with the tokens they were told, and whenever, the updates that a row
accepts are some of the grants, in the order of the grants, each at most once.
In particular, after a write of one holder no write of an earlier one is
accepted. -/
theorem accepted_in_grant_order {ρ : Type} [DecidableEq ρ] :
    (∀ x : Fenced SingleStore ρ, Reach (Fenced.Init singleLock) (Fenced.Step singleLock) x →
      x.log.length < 2 ^ 53 → ∀ row, (x.accepted row).Sublist x.log) ∧
    (∀ x : Fenced RWStore ρ, Reach (Fenced.Init writerLock) (Fenced.Step writerLock) x →
      x.log.length < 2 ^ 53 → ∀ row, (x.accepted row).Sublist x.log) :=
  ⟨fun _ h hb row => Fenced.accepted_sublist h hb row,
    fun _ h hb row => Fenced.accepted_sublist h hb row⟩

/-- The lock of `a` expires while `a` is stopped, and `b` acquires and writes.
When `a` goes on, its write is rejected. -/
theorem accepted_in_grant_order_stale_writer :
    ∃ x : Fenced SingleStore Unit, Reach (Fenced.Init singleLock) (Fenced.Step singleLock) x ∧
      x.log = [("a", .int 1), ("b", .int 2)] ∧ x.told = x.log ∧
      x.accepted () = [("b", .int 2)] ∧ (x.accepted ()).Sublist x.log := by
  have hinit : Reach (Fenced.Init singleLock) (Fenced.Step singleLock)
      (⟨singleLock.init, [], [], fun _ => 0, fun _ => []⟩ : Fenced SingleStore Unit) := .init rfl
  have ha := hinit.step (.lock 0 (.acquire "a" 10) true)
  have hb := ha.step (.lock 20 (.acquire "b" 10) true)
  have hwrite := hb.step (.write () (show ("b", Reply.int 2) ∈ _ by decide +kernel))
  have hstale := hwrite.step (.write () (show ("a", Reply.int 1) ∈ _ by decide +kernel))
  refine ⟨_, hstale, by decide +kernel, by decide +kernel, by decide +kernel, ?_⟩
  exact accepted_in_grant_order.1 _ hstale (by decide +kernel) ()

end Distsync
