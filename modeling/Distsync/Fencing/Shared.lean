import Distsync.Fencing

/-!
# Distsync.Fencing.Shared

A fenced `Mutex` (or `Leader`) and an `RWMutex` of the same name.  They lock
different keys, `K` and `K:writer`, and mint their tokens from the same
counter, `K:fencing`.

Taken alone, each of the two is a fenced lock whose counter rests while a
holder is stored.  Taken together they are not: the other primitive may count
a grant of its own in the meantime, and an execution that recovers a committed
grant then answers the other's number (`replay_after_other_grant`).  As long
as a grant is only recovered before the next one is committed, every caller is
told the number of its own grant (`shared_fencing`).
-/

namespace Distsync

open Redis Trans

/-- The two exclusive primitives of one name. -/
inductive Side where
  | mutex
  | writer
deriving DecidableEq

/-- The keys of both primitives.  The counter of the read-write lock is also
the counter of the mutex. -/
structure SharedStore where
  lock : Slot String
  rw : RWStore
deriving DecidableEq

namespace SharedStore

/-- The keys before anyone has used either. -/
def init : SharedStore := ⟨.absent, .init⟩

/-- The keys as a command at server time `t` finds them. -/
def evict (t : Int) (s : SharedStore) : SharedStore := ⟨s.lock.evict t, s.rw.evict t⟩

/-- The two keys that the single-owner scripts work on. -/
def single (s : SharedStore) : SingleStore := ⟨s.lock, s.rw.fencing⟩

/-- Those two keys, replaced. -/
def setSingle (r : SingleStore) (s : SharedStore) : SharedStore :=
  { lock := r.lock, rw := { s.rw with fencing := r.fencing } }

def counter (s : SharedStore) : Option Nat := s.rw.fencing

def holder (s : SharedStore) : Side → Option String
  | .mutex => s.lock.get
  | .writer => s.rw.writer.get

theorem evict_counter (t : Int) (s : SharedStore) : (s.evict t).counter = s.counter := rfl

theorem evict_holder (t : Int) (s : SharedStore) (side : Side) :
    (s.evict t).holder side = s.holder side ∨ (s.evict t).holder side = none := by
  cases side with
  | mutex => exact Slot.get_evict t s.lock
  | writer => exact Slot.get_evict t s.rw.writer

end SharedStore

/-- A command on the keys of either primitive. -/
inductive SharedCmd where
  | mutex (c : SingleCmd)
  | rw (c : RWCmd)
deriving DecidableEq

namespace SharedCmd

/-- The effect of a command on keys that hold nothing expired. -/
def run (t : Int) (s : SharedStore) : SharedCmd → SharedStore × Reply
  | mutex c => (s.setSingle (c.run t s.single).1, (c.run t s.single).2)
  | rw c => ({ s with rw := (c.run t s.rw).1 }, (c.run t s.rw).2)

/-- The primitive that a command tries to acquire, and on whose behalf. -/
def owner : SharedCmd → Option (Side × String)
  | mutex c => c.owner.map (Side.mutex, ·)
  | rw c => c.writeOwner.map (Side.writer, ·)

end SharedCmd

/-! ## Grants and reports -/

/-- A committed grant and the number its execution answered. -/
structure Grant where
  side : Side
  owner : String
  answer : Reply
deriving DecidableEq

/-- The keys together with what has happened so far. -/
structure Ledger where
  store : SharedStore
  /-- The grants of both primitives in the order of their commits. -/
  grants : List Grant
  /-- The latest grant of each primitive, by its place in `grants`. -/
  latest : Side → Option Nat
  /-- What callers were told: which grant, and which number. -/
  reports : List (Nat × Reply)

namespace Ledger

/-- Nobody has used either primitive. -/
def init : Ledger := ⟨.init, [], fun _ => none, []⟩

/-- Commit a grant. -/
def commit (side : Side) (token : String) (answer : Reply) (x : Ledger) : Ledger :=
  { x with
    grants := x.grants ++ [⟨side, token, answer⟩]
    latest := Function.update x.latest side (some x.grants.length) }

/-- Tell a caller that its latest grant has the number `answer`. -/
def report (side : Side) (answer : Reply) (x : Ledger) : Ledger :=
  { x with reports := x.reports ++ (x.latest side).toList.map (·, answer) }

/-- A command at server time `t`.  Its answer reaches the caller or is lost on
the way; an answer that is no number tells the caller of no grant. -/
def step (t : Int) (c : SharedCmd) (delivered : Bool) (x : Ledger) : Ledger :=
  let v := x.store.evict t
  let r := c.run t v
  let x := { x with store := r.1 }
  match c.owner with
  | none => x
  | some (side, token) =>
      let x := if v.holder side ≠ some token ∧ r.1.holder side = some token then
        x.commit side token r.2 else x
      if delivered = true ∧ r.2.isInt = true then x.report side r.2 else x

/-- Any command at any server time. -/
def Step (x x' : Ledger) : Prop := ∃ t c delivered, x' = x.step t c delivered

/-- The command recovers a grant that is stored. -/
def Recovers (x : Ledger) (t : Int) (c : SharedCmd) (side : Side) : Prop :=
  ∃ token, c.owner = some (side, token) ∧ (x.store.evict t).holder side = some token

/-- A step that recovers a grant, if it does, before the next one of either
primitive is committed. -/
def CleanStep (x x' : Ledger) : Prop :=
  ∃ t c delivered, (∀ side, x.Recovers t c side → x.latest side = some (x.grants.length - 1)) ∧
    x' = x.step t c delivered

/-- What the shared counter should promise. -/
structure Spec (x : Ledger) : Prop where
  /-- Callers are told the number that their own grant minted. -/
  own : ∀ i answer, (i, answer) ∈ x.reports → ∃ g : Grant, x.grants[i]? = some g ∧ answer = g.answer
  /-- No number is reported for two grants. -/
  unique : ∀ i j answer, (i, answer) ∈ x.reports → (j, answer) ∈ x.reports → i = j

/-- The invariant: the counter counts the grants, which hold its successive
values, and reports repeat them. -/
structure Inv (x : Ledger) : Prop where
  count : x.store.counter.getD 0 = x.grants.length
  minted : ∀ (i : Nat) (g : Grant), x.grants[i]? = some g → g.answer = .number (i + 1)
  latest : ∀ side i, x.latest side = some i → i < x.grants.length
  stored : ∀ side token, x.store.holder side = some token → x.latest side ≠ none
  told : ∀ i answer, (i, answer) ∈ x.reports → i < x.grants.length ∧ answer = .number (i + 1)

end Ledger

/-! ## What one command can do -/

/-- A refused `single_acquire` answers no number. -/
theorem SingleCmd.isInt_of_refused {s : SingleStore} {c : SingleCmd} (ho : c.owner = some token)
    (hbefore : s.lock.get ≠ some token) (hafter : (c.run t s).1.lock.get ≠ some token) :
    (c.run t s).2.isInt = false := by
  cases c with
  | acquire token' ttl =>
      cases ho
      rcases singleAcquire_cases t token ttl true s with
        ⟨hown, -⟩ | ⟨-, heq⟩ | ⟨-, heq⟩ | ⟨-, -, heq⟩
      · exact absurd hown hbefore
      · simp [run, heq, Reply.isInt]
      · simp [run, heq, Reply.isInt]
      · simp [run, heq] at hafter
  | renew | release | expire => contradiction

/-- A refused `rw_write_lock` answers no number. -/
theorem RWCmd.isInt_of_refused {s : RWStore} {c : RWCmd} (ho : c.writeOwner = some token)
    (hbefore : s.writer.get ≠ some token) (hafter : (c.run t s).1.writer.get ≠ some token) :
    (c.run t s).2.isInt = false := by
  cases c with
  | writeLock token' ttl now wt =>
      cases ho
      rcases rwWriteLock_cases t token ttl now wt s with
        ⟨hown, -⟩ | ⟨-, z, r, -, hr, heq⟩ | ⟨-, -, -, -, heq⟩
      · exact absurd hown hbefore
      · rcases hr with rfl | ⟨rfl, -⟩ <;> simp [run, heq, Reply.isInt]
      · simp [run, heq, RWStore.grantWriter] at hafter
  | readLock | readerRenew | readerRelease | writerRenew | writerRelease | zrem | hdel
  | expireWriter | sweep => contradiction

namespace SharedCmd

theorem owner_mutex_eq_some {c : SingleCmd} :
    (mutex c).owner = some (side, token) ↔ side = .mutex ∧ c.owner = some token := by
  simp only [owner, Option.map_eq_some_iff, Prod.mk.injEq]
  constructor
  · rintro ⟨_, ho, rfl, rfl⟩
    exact ⟨rfl, ho⟩
  · rintro ⟨rfl, ho⟩
    exact ⟨token, ho, rfl, rfl⟩

theorem owner_rw_eq_some {c : RWCmd} :
    (rw c).owner = some (side, token) ↔ side = .writer ∧ c.writeOwner = some token := by
  simp only [owner, Option.map_eq_some_iff, Prod.mk.injEq]
  constructor
  · rintro ⟨_, ho, rfl, rfl⟩
    exact ⟨rfl, ho⟩
  · rintro ⟨rfl, ho⟩
    exact ⟨token, ho, rfl, rfl⟩

/-- A command recovers a stored grant, commits a new one, or does neither; the
other primitive's holder is not touched by a grant. -/
theorem run_cases (t : Int) (s : SharedStore) (c : SharedCmd) :
    (∃ side token, c.owner = some (side, token) ∧ s.holder side = some token ∧
      c.run t s = (s, .ofGet s.counter)) ∨
    (∃ side token, c.owner = some (side, token) ∧ s.holder side = none ∧
      (c.run t s).1.holder side = some token ∧
      (∀ other ≠ side, (c.run t s).1.holder other = s.holder other) ∧
      (c.run t s).1.counter = some (s.counter.getD 0 + 1) ∧
      (c.run t s).2 = .number (s.counter.getD 0 + 1)) ∨
    ((∀ side token, c.owner = some (side, token) → s.holder side ≠ some token ∧
        (c.run t s).1.holder side ≠ some token ∧ (c.run t s).2.isInt = false) ∧
      (c.run t s).1.counter = s.counter ∧
      ∀ side, (c.run t s).1.holder side = s.holder side ∨ (c.run t s).1.holder side = none) := by
  -- a holder that stayed, or went, is not the one that was refused
  have hstays {a b : Option String} (hab : b = a ∨ b = none) {token : String}
      (ha : a ≠ some token) : b ≠ some token := by
    rcases hab with rfl | rfl
    · exact ha
    · nofun
  cases c with
  | mutex c =>
      rcases singleLock.run_cases t s.single c with ⟨token, ho, hh, heq⟩ |
        ⟨token, ho, hfree, hh, hc, hr⟩ | ⟨hno, hc, hh⟩
      · refine .inl ⟨.mutex, token, owner_mutex_eq_some.mpr ⟨rfl, ho⟩, hh, ?_⟩
        rw [run, show c.run t s.single = _ from heq]
        rfl
      · refine .inr (.inl ⟨.mutex, token, owner_mutex_eq_some.mpr ⟨rfl, ho⟩, hfree, hh, ?_, hc, hr⟩)
        intro other hne
        cases other with
        | mutex => exact absurd rfl hne
        | writer => rfl
      · refine .inr (.inr ⟨?_, hc, ?_⟩)
        · intro side token ho
          obtain ⟨rfl, hown⟩ := owner_mutex_eq_some.mp ho
          have hafter := hstays hh (hno token hown)
          exact ⟨hno token hown, hafter, SingleCmd.isInt_of_refused hown (hno token hown) hafter⟩
        · intro side
          cases side with
          | mutex => exact hh
          | writer => exact .inl rfl
  | rw c =>
      rcases writerLock.run_cases t s.rw c with ⟨token, ho, hh, heq⟩ |
        ⟨token, ho, hfree, hh, hc, hr⟩ | ⟨hno, hc, hh⟩
      · refine .inl ⟨.writer, token, owner_rw_eq_some.mpr ⟨rfl, ho⟩, hh, ?_⟩
        rw [run, show c.run t s.rw = _ from heq]
        rfl
      · refine .inr (.inl ⟨.writer, token, owner_rw_eq_some.mpr ⟨rfl, ho⟩, hfree, hh, ?_, hc, hr⟩)
        intro other hne
        cases other with
        | mutex => rfl
        | writer => exact absurd rfl hne
      · refine .inr (.inr ⟨?_, hc, ?_⟩)
        · intro side token ho
          obtain ⟨rfl, hown⟩ := owner_rw_eq_some.mp ho
          have hafter := hstays hh (hno token hown)
          exact ⟨hno token hown, hafter, RWCmd.isInt_of_refused hown (hno token hown) hafter⟩
        · intro side
          cases side with
          | mutex => exact .inl rfl
          | writer => exact hh

end SharedCmd

/-! ## Runs -/

namespace Ledger

theorem Inv.init : Ledger.init.Inv where
  count := rfl
  minted := by simp [Ledger.init]
  latest := nofun
  stored := by
    intro side token h
    cases side <;> contradiction
  told := by simp [Ledger.init]

/-- Expiry lets holders go. -/
theorem Inv.setStore {x : Ledger} (h : x.Inv) {s : SharedStore} (hc : s.counter = x.store.counter)
    (hh : ∀ side, s.holder side = x.store.holder side ∨ s.holder side = none) :
    Inv { x with store := s } := by
  refine ⟨by rw [hc]; exact h.count, h.minted, h.latest, ?_, h.told⟩
  intro side token htok
  rcases hh side with heq | hnone
  · exact h.stored side token (heq ▸ htok)
  · rw [hnone] at htok
    contradiction

/-- A grant takes the next number. -/
theorem Inv.commit {x : Ledger} (h : x.Inv) {s : SharedStore} (side : Side) (token : String)
    (hc : s.counter = some (x.grants.length + 1))
    (hother : ∀ other ≠ side, s.holder other = x.store.holder other) :
    ({ x with store := s }.commit side token (.number (x.grants.length + 1))).Inv := by
  refine ⟨by simp [Ledger.commit, hc], ?_, ?_, ?_, ?_⟩
  · intro i g hg
    simp only [Ledger.commit, List.getElem?_append] at hg
    split at hg
    · exact h.minted i g hg
    · next hlt =>
        rw [List.getElem?_singleton] at hg
        split at hg
        · next hzero =>
            cases hg
            rw [show i = x.grants.length by omega]
        · contradiction
  · intro side' i hi
    simp only [Ledger.commit, List.length_append, List.length_singleton] at hi ⊢
    by_cases hside : side' = side
    · subst hside
      rw [Function.update_self] at hi
      cases hi
      exact Nat.lt_succ_self _
    · rw [Function.update_of_ne hside] at hi
      exact (h.latest side' i hi).trans (Nat.lt_succ_self _)
  · intro side' token' htok
    simp only [Ledger.commit] at htok ⊢
    by_cases hside : side' = side
    · subst hside
      simp
    · rw [Function.update_of_ne hside]
      exact h.stored side' token' ((hother side' hside) ▸ htok)
  · intro i answer hi
    obtain ⟨hlt, ha⟩ := h.told i answer hi
    simp only [Ledger.commit, List.length_append, List.length_singleton]
    exact ⟨hlt.trans (Nat.lt_succ_self _), ha⟩

/-- A report repeats the number of the latest grant. -/
theorem Inv.report {x : Ledger} (h : x.Inv) (side : Side)
    (ha : ∀ i, x.latest side = some i → answer = .number (i + 1)) : (x.report side answer).Inv := by
  refine ⟨h.count, h.minted, h.latest, h.stored, ?_⟩
  intro i answer' hi
  rw [Ledger.report, List.mem_append] at hi
  rcases hi with hi | hi
  · exact h.told i answer' hi
  · rw [List.mem_map] at hi
    obtain ⟨j, hj, heq⟩ := hi
    cases heq
    have hlatest : x.latest side = some i := by simpa using hj
    exact ⟨h.latest side i hlatest, ha i hlatest⟩

/-- Every step that recovers no overtaken grant keeps the invariant. -/
theorem Inv.step {x x' : Ledger} (h : x.Inv) (hs : CleanStep x x') : x'.Inv := by
  obtain ⟨t, c, delivered, hclean, rfl⟩ := hs
  have hv := h.setStore (x.store.evict_counter t) (x.store.evict_holder t)
  have hcount : (x.store.evict t).counter.getD 0 = x.grants.length := hv.count
  rcases SharedCmd.run_cases t (x.store.evict t) c with ⟨side, token, ho, hh, heq⟩ |
    ⟨side, token, ho, hfree, hh, hother, hc, hr⟩ | ⟨hno, hc, hh⟩
  · -- a recovered grant is the last one, and the counter still stands at its number
    have hlast := hclean side ⟨token, ho, hh⟩
    have hpos : x.grants.length - 1 < x.grants.length := h.latest side _ hlast
    obtain ⟨n, hn⟩ : ∃ n, (x.store.evict t).counter = some n := by
      rw [← Option.ne_none_iff_exists']
      intro hnone
      rw [hnone, Option.getD_none] at hcount
      omega
    rw [hn, Option.getD_some] at hcount
    simp only [Ledger.step, ho, heq, hh, ne_eq, not_true_eq_false, false_and, if_false]
    split
    · refine hv.report side ?_
      intro i hi
      have hi' : x.latest side = some i := hi
      rw [hlast] at hi'
      cases hi'
      rw [hn, Reply.ofGet, hcount, Nat.sub_add_cancel (by omega)]
    · exact hv
  · -- a new grant is told its own number
    rw [hcount] at hc hr
    have hx := hv.commit side token hc hother
    simp only [Ledger.step, ho, hfree, hh, hr, ne_eq, reduceCtorEq, not_false_eq_true, true_and,
      if_true]
    split
    · refine hx.report side ?_
      intro i hi
      simp only [Ledger.commit, Function.update_self, Option.some.injEq] at hi
      rw [hi]
    · exact hx
  · have hx := hv.setStore hc hh
    cases ho : c.owner with
    | none => simpa only [Ledger.step, ho] using hx
    | some o =>
        obtain ⟨side, token⟩ := o
        obtain ⟨-, hafter, hint⟩ := hno side token ho
        simpa only [Ledger.step, ho, hafter, hint, and_false, if_false, Bool.false_eq_true] using hx

theorem cleanStep_of_owner {x : Ledger} {c : SharedCmd} (ho : c.owner = some (side, token)) (t : Int)
    (delivered : Bool) (h : (x.store.evict t).holder side = some token →
      x.latest side = some (x.grants.length - 1)) : CleanStep x (x.step t c delivered) := by
  refine ⟨t, c, delivered, ?_, rfl⟩
  rintro side' ⟨token', ho', hh⟩
  rw [ho] at ho'
  cases ho'
  exact h hh

theorem cleanStep_of_none {c : SharedCmd} (ho : c.owner = none) (t : Int) (delivered : Bool)
    (x : Ledger) : CleanStep x (x.step t c delivered) := by
  refine ⟨t, c, delivered, ?_, rfl⟩
  rintro side ⟨token, ho', -⟩
  rw [ho] at ho'
  contradiction

end Ledger

open Ledger

/-- **Tokens of a shared counter**: in every run in which a grant is recovered
only before the next grant of either primitive is committed, every caller is
told the number its own grant minted, and no number is told for two grants. -/
theorem shared_fencing {x : Ledger} (h : Reach (· = Ledger.init) CleanStep x)
    (hb : x.grants.length < 2 ^ 53) : x.Spec := by
  have hinv : x.Inv := by
    refine Reach.invariant ?_ (fun _ _ _ ih hs => ih.step hs) h
    rintro _ rfl
    exact .init
  constructor
  · intro i answer hi
    obtain ⟨hlt, ha⟩ := hinv.told i answer hi
    refine ⟨x.grants[i], List.getElem?_eq_getElem hlt, ?_⟩
    rw [hinv.minted i _ (List.getElem?_eq_getElem hlt), ha]
  · intro i j answer hi hj
    obtain ⟨hlti, hai⟩ := hinv.told i answer hi
    obtain ⟨hltj, haj⟩ := hinv.told j answer hj
    rw [Reply.number_of_lt (by omega)] at hai haj
    have hij := Reply.int.inj (hai.symm.trans haj)
    omega

/-- The first answer to owner `a` of the mutex is lost, the second recovers
the grant; after the release a writer takes the next number. -/
theorem shared_fencing_run :
    let x := ((((Ledger.init.step 0 (.mutex (.acquire "a" 1000)) false).step 1
      (.mutex (.acquire "a" 1000)) true).step 2 (.mutex (.release "a")) true).step 3
      (.rw (.writeLock "w" 1000 3 2000)) true)
    x.reports = [(0, .int 1), (1, .int 2)] ∧ x.Spec := by
  refine ⟨by decide +kernel, shared_fencing ?_ (by decide +kernel)⟩
  have hlost : Reach (· = Ledger.init) CleanStep _ :=
    .step (.init rfl) (cleanStep_of_owner (c := .mutex (.acquire "a" 1000)) rfl 0 false
      (by decide +kernel))
  have hrecovered := hlost.step (cleanStep_of_owner (c := .mutex (.acquire "a" 1000)) rfl 1 true
    (by decide +kernel))
  have hreleased := hrecovered.step (cleanStep_of_none (c := .mutex (.release "a")) rfl 2 true _)
  exact hreleased.step (cleanStep_of_owner (c := .rw (.writeLock "w" 1000 3 2000)) rfl 3 true
    (by decide +kernel))

/-- **A recovered grant with another's number**: the answer to owner `a` of
the mutex is lost, a writer `w` is granted and told 2, and when the command of
`a` is repeated, its grant, which minted 1, is told 2 as well. -/
theorem replay_after_other_grant :
    ∃ x, Reach (· = Ledger.init) Ledger.Step x ∧
      x.grants = [⟨.mutex, "a", .int 1⟩, ⟨.writer, "w", .int 2⟩] ∧
      x.reports = [(1, .int 2), (0, .int 2)] ∧ ¬x.Spec := by
  let x := ((Ledger.init.step 0 (.mutex (.acquire "a" 1000)) false).step 1
    (.rw (.writeLock "w" 1000 1 2000)) true).step 2 (.mutex (.acquire "a" 1000)) true
  have hreports : x.reports = [(1, .int 2), (0, .int 2)] := by decide +kernel
  refine ⟨x, ?_, by decide +kernel, hreports, ?_⟩
  · exact .step (.step (.step (.init rfl) ⟨_, _, _, rfl⟩) ⟨_, _, _, rfl⟩) ⟨_, _, _, rfl⟩
  · intro hspec
    have hunique := hspec.unique 0 1 (.int 2)
    rw [hreports] at hunique
    exact absurd (hunique (by decide) (by decide)) (by decide)

end Distsync
