import Distsync.Lua.RateLimit
import Distsync.Trans.Machine
import Mathlib.Algebra.BigOperators.Group.List.Basic
import Mathlib.Algebra.Order.BigOperators.Group.List
import Mathlib.Data.List.Chain
import Mathlib.Tactic.Linarith

/-!
# Distsync.RateLimit.Sliding

The sliding window over whole runs with non-decreasing timestamps.

The log keeps one member for every unit that was admitted, scored by the
timestamp of its call, and each call first drops what has left the window.  So
what it counts is the history itself: a call is admitted exactly when the
units admitted in the window that ends at its timestamp leave room for it, and
no window ever holds more than the limit (`sliding_exact`).

The key outlives its last call by two windows.  That is enough as long as the
server's clock does not run ahead of the timestamps by more than a window
between one call and the next.
-/

namespace Distsync

open Redis Trans

/-- A sliding window as `Client.RateLimiter` makes it. -/
structure WindowLimit where
  limit : ℚ
  windowMs : Int
  one_le_limit : 1 ≤ limit
  one_le_windowMs : 1 ≤ windowMs

/-- A call as `Allow` sends it, executed at server time `time`. -/
structure WindowCall (w : WindowLimit) where
  time : Int
  now : Int
  requested : Nat
  memberPrefix : String
  one_le_requested : 1 ≤ requested
  requested_le : (requested : ℚ) ≤ w.limit

/-- The entries of a call. -/
def WindowCall.members {w : WindowLimit} (c : WindowCall w) : List String :=
  (List.range c.requested).map (windowMember c.memberPrefix)

namespace WindowLimit

variable (w : WindowLimit)

/-- `ratelimit_sliding.lua` on one key. -/
def sliding : Machine (Slot WindowLog) (WindowCall w) LimitReply := fun c k =>
  ratelimitSliding c.time w.limit w.windowMs c.now c.requested c.memberPrefix (k.evict c.time)

/-- `ratelimit_sliding.lua` on one key that never expires. -/
def slidingKept : Machine (Slot WindowLog) (WindowCall w) LimitReply := fun c k =>
  ratelimitSliding c.time w.limit w.windowMs c.now c.requested c.memberPrefix k

/-- Calls with their answers, in the order of execution. -/
abbrev History := List (WindowCall w × LimitReply)

/-- The units admitted with a timestamp in the window that ends at `t`. -/
def units (t : Int) (h : w.History) : Nat :=
  ((h.filter fun e => e.2.allowed ∧ t - w.windowMs < e.1.now ∧ e.1.now ≤ t).map
    fun e => e.1.requested).sum

/-- Timestamps do not decrease, no two calls share a prefix, and from one call
to the next the server's clock gains at most a window on the timestamps. -/
structure InOrder (calls : List (WindowCall w)) : Prop where
  now_le : calls.Pairwise fun c c' => c.now ≤ c'.now
  distinct : (calls.map WindowCall.memberPrefix).Nodup
  timely : calls.IsChain fun c c' => c'.time - c.time ≤ c'.now - c.now + w.windowMs

variable {w}

/-! ## The log of a history -/

theorem windowMember_inj {p p' : String} :
    windowMember p i = windowMember p' j ↔ p = p' ∧ i = j :=
  numbered_inj (c := ':') (by decide) (by decide)

theorem nodup_members (c : WindowCall w) : c.members.Nodup := by
  apply List.nodup_range.map
  intro i j h
  exact (windowMember_inj.mp h).2

theorem disjoint_members {c c' : WindowCall w} (h : c.memberPrefix ≠ c'.memberPrefix) :
    c.members.Disjoint c'.members := by
  intro m hm hm'
  rw [WindowCall.members, List.mem_map] at hm hm'
  obtain ⟨i, -, rfl⟩ := hm
  obtain ⟨j, -, he⟩ := hm'
  exact h (windowMember_inj.mp he).1.symm

/-- The log holds what the history admitted later than `since`, and nothing
else. -/
def Logs (since : Int) (h : w.History) (z : WindowLog) : Prop :=
  ∀ m sc, z.score m = some sc ↔
    ∃ e ∈ h, e.2.allowed = true ∧ since < e.1.now ∧ m ∈ e.1.members ∧ e.1.now = sc

theorem Logs.remUpTo {h : w.History} (hl : Logs since h z) (hle : since ≤ since') :
    Logs since' h (z.remUpTo since') := by
  intro m sc
  rw [ZSet.score_remUpTo, Option.filter_eq_some_iff, hl m sc, decide_eq_true_iff]
  constructor
  · rintro ⟨⟨e, he, hadm, -, hm, rfl⟩, hlt⟩
    exact ⟨e, he, hadm, hlt, hm, rfl⟩
  · rintro ⟨e, he, hadm, hlt, hm, rfl⟩
    exact ⟨⟨e, he, hadm, hle.trans_lt hlt, hm, rfl⟩, hlt⟩

/-- A rejected call logs nothing. -/
theorem Logs.rejected {h : w.History} (hl : Logs since h z) (hrej : r.allowed = false)
    (c : WindowCall w) : Logs since (h ++ [(c, r)]) z := by
  intro m sc
  simp [hl m sc, hrej]

/-- An admitted call with a new prefix logs its units. -/
theorem Logs.admitted {h : w.History} (hl : Logs since h z) {c : WindowCall w}
    (hnew : ∀ e ∈ h, e.1.memberPrefix ≠ c.memberPrefix) (hlt : since < c.now)
    (hadm : r.allowed = true) : Logs since (h ++ [(c, r)]) (z.addAll c.members c.now) := by
  intro m sc
  rw [ZSet.score_addAll]
  by_cases hm : m ∈ c.members
  · have hother : ∀ e ∈ h, m ∉ e.1.members := fun e he hm' =>
      disjoint_members (hnew e he) hm' hm
    rw [if_pos hm, Option.some_inj]
    constructor
    · rintro rfl
      exact ⟨(c, r), by simp, hadm, hlt, hm, rfl⟩
    · rintro ⟨e, he, -, -, hm', rfl⟩
      rcases List.mem_append.mp he with he | he
      · exact absurd hm' (hother e he)
      · rw [List.mem_singleton.mp he]
  · rw [if_neg hm, hl m sc]
    constructor
    · rintro ⟨e, he, hrest⟩
      exact ⟨e, List.mem_append_left _ he, hrest⟩
    · rintro ⟨e, he, hadm', hlt', hm', hsc⟩
      rcases List.mem_append.mp he with he | he
      · exact ⟨e, he, hadm', hlt', hm', hsc⟩
      · rw [List.mem_singleton.mp he] at hm'
        exact absurd hm' hm

/-- The size of a log is the number of units it stands for. -/
theorem Logs.card_eq {h : w.History} (hl : Logs (t - w.windowMs) h z)
    (hdistinct : (h.map fun e => e.1.memberPrefix).Nodup) (hle : ∀ e ∈ h, e.1.now ≤ t) :
    z.card = w.units t h := by
  let counted := h.filter fun e => e.2.allowed ∧ t - w.windowMs < e.1.now ∧ e.1.now ≤ t
  have hnodup : (counted.flatMap fun e => e.1.members).Nodup := by
    rw [List.nodup_flatMap]
    refine ⟨fun e _ => nodup_members e.1, ?_⟩
    have hpair : counted.Pairwise fun e e' => e.1.memberPrefix ≠ e'.1.memberPrefix :=
      (List.pairwise_map.mp hdistinct).sublist List.filter_sublist
    exact hpair.imp fun hne => disjoint_members hne
  have hmembers : z.members = (counted.flatMap fun e => e.1.members).toFinset := by
    ext m
    rw [ZSet.mem_members, List.mem_toFinset, List.mem_flatMap]
    constructor
    · rintro ⟨sc, hsc⟩
      obtain ⟨e, he, hadm, hlt, hm, -⟩ := (hl m sc).mp hsc
      exact ⟨e, List.mem_filter.mpr ⟨he, by simp [hadm, hlt, hle e he]⟩, hm⟩
    · rintro ⟨e, he, hm⟩
      obtain ⟨he, hcount⟩ := List.mem_filter.mp he
      rw [decide_eq_true_iff] at hcount
      exact ⟨e.1.now, (hl m _).mpr ⟨e, he, hcount.1, hcount.2.1, hm, rfl⟩⟩
  have hlength : (fun e : WindowCall w × LimitReply => e.1.members.length) =
      fun e => e.1.requested := by
    funext e
    simp [WindowCall.members]
  rw [← ZSet.card_members, hmembers, List.toFinset_card_of_nodup hnodup, List.length_flatMap,
    hlength]
  rfl

/-! ## One call -/

/-- The time to wait that a call is told when it counts `z`. -/
def retryMs (c : WindowCall w) (z : WindowLog) : Int :=
  match z.entries.head? with
  | some oldest => w.windowMs - (c.now - oldest.2)
  | none => w.windowMs

/-- The decision on a call that counts `z`. -/
def verdict (c : WindowCall w) (z : WindowLog) : Bool × Int :=
  if (z.card : ℚ) + c.requested > w.limit then (false, retryMs c z) else (true, 0)

theorem verdict_fst_iff (c : WindowCall w) (z : WindowLog) :
    (verdict c z).1 = true ↔ (z.card : ℚ) + c.requested ≤ w.limit := by
  rw [verdict]
  split <;> simp_all

/-- The log that is left by a call that counts `z`: an admitted call is logged,
a rejected one is not. -/
def logged (c : WindowCall w) (z : WindowLog) : WindowLog :=
  if (verdict c z).1 then z.addAll c.members c.now else z

/-- What the script does to a log, by what is in the window of the call. -/
theorem slidingKept_cases (c : WindowCall w) (k : Slot WindowLog) :
    let z := k.contents.remUpTo (c.now - w.windowMs)
    (w.slidingKept c k).2.decision = verdict c z ∧
      (w.slidingKept c k).1.contents = logged c z ∧
      ((w.slidingKept c k).1 = .absent ∨
        (w.slidingKept c k).1.deadline = some (c.time + w.windowMs * 2)) := by
  intro z
  have hw := w.one_le_windowMs
  have hexpire (k : Slot WindowLog) :
      (k.pexpire c.time (w.windowMs * 2)).contents = k.contents ∧
        (k.pexpire c.time (w.windowMs * 2) = .absent ∨
          (k.pexpire c.time (w.windowMs * 2)).deadline = some (c.time + w.windowMs * 2)) := by
    refine ⟨congrArg (Option.getD · ∅) (Slot.get_pexpire _ _ (by omega)), ?_⟩
    cases k with
    | absent => exact .inl rfl
    | present v d => exact .inr (by rw [Slot.pexpire, if_neg (by omega)]; rfl)
  rw [slidingKept, ratelimitSliding, Slot.contents_modify, logged, verdict]
  by_cases hroom : (z.card : ℚ) + c.requested > w.limit
  · rw [if_pos hroom, if_pos hroom]
    refine ⟨rfl, ?_, (hexpire _).2⟩
    exact (hexpire _).1.trans (Slot.contents_modify ..)
  · rw [if_neg hroom, if_neg hroom]
    refine ⟨rfl, ?_, (hexpire _).2⟩
    exact (hexpire _).1.trans ((Slot.contents_modify ..).trans
      (congrArg (ZSet.addAll · _ _) (Slot.contents_modify ..)))

/-- The log that a call counts: what it finds, less what has left its
window. -/
def counted (c : WindowCall w) (k : Slot WindowLog) : WindowLog :=
  (k.evict c.time).contents.remUpTo (c.now - w.windowMs)

/-- A call is admitted if there is room, and then logged; otherwise the log is
only counted. -/
theorem sliding_cases (c : WindowCall w) (k : Slot WindowLog) :
    ((w.sliding c k).2.allowed = true ↔ ((counted c k).card : ℚ) + c.requested ≤ w.limit) ∧
      (w.sliding c k).1.contents =
        (if (w.sliding c k).2.allowed then (counted c k).addAll c.members c.now
          else counted c k) ∧
      ((w.sliding c k).1 = .absent ∨
        (w.sliding c k).1.deadline = some (c.time + w.windowMs * 2)) := by
  obtain ⟨hdecision, hcontents, hdeadline⟩ := slidingKept_cases c (k.evict c.time)
  have hallowed : (w.sliding c k).2.allowed = (verdict c (counted c k)).1 :=
    congrArg Prod.fst hdecision
  refine ⟨?_, ?_, hdeadline⟩
  · rw [hallowed]
    exact verdict_fst_iff c (counted c k)
  · rw [hallowed]
    exact hcontents

/-- The key after a history that ends with the call `last`. -/
structure Recorded (last : WindowCall w) (h : w.History) (k : Slot WindowLog) : Prop where
  now_le : ∀ e ∈ h, e.1.now ≤ last.now
  logs : Logs (last.now - w.windowMs) h k.contents
  deadline : k = .absent ∨ k.deadline = some (last.time + w.windowMs * 2)

/-- A call that counts its history extends it. -/
theorem recorded_call {h : w.History} {c : WindowCall w} {k : Slot WindowLog}
    (hl : Logs (c.now - w.windowMs) h (counted c k)) (hle : ∀ e ∈ h, e.1.now ≤ c.now)
    (hnew : ∀ e ∈ h, e.1.memberPrefix ≠ c.memberPrefix) :
    Recorded c (h ++ [(c, (w.sliding c k).2)]) (w.sliding c k).1 := by
  have hw := w.one_le_windowMs
  obtain ⟨-, hcontents, hdeadline⟩ := sliding_cases c k
  refine ⟨?_, ?_, hdeadline⟩
  · intro e he
    rcases List.mem_append.mp he with he | he
    · exact hle e he
    · rw [List.mem_singleton.mp he]
  · rw [hcontents]
    cases hadm : (w.sliding c k).2.allowed with
    | false => exact hl.rejected hadm c
    | true => exact hl.admitted hnew (by omega) hadm

/-- The next call counts the whole history, even if the key is gone: what was
in it has left the window. -/
theorem Recorded.logs_counted {last c : WindowCall w} {h : w.History} {k : Slot WindowLog}
    (hr : Recorded last h k) (hnow : last.now ≤ c.now)
    (htime : c.time - last.time ≤ c.now - last.now + w.windowMs) :
    Logs (c.now - w.windowMs) h (counted c k) := by
  have hle : last.now - w.windowMs ≤ c.now - w.windowMs := by omega
  rcases Slot.evict_eq c.time k with heq | heq
  · rw [counted, heq]
    exact hr.logs.remUpTo hle
  · cases k with
    | absent =>
        rw [counted]
        exact hr.logs.remUpTo hle
    | present v d =>
        -- two windows have passed on the server, so one has on the timestamps
        obtain ⟨d', hd, hlt⟩ := Slot.evict_eq_absent_iff.mp heq
        have hd' : d = some (last.time + w.windowMs * 2) :=
          hr.deadline.resolve_left (by simp)
        rw [hd', Option.some_inj] at hd
        intro m sc
        rw [counted, heq, ZSet.score_remUpTo]
        constructor
        · simp
        · rintro ⟨e, he, -, hlt', -⟩
          have := hr.now_le e he
          omega

/-! ## Whole runs -/

theorem InOrder.of_append {xs ys : List (WindowCall w)} (h : w.InOrder (xs ++ ys)) :
    w.InOrder xs := by
  refine ⟨(List.pairwise_append.mp h.now_le).1, ?_, (List.isChain_append.mp h.timely).1⟩
  have hdistinct := h.distinct
  rw [List.map_append] at hdistinct
  exact hdistinct.of_append_left

/-- The last of some calls is not before any other, and has its own prefix. -/
theorem InOrder.last {earlier : List (WindowCall w)} {c : WindowCall w}
    (h : w.InOrder (earlier ++ [c])) (hx : x ∈ earlier) :
    x.now ≤ c.now ∧ x.memberPrefix ≠ c.memberPrefix := by
  refine ⟨(List.pairwise_append.mp h.now_le).2.2 x hx c List.mem_cons_self, ?_⟩
  have hdistinct := List.pairwise_map.mp h.distinct
  exact (List.pairwise_append.mp hdistinct).2.2 x hx c List.mem_cons_self

/-- Every call counts the history of the calls before it. -/
theorem InOrder.logs_counted {earlier : List (WindowCall w)} {c : WindowCall w}
    (h : w.InOrder (earlier ++ [c])) :
    Logs (c.now - w.windowMs) (w.sliding.trace earlier .absent)
      (counted c (w.sliding.final earlier .absent)) := by
  induction earlier using List.reverseRecOn generalizing c with
  | nil =>
      intro m sc
      simp [counted, Slot.evict, ZSet.score_remUpTo]
  | append_singleton init last ih =>
      have hinit : w.InOrder (init ++ [last]) := h.of_append
      have hrecorded := recorded_call (ih hinit)
        (fun e he => (hinit.last (w.sliding.mem_of_mem_trace he)).1)
        (fun e he => (hinit.last (w.sliding.mem_of_mem_trace he)).2)
      have htime : c.time - last.time ≤ c.now - last.now + w.windowMs :=
        (List.isChain_append.mp h.timely).2.2 last (by simp) c (by simp)
      have hnow : last.now ≤ c.now := (h.last (by simp)).1
      rw [Machine.trace_append, Machine.final_append]
      exact hrecorded.logs_counted hnow htime

/-- A call is admitted exactly when its window has room for it. -/
theorem InOrder.allowed_iff {earlier : List (WindowCall w)} {c : WindowCall w}
    (h : w.InOrder (earlier ++ [c])) :
    (w.sliding c (w.sliding.final earlier .absent)).2.allowed = true ↔
      (w.units c.now (w.sliding.trace earlier .absent) : ℚ) + c.requested ≤ w.limit := by
  have hdistinct :
      ((w.sliding.trace earlier .absent).map fun e => e.1.memberPrefix).Nodup := by
    have heq := List.map_map (g := WindowCall.memberPrefix) (f := Prod.fst)
      (l := w.sliding.trace earlier .absent)
    rw [w.sliding.map_fst_trace] at heq
    exact heq ▸ h.of_append.distinct
  have hcard := h.logs_counted.card_eq hdistinct
    (fun e he => (h.last (w.sliding.mem_of_mem_trace he)).1)
  rw [← hcard]
  exact (sliding_cases c _).1

/-! ## Windows -/

theorem units_append (t : Int) (h h' : w.History) :
    w.units t (h ++ h') = w.units t h + w.units t h' := by
  simp [units]

/-- A window that ends later than a history, but not before `now`, holds no
more of it than the window that ends at `now`. -/
theorem units_le_units {h : w.History} (hle : ∀ e ∈ h, e.1.now ≤ now) (hnow : now ≤ t) :
    w.units t h ≤ w.units now h := by
  induction h with
  | nil => exact le_refl _
  | cons e h ih =>
      have hrest := ih fun e he => hle e (List.mem_cons_of_mem _ he)
      have he := hle e List.mem_cons_self
      rw [← List.singleton_append, units_append, units_append]
      refine Nat.add_le_add ?_ hrest
      simp only [units, List.filter_cons, List.filter_nil]
      by_cases hcount : e.2.allowed ∧ t - w.windowMs < e.1.now ∧ e.1.now ≤ t
      · have hcount' : e.2.allowed ∧ now - w.windowMs < e.1.now ∧ e.1.now ≤ now :=
          ⟨hcount.1, by omega, he⟩
        simp [hcount, hcount']
      · simp [hcount]

/-- No window holds more than the limit. -/
theorem InOrder.units_le {calls : List (WindowCall w)} (h : w.InOrder calls) (t : Int) :
    (w.units t (w.sliding.trace calls .absent) : ℚ) ≤ w.limit := by
  induction calls using List.reverseRecOn with
  | nil => exact le_trans (by simp [units]) w.one_le_limit
  | append_singleton earlier c ih =>
      rw [Machine.trace_append, units_append]
      by_cases hcount : (w.sliding c (w.sliding.final earlier .absent)).2.allowed = true ∧
          t - w.windowMs < c.now ∧ c.now ≤ t
      · -- what the window holds of the earlier calls is in the window of the call as well
        have hroom := h.allowed_iff.mp hcount.1
        have hle : w.units t (w.sliding.trace earlier .absent) ≤
            w.units c.now (w.sliding.trace earlier .absent) :=
          units_le_units (fun e he => (h.last (w.sliding.mem_of_mem_trace he)).1) hcount.2.2
        have hle' := Nat.cast_le (α := ℚ) |>.mpr hle
        have hcall : w.units t (w.sliding.trace [c] (w.sliding.final earlier .absent)) =
            c.requested := by
          simp [units, Machine.trace, hcount]
        rw [hcall]
        push_cast
        linarith
      · have hcall : w.units t (w.sliding.trace [c] (w.sliding.final earlier .absent)) = 0 := by
          simp [units, Machine.trace, hcount]
        rw [hcall, Nat.add_zero]
        exact ih h.of_append

/-- **Exactness**: a call is admitted exactly when the units admitted before
it in the window that ends at its timestamp, and its own, are within the
limit; and no window holds more than the limit. -/
theorem sliding_exact {calls : List (WindowCall w)} (h : w.InOrder calls) :
    (∀ earlier c later, calls = earlier ++ c :: later →
      ((w.sliding c (w.sliding.final earlier .absent)).2.allowed = true ↔
        (w.units c.now (w.sliding.trace earlier .absent) : ℚ) + c.requested ≤ w.limit)) ∧
    ∀ t, (w.units t (w.sliding.trace calls .absent) : ℚ) ≤ w.limit := by
  refine ⟨?_, h.units_le⟩
  rintro earlier c later rfl
  rw [List.append_cons] at h
  exact h.of_append.allowed_iff

/-- A limit of two and a half in a second: two units at 0, one at 500 that is
rejected, and one at 1000, when the first two have just left the window. -/
theorem sliding_exact_half_unit :
    let w : WindowLimit := ⟨5 / 2, 1000, by norm_num, by decide⟩
    let calls : List (WindowCall w) :=
      [⟨0, 0, 2, "a", by decide, by norm_num⟩, ⟨500, 500, 1, "b", by decide, by norm_num⟩,
        ⟨1000, 1000, 1, "c", by decide, by norm_num⟩]
    (w.sliding.trace calls .absent).map (fun e => e.2.allowed) = [true, false, true] ∧
      ∀ t, (w.units t (w.sliding.trace calls .absent) : ℚ) ≤ w.limit := by
  intro w calls
  have horder : w.InOrder calls := ⟨by simp [calls], by simp [calls], by simp [calls, w]⟩
  exact ⟨by decide +kernel, (sliding_exact horder).2⟩

end WindowLimit

end Distsync
