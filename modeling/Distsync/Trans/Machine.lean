import Mathlib.Data.List.Induction
import Mathlib.Order.Basic
import Mathlib.Tactic.Common

/-!
# Distsync.Trans.Machine

Machines that answer: each input moves the state and yields an answer.  A
script that is executed over and over on one key is one.

A run is the list of its inputs, paired by `trace` with their answers, of which
an observer may see only a part (`observe`).  Two machines look alike when some
relation between their states is kept by every input (`simulate`); and inputs
that leave no mark can be left out of a run (`observe_omits`).
-/

namespace Trans

/-- What an input does to a state, and the answer to it. -/
abbrev Machine (σ ι ο : Type*) := ι → σ → σ × ο

namespace Machine

variable (M : Machine σ ι ο)

/-- The state after a list of inputs. -/
def final : List ι → σ → σ
  | [], s => s
  | i :: is, s => final is (M i s).1

/-- The inputs of a run with their answers. -/
def trace : List ι → σ → List (ι × ο)
  | [], _ => []
  | i :: is, s => (i, (M i s).2) :: trace is (M i s).1

/-- `P` holds of every input of a run and the state that it finds. -/
def Along (P : ι → σ → Prop) : List ι → σ → Prop
  | [], _ => True
  | i :: is, s => P i s ∧ Along P is (M i s).1

@[simp] theorem final_nil (s : σ) : M.final [] s = s := rfl

@[simp] theorem trace_nil (s : σ) : M.trace [] s = [] := rfl

theorem final_append (is js : List ι) (s : σ) :
    M.final (is ++ js) s = M.final js (M.final is s) := by
  induction is generalizing s with
  | nil => rfl
  | cons i is ih => exact ih (M i s).1

/-- The states of a run do not depend on the answers. -/
theorem final_congr {M : Machine σ ι ο} {N : Machine σ ι ο'} (h : ∀ i s, (M i s).1 = (N i s).1)
    (is : List ι) (s : σ) : M.final is s = N.final is s := by
  induction is generalizing s with
  | nil => rfl
  | cons i is ih => rw [final, final, h, ih]

theorem trace_append (is js : List ι) (s : σ) :
    M.trace (is ++ js) s = M.trace is s ++ M.trace js (M.final is s) := by
  induction is generalizing s with
  | nil => rfl
  | cons i is ih => exact congrArg ((i, (M i s).2) :: ·) (ih (M i s).1)

theorem along_append {P : ι → σ → Prop} (is js : List ι) (s : σ) :
    M.Along P (is ++ js) s ↔ M.Along P is s ∧ M.Along P js (M.final is s) := by
  induction is generalizing s with
  | nil => exact (true_and _).to_iff.symm
  | cons i is ih => exact (and_congr_right' (ih (M i s).1)).trans and_assoc.symm

/-- Along a run that keeps an invariant, conditions that agree under the
invariant agree. -/
theorem along_congr {I : σ → Prop} {P Q : ι → σ → Prop} (hstep : ∀ i s, I s → I (M i s).1)
    (hiff : ∀ i s, I s → (P i s ↔ Q i s)) (hs : I s) (is : List ι) :
    M.Along P is s ↔ M.Along Q is s := by
  induction is generalizing s with
  | nil => exact Iff.rfl
  | cons i is ih => exact and_congr (hiff i s hs) (ih (hstep i s hs))

@[simp] theorem map_fst_trace (is : List ι) (s : σ) : (M.trace is s).map Prod.fst = is := by
  induction is generalizing s with
  | nil => rfl
  | cons i is ih => exact congrArg (i :: ·) (ih (M i s).1)

theorem mem_of_mem_trace {is : List ι} (h : e ∈ M.trace is s) : e.1 ∈ is := by
  rw [← M.map_fst_trace is s]
  exact List.mem_map_of_mem h

/-- A part of a run is the run of a part, from where that part begins. -/
theorem trace_extract (is : List ι) (s : σ) (m n : Nat) :
    ((M.trace is s).drop m).take n = M.trace ((is.drop m).take n) (M.final (is.take m) s) := by
  induction is generalizing s m n with
  | nil => simp
  | cons i is ih =>
      cases m with
      | succ m => exact ih (M i s).1 m n
      | zero =>
          cases n with
          | zero => rfl
          | succ n => exact congrArg ((i, (M i s).2) :: ·) (ih (M i s).1 0 n)

/-- An input is answered in the state that the inputs before it lead to. -/
theorem trace_getElem? (is : List ι) (s : σ) (n : Nat) :
    (M.trace is s)[n]? = is[n]?.map fun i => (i, (M i (M.final (is.take n) s)).2) := by
  induction is generalizing s n with
  | nil => rfl
  | cons i is ih =>
      cases n with
      | zero => rfl
      | succ n => exact ih (M i s).1 n

/-- What holds of the empty history, and is kept by every input that satisfies
`P`, holds of the history of every run of such inputs. -/
theorem trace_invariant {I : List (ι × ο) → σ → Prop} {P : ι → Prop} (hinit : I [] s)
    (hstep : ∀ h s i, I h s → P i → I (h ++ [(i, (M i s).2)]) (M i s).1) {is : List ι}
    (hP : ∀ i ∈ is, P i) : I (M.trace is s) (M.final is s) := by
  induction is using List.reverseRecOn with
  | nil => exact hinit
  | append_singleton is i ih =>
      rw [trace_append, final_append]
      exact hstep _ _ i (ih fun j hj => hP j (by simp [hj])) (hP i (by simp))

/-! ## What is seen of a run -/

/-- The inputs of a run with what is seen of their answers. -/
def observe (f : ο → α) (is : List ι) (s : σ) : List (ι × α) :=
  (M.trace is s).map fun e => (e.1, f e.2)

@[simp] theorem observe_nil (f : ο → α) (s : σ) : M.observe f [] s = [] := rfl

@[simp] theorem observe_cons (f : ο → α) (i : ι) (is : List ι) (s : σ) :
    M.observe f (i :: is) s = (i, f (M i s).2) :: M.observe f is (M i s).1 := rfl

theorem map_snd_observe (f : ο → α) (is : List ι) (s : σ) :
    (M.observe f is s).map Prod.snd = (M.trace is s).map fun e => f e.2 := by
  simp [observe]

variable {M : Machine σ ι ο} {M' : Machine τ ι ο'} {f : ο → α} {g : ο' → α}

/-- **Simulation**: a relation that every input keeps, and under which the
answers look the same, makes whole runs look the same. -/
theorem simulate {R : σ → τ → Prop}
    (h : ∀ i s t, R s t → R (M i s).1 (M' i t).1 ∧ f (M i s).2 = g (M' i t).2)
    (hst : R s t) (is : List ι) :
    R (M.final is s) (M'.final is t) ∧ M.observe f is s = M'.observe g is t := by
  induction is generalizing s t with
  | nil => exact ⟨hst, rfl⟩
  | cons i is ih =>
      obtain ⟨hnext, hans⟩ := h i s t hst
      obtain ⟨hfinal, hobs⟩ := ih hnext
      exact ⟨hfinal, by simp [hans, hobs]⟩

section Ordered

variable [LE κ] {key : ι → κ}

/-- **Simulation in order**: of inputs in the order of their keys, the relation
may depend on the key of the last one. -/
theorem simulate_ordered {R : κ → σ → τ → Prop} {P : ι → Prop}
    (h : ∀ k i s t, R k s t → k ≤ key i → P i →
      R (key i) (M i s).1 (M' i t).1 ∧ f (M i s).2 = g (M' i t).2)
    (hst : R k s t) {is : List ι} (hle : ∀ i ∈ is, k ≤ key i)
    (hord : is.Pairwise fun i j => key i ≤ key j) (hP : ∀ i ∈ is, P i) :
    M.observe f is s = M'.observe g is t := by
  induction is generalizing k s t with
  | nil => rfl
  | cons i is ih =>
      obtain ⟨hi, his⟩ := List.pairwise_cons.mp hord
      obtain ⟨hPi, hPis⟩ := List.forall_mem_cons.mp hP
      obtain ⟨hnext, hans⟩ := h k i s t hst (hle i List.mem_cons_self) hPi
      simp [hans, ih hnext hi his hPis]

/-- **Invariant in order**: what every input keeps, of inputs in the order of
their keys, holds when the next one comes. -/
theorem final_ordered {I : κ → σ → Prop}
    (h : ∀ k i s, I k s → k ≤ key i → I (key i) (M i s).1) (hs : I k s) {is : List ι} {j : ι}
    (hle : ∀ i ∈ is ++ [j], k ≤ key i)
    (hord : (is ++ [j]).Pairwise fun i j => key i ≤ key j) :
    ∃ k, k ≤ key j ∧ I k (M.final is s) := by
  induction is generalizing k s with
  | nil => exact ⟨k, hle j List.mem_cons_self, hs⟩
  | cons i is ih =>
      obtain ⟨hi, his⟩ := List.pairwise_cons.mp hord
      exact ih (h k i s hs (hle i List.mem_cons_self)) hi his

/-- `l'` is `l` without some of the elements that satisfy `P`. -/
inductive Omits (P : α → Prop) : List α → List α → Prop
  | nil : Omits P [] []
  | keep (a : α) (h : Omits P l l') : Omits P (a :: l) (a :: l')
  | drop (ha : P a) (h : Omits P l l') : Omits P (a :: l) l'

/-- **Omission**: inputs whose answers satisfy `D` can be left out of a run if
the states with and without them stay related, and related states answer
alike. -/
theorem observe_omits {R : κ → σ → σ → Prop} {D : α → Prop}
    (hkeep : ∀ k i s t, R k s t → k ≤ key i →
      R (key i) (M i s).1 (M i t).1 ∧ f (M i s).2 = f (M i t).2)
    (hdrop : ∀ k i s t, R k s t → k ≤ key i → D (f (M i s).2) → R (key i) (M i s).1 t)
    (hst : R k s t) {is : List ι} (hle : ∀ i ∈ is, k ≤ key i)
    (hord : is.Pairwise fun i j => key i ≤ key j)
    (homits : Omits (fun e => D e.2) (M.observe f is s) kept) :
    M.observe f (kept.map Prod.fst) t = kept := by
  induction is generalizing k s t kept with
  | nil =>
      cases homits
      rfl
  | cons i is ih =>
      obtain ⟨hi, his⟩ := List.pairwise_cons.mp hord
      have hki := hle i List.mem_cons_self
      rw [observe_cons] at homits
      cases homits with
      | keep _ hrest =>
          obtain ⟨hnext, hans⟩ := hkeep k i s t hst hki
          simp [hans, ih hnext hi his hrest]
      | drop hD hrest => exact ih (hdrop k i s t hst hki hD) hi his hrest

end Ordered

/-- Inputs in the order of their keys come no earlier than some key. -/
theorem exists_le_of_ordered [Preorder κ] [Inhabited κ] {key : ι → κ} {is : List ι}
    (hord : is.Pairwise fun i j => key i ≤ key j) : ∃ k, ∀ i ∈ is, k ≤ key i := by
  cases is with
  | nil => exact ⟨default, by simp⟩
  | cons i is =>
      refine ⟨key i, List.forall_mem_cons.mpr ⟨le_refl _, ?_⟩⟩
      exact (List.pairwise_cons.mp hord).1

end Machine

end Trans
