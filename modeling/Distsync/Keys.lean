import Distsync.Redis.Cluster
import Distsync.Redis.Member
import Mathlib.Data.Set.Insert
import Std.Data.String.ToInt

/-!
# Distsync.Keys

The Redis keys of a resource: `redisx.Key` makes a key of a resource name, and
every primitive works on that key or on keys *derived* from it with a suffix.
Names are arbitrary byte strings.

Two things are expected of the layout: all keys of one resource share a
cluster slot, and the keys of two resources never meet.  Both fail for names
that already carry braces, because `Key` passes those through when it finds
the two braces anywhere, in any order and with anything between them.
`sameSlot_iff` and `disjoint_keys_iff` say for which names they hold.
-/

namespace Distsync

open Redis.Cluster

/-- `:`, which separates a key from a suffix. -/
def colon : UInt8 := 58

/-- The bytes of a string of ASCII characters. -/
def ascii (s : String) : List UInt8 := s.toList.map Char.toUInt8

/-- `redisx.Key`: wrap the name in braces unless it already has both. -/
def key (name : List UInt8) : List UInt8 :=
  if openBrace ∈ name ∧ closeBrace ∈ name then name else openBrace :: name ++ [closeBrace]

/-- `redisx.Derived`. -/
def derived (primary suffix : List UInt8) : List UInt8 := primary ++ colon :: suffix

/-- `RateLimiter.fixedWindowKey`, for the window of a given index. -/
def fixedWindowKey (primary : List UInt8) (index : Int) : List UInt8 :=
  primary ++ ascii ":" ++ ascii (toString index)

/-- What can be opened on a resource name. -/
inductive Primitive where
  | mutex
  | leader
  | rwMutex
  | semaphore
  | tokenBucket
  | leakyBucket
  | slidingWindow
  | fixedWindow
deriving DecidableEq

namespace Primitive

/-- The keys that a primitive opened on `name` works on. -/
def keys (p : Primitive) (name : List UInt8) : Set (List UInt8) :=
  match p with
  | mutex | leader => {key name, derived (key name) (ascii "fencing")}
  | rwMutex =>
      { derived (key name) (ascii "writer"), derived (key name) (ascii "readers"),
        derived (key name) (ascii "fencing"), derived (key name) (ascii "waiters"),
        derived (key name) (ascii "waiter-ts"), derived (key name) (ascii "seq") }
  | semaphore | tokenBucket | leakyBucket | slidingWindow => {key name}
  | fixedWindow => {k | ∃ index, k = fixedWindowKey (key name) index}

/-- The primitive works on the key of the name itself. -/
def usesKey : Primitive → Bool
  | rwMutex | fixedWindow => false
  | mutex | leader | semaphore | tokenBucket | leakyBucket | slidingWindow => true

/-- The suffixes that a primitive appends. -/
def suffixes : Primitive → Set (List UInt8)
  | mutex | leader => {ascii "fencing"}
  | rwMutex =>
      {ascii "writer", ascii "readers", ascii "fencing", ascii "waiters", ascii "waiter-ts",
        ascii "seq"}
  | semaphore | tokenBucket | leakyBucket | slidingWindow => ∅
  | fixedWindow => {s | ∃ index : Int, s = ascii (toString index)}

theorem mem_keys {p : Primitive} {name k : List UInt8} :
    k ∈ p.keys name ↔
      (p.usesKey = true ∧ k = key name) ∨ ∃ s ∈ p.suffixes, k = derived (key name) s := by
  have hwindow (index : Int) :
      fixedWindowKey (key name) index = derived (key name) (ascii (toString index)) := by
    rw [fixedWindowKey, derived, List.append_assoc]
    rfl
  cases p <;> simp [keys, usesKey, suffixes, hwindow]

end Primitive

/-! ## Suffixes hold no separator and no brace -/

/-- A byte that a suffix may hold. -/
def Plain (b : UInt8) : Prop := b ≠ colon ∧ b ≠ openBrace ∧ b ≠ closeBrace

instance : DecidablePred Plain := fun b => by unfold Plain; infer_instance

theorem plain_of_isDigit {c : Char} (h : c.isDigit = true) : Plain c.toUInt8 := by
  have hle : c.toUInt8.toNat ≤ 57 := by
    simp only [Char.isDigit, Bool.and_eq_true, decide_eq_true_eq] at h
    have hval : c.val.toNat ≤ 57 := h.2
    rw [Char.toUInt8, UInt32.toNat_toUInt8]
    omega
  refine ⟨?_, ?_, ?_⟩ <;> intro he <;> rw [he] at hle <;> exact absurd hle (by decide)

/-- Window indices are written with digits and a sign. -/
theorem isDigit_of_mem_toString {index : Int} (h : c ∈ (toString index).toList) :
    c.isDigit = true ∨ c = '-' := by
  have hnat {n : Nat} (h : c ∈ (toString n).toList) : c.isDigit = true := by
    rw [Nat.toString_eq_ofList_toDigits, String.toList_ofList] at h
    exact Nat.isDigit_of_mem_toDigits (by decide) (by decide) h
  cases index with
  | ofNat n => exact .inl (hnat h)
  | negSucc n =>
      rw [show toString (Int.negSucc n) = "-" ++ toString (n + 1) from rfl,
        String.toList_append, List.mem_append] at h
      rcases h with h | h
      · exact .inr (by simpa using h)
      · exact .inl (hnat h)

theorem plain_ascii_toString (index : Int) : ∀ b ∈ ascii (toString index), Plain b := by
  intro b hb
  obtain ⟨c, hc, rfl⟩ := List.mem_map.mp hb
  rcases isDigit_of_mem_toString hc with hdigit | rfl
  · exact plain_of_isDigit hdigit
  · decide

/-- Window indices can be read back from their bytes. -/
theorem ascii_toString_injective {i j : Int} (h : ascii (toString i) = ascii (toString j)) :
    i = j := by
  have hback {c : Char} (hc : c.isDigit = true ∨ c = '-') : Char.ofUInt8 c.toUInt8 = c := by
    have hlt : c.val.toNat < 256 := by
      rcases hc with hc | rfl
      · simp only [Char.isDigit, Bool.and_eq_true, decide_eq_true_eq] at hc
        have hval : c.val.toNat ≤ 57 := hc.2
        omega
      · decide
    apply Char.ext
    apply UInt32.toNat_inj.mp
    show c.val.toUInt8.toUInt32.toNat = c.val.toNat
    rw [UInt8.toNat_toUInt32, UInt32.toNat_toUInt8]
    exact Nat.mod_eq_of_lt hlt
  have hchars (i : Int) : (ascii (toString i)).map Char.ofUInt8 = (toString i).toList := by
    rw [ascii, List.map_map]
    exact (List.map_congr_left fun c hc => hback (isDigit_of_mem_toString hc)).trans (List.map_id _)
  exact Int.repr_injective (String.toList_inj.mp ((hchars i).symm.trans (h ▸ hchars j)))

theorem fixedWindowKey_inj {primary : List UInt8} :
    fixedWindowKey primary i = fixedWindowKey primary j ↔ i = j := by
  constructor
  · intro h
    exact ascii_toString_injective (List.append_cancel_left h)
  · rintro rfl
    rfl

theorem plain_of_all {s : List UInt8} (h : s.all (fun b => Plain b) = true) : ∀ b ∈ s, Plain b :=
  fun b hb => of_decide_eq_true (List.all_eq_true.mp h b hb)

theorem Primitive.plain_of_mem_suffixes {p : Primitive} (h : s ∈ p.suffixes) :
    ∀ b ∈ s, Plain b := by
  cases p with
  | mutex | leader =>
      rw [Set.mem_singleton_iff.mp h]
      exact plain_of_all (by decide)
  | rwMutex =>
      simp only [suffixes, Set.mem_insert_iff, Set.mem_singleton_iff] at h
      rcases h with rfl | rfl | rfl | rfl | rfl | rfl <;> exact plain_of_all (by decide)
  | semaphore | tokenBucket | leakyBucket | slidingWindow => exact absurd h (Set.notMem_empty s)
  | fixedWindow =>
      obtain ⟨index, rfl⟩ := h
      exact plain_ascii_toString index

/-! ## Cluster slots -/

/-- All keys that a primitive may open on the name are in one slot. -/
def SameSlot (name : List UInt8) : Prop :=
  ∀ p : Primitive, ∀ k ∈ p.keys name, keySlot k = keySlot (key name)

/-- The name gives its keys a hash tag: with both braces in it, by a `}` that
follows the first `{` at a distance; else by what stands before its first
`}`. -/
def Taggable (name : List UInt8) : Prop :=
  if openBrace ∈ name ∧ closeBrace ∈ name then
    ∃ pre tag post, name = pre ++ openBrace :: (tag ++ closeBrace :: post) ∧ openBrace ∉ pre ∧
      closeBrace ∉ tag ∧ tag ≠ []
  else
    name ≠ [] ∧ name.head? ≠ some closeBrace

/-- What `Key` has wrapped is tagged unless nothing stands before the first
closing brace. -/
theorem hashTag_wrapped_eq_none_iff (name : List UInt8) :
    hashTag (openBrace :: name ++ [closeBrace]) = none ↔
      name = [] ∨ name.head? = some closeBrace := by
  cases name with
  | nil => simp only [List.cons_append, List.nil_append, true_or, iff_true]; decide
  | cons b name =>
      by_cases hb : b = closeBrace
      · subst hb
        have hclosed :
            hashTag ([] ++ openBrace :: ([] ++ closeBrace :: (name ++ [closeBrace]))) = none :=
          hashTag_closed List.not_mem_nil List.not_mem_nil
        simpa using hclosed
      · have hmem : closeBrace ∈ name ++ [closeBrace] := by simp
        obtain ⟨tag, post, heq, htag⟩ := List.eq_append_cons_of_mem hmem
        have hsome : hashTag (openBrace :: (b :: name) ++ [closeBrace]) = some (b :: tag) :=
          hashTag_eq_some_iff.mpr
            ⟨[], post, by simp [heq], List.not_mem_nil, by simp [htag, Ne.symm hb], by simp⟩
        rw [hsome]
        simp [hb]

/-- A name is taggable exactly when its key has a tag. -/
theorem taggable_iff (name : List UInt8) : Taggable name ↔ hashTag (key name) ≠ none := by
  rw [Taggable, key]
  split
  · simp only [Option.ne_none_iff_exists', hashTag_eq_some_iff]
    constructor
    · rintro ⟨pre, tag, post, h⟩
      exact ⟨tag, pre, post, h⟩
    · rintro ⟨tag, pre, post, h⟩
      exact ⟨pre, tag, post, h⟩
  · rw [ne_eq, ne_eq, ne_eq, hashTag_wrapped_eq_none_iff, not_or]

/-- Derived keys of a tagged key share its slot, whatever the suffix. -/
theorem keySlot_derived (h : hashTag primary ≠ none) (suffix : List UInt8) :
    keySlot (derived primary suffix) = keySlot primary := by
  obtain ⟨tag, htag⟩ := Option.ne_none_iff_exists'.mp h
  rw [keySlot, keySlot, derived, hashTag_append htag, htag]
  rfl

/-- The keys of the fixed windows 0 and 1 of an untagged key are in different
slots. -/
theorem keySlot_fixedWindowKey_ne (h : hashTag primary = none) :
    keySlot (fixedWindowKey primary 0) ≠ keySlot (fixedWindowKey primary 1) := by
  have hone (b : UInt8) (hb : openBrace ∉ [colon, b]) (hb' : closeBrace ∉ [colon, b]) :
      hashTag (primary ++ [colon] ++ [b]) = none := by
    rw [List.append_assoc]
    exact hashTag_append_of_none h hb hb'
  exact keySlot_concat_ne (hone 48 (by decide) (by decide)) (hone 49 (by decide) (by decide))
    (by decide)

/-- **Cluster safety**: all keys of a resource are in one slot exactly when
its name is taggable. -/
theorem sameSlot_iff (name : List UInt8) : SameSlot name ↔ Taggable name := by
  rw [taggable_iff]
  constructor
  · intro h hnone
    have hzero := h .fixedWindow (fixedWindowKey (key name) 0) ⟨0, rfl⟩
    have hone := h .fixedWindow (fixedWindowKey (key name) 1) ⟨1, rfl⟩
    exact keySlot_fixedWindowKey_ne hnone (hzero.trans hone.symm)
  · intro htag p k hk
    rcases Primitive.mem_keys.mp hk with ⟨-, rfl⟩ | ⟨s, -, rfl⟩
    · rfl
    · exact keySlot_derived htag s

/-- The name `}{` has both braces, so it is used as it stands, and no tag: a
mutex of that name has its lock and its counter in different slots. -/
theorem not_sameSlot_reversed_braces :
    ascii "\x7d\x7b:fencing" ∈ Primitive.mutex.keys (ascii "\x7d\x7b") ∧
      ascii "\x7d\x7b" ∈ Primitive.mutex.keys (ascii "\x7d\x7b") ∧
      keySlot (ascii "\x7d\x7b:fencing") ≠ keySlot (ascii "\x7d\x7b") ∧ ¬SameSlot (ascii "\x7d\x7b") := by
  have hkey : key (ascii "\x7d\x7b") = ascii "\x7d\x7b" := by decide
  have hfencing : ascii "\x7d\x7b:fencing" ∈ Primitive.mutex.keys (ascii "\x7d\x7b") :=
    .inr (show ascii "\x7d\x7b:fencing" = derived (key (ascii "\x7d\x7b")) (ascii "fencing") by decide)
  have hslot : keySlot (ascii "\x7d\x7b:fencing") ≠ keySlot (ascii "\x7d\x7b") := by decide +kernel
  refine ⟨hfencing, .inl hkey.symm, hslot, fun h => hslot ?_⟩
  rw [h .mutex _ hfencing, hkey]

/-! ## Independence of resources -/

theorem openBrace_mem_key (name : List UInt8) : openBrace ∈ key name := by
  rw [key]
  split
  · next h => exact h.1
  · simp

theorem closeBrace_mem_key (name : List UInt8) : closeBrace ∈ key name := by
  rw [key]
  split
  · next h => exact h.2
  · simp

/-- A derived key passes through `Key`. -/
theorem key_derived_key (name suffix : List UInt8) :
    key (derived (key name) suffix) = derived (key name) suffix :=
  if_pos ⟨List.mem_append_left _ (openBrace_mem_key name),
    List.mem_append_left _ (closeBrace_mem_key name)⟩

/-- What `Key` has wrapped is no derived key: it ends with a brace. -/
theorem eq_of_key_eq_derived (hs : ∀ b ∈ s, Plain b) (h : key name = derived k s) :
    name = derived k s := by
  rw [key] at h
  split at h
  · exact h
  · have hlast : (colon :: s).getLast? = some closeBrace := by
      have hends := congrArg List.getLast? h
      rw [derived, List.getLast?_concat, List.getLast?_append_of_ne_nil _ (by simp)] at hends
      exact hends.symm
    rcases List.mem_cons.mp (List.mem_of_getLast? hlast) with he | hmem
    · exact absurd he (by decide)
    · exact absurd rfl (hs _ hmem).2.2

/-- The last separator of a derived key is the one before the suffix. -/
theorem derived_inj (hs : ∀ b ∈ s, Plain b) (hs' : ∀ b ∈ s', Plain b)
    (h : derived k s = derived k' s') : k = k' ∧ s = s' :=
  Redis.append_cons_inj_of_notMem_right (fun hmem => (hs _ hmem).1 rfl)
    (fun hmem => (hs' _ hmem).1 rfl) h

namespace Primitive

/-- `p` works on the key of `n` itself, and `n` is, as it stands, one of the
keys that `q` derives from `m`. -/
def Overlays (p : Primitive) (n : List UInt8) (q : Primitive) (m : List UInt8) : Prop :=
  p.usesKey = true ∧ ∃ s ∈ q.suffixes, n = derived (key m) s

/-- An overlaid key is a key of both. -/
theorem Overlays.not_disjoint {p q : Primitive} (h : p.Overlays n q m) :
    ∃ k, k ∈ p.keys n ∧ k ∈ q.keys m := by
  obtain ⟨huse, s, hs, rfl⟩ := h
  exact ⟨_, mem_keys.mpr (.inl ⟨huse, (key_derived_key m s).symm⟩), mem_keys.mpr (.inr ⟨s, hs, rfl⟩)⟩

/-- **Independence of resources**: the keys of primitives on two names are
disjoint exactly when neither name is one of the other's derived keys, used as
a key of its own. -/
theorem disjoint_keys_iff {n m : List UInt8} (hne : key n ≠ key m) (p q : Primitive) :
    p.keys n ∩ q.keys m = ∅ ↔ ¬p.Overlays n q m ∧ ¬q.Overlays m p n := by
  rw [Set.eq_empty_iff_forall_notMem]
  constructor
  · intro h
    constructor
    · intro hover
      obtain ⟨k, hk, hk'⟩ := hover.not_disjoint
      exact h k ⟨hk, hk'⟩
    · intro hover
      obtain ⟨k, hk', hk⟩ := hover.not_disjoint
      exact h k ⟨hk, hk'⟩
  · rintro ⟨hnm, hmn⟩ k ⟨hk, hk'⟩
    rcases mem_keys.mp hk with ⟨huse, rfl⟩ | ⟨s, hs, rfl⟩
    · rcases mem_keys.mp hk' with ⟨-, heq⟩ | ⟨s', hs', heq⟩
      · exact hne heq
      · exact hnm ⟨huse, s', hs', eq_of_key_eq_derived (plain_of_mem_suffixes hs') heq⟩
    · rcases mem_keys.mp hk' with ⟨huse', heq⟩ | ⟨s', hs', heq⟩
      · exact hmn ⟨huse', s, hs, eq_of_key_eq_derived (plain_of_mem_suffixes hs) heq.symm⟩
      · exact hne (derived_inj (plain_of_mem_suffixes hs) (plain_of_mem_suffixes hs') heq).1

/-- A mutex and a read-write lock on plain names. -/
theorem disjoint_keys_iff_plain :
    mutex.keys (ascii "a") ∩ rwMutex.keys (ascii "b") = ∅ := by
  refine (disjoint_keys_iff (by decide) mutex rwMutex).mpr ⟨?_, fun h => ?_⟩
  · rintro ⟨-, s, hs, heq⟩
    have hmem : openBrace ∈ ascii "a" := by
      rw [heq]
      exact List.mem_append_left _ (openBrace_mem_key _)
    exact absurd hmem (by decide)
  · exact absurd h.1 (by decide)

/-- The counter of the mutex `a` is the lock of the mutex `{a}:fencing`. -/
theorem mutex_overlays_counter :
    key (ascii "\x7ba\x7d:fencing") ≠ key (ascii "a") ∧
      ascii "\x7ba\x7d:fencing" ∈ mutex.keys (ascii "\x7ba\x7d:fencing") ∧
      ascii "\x7ba\x7d:fencing" ∈ mutex.keys (ascii "a") :=
  ⟨by decide, .inl (show _ = _ by decide), .inr (show _ = _ by decide)⟩

end Primitive

end Distsync
