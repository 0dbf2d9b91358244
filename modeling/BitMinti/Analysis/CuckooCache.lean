import BitMinti.Model.CuckooCache
import Mathlib.Data.List.Induction

/-!
# What the cuckoo cache keeps

An insertion moves elements along a chain of slots.  What is in the table or in the hand stays so
until the chain ends, and an element that is put somewhere is put at one of its places.

SOURCE: src/src/cuckoocache.h:240-318, 397-484
-/

set_option autoImplicit false

namespace BitMinti.Analysis

open Model Model.CuckooCache

variable {Element : Type} {size : ℕ} {c : CuckooCache Element size} {e : Element}

/-! ## Looking for a location -/

theorem findLoc_some {locs : Fin 8 → Fin size} {test : Fin size → Bool} {loc : Fin size}
    (h : findLoc locs test = some loc) : test loc = true ∧ ∃ k, locs k = loc :=
  ⟨List.find?_some h, List.mem_ofFn.mp (List.mem_of_find?_eq_some h)⟩

theorem findLoc_none {locs : Fin 8 → Fin size} {test : Fin size → Bool}
    (h : findLoc locs test = none) (k : Fin 8) : test (locs k) = false :=
  Bool.eq_false_iff.mpr (List.find?_eq_none.mp h _ (List.mem_ofFn.mpr ⟨k, rfl⟩))

/-! ## Ageing -/

theorem epochCheck_table (c : CuckooCache Element size) : c.epochCheck.table = c.table := by
  unfold epochCheck
  dsimp only
  split_ifs <;> rfl

theorem epochCheck_flags {i : Fin size} (h : c.collection_flags i = true) :
    c.epochCheck.collection_flags i = true := by
  unfold epochCheck
  dsimp only
  split_ifs
  · exact h
  · exact Bool.or_eq_true_iff.mpr (.inr h)
  · exact h

section Insertion

variable [NeZero size] {hash_function : Fin 8 → Element → BitVec 32}

/-! ## What is lost -/

variable [DecidableEq Element]

end Insertion

/-! ## The invariant -/

section Invariant

variable [NeZero size] [Inhabited Element]
  {hash_function : Fin 8 → Element → BitVec 32} {inserted : Element → Prop}

variable (hash_function inserted) in
/-- The elements of the table were inserted and are at their places; the other slots may be
overwritten. -/
structure CacheSound (c : CuckooCache Element size) : Prop where
  places : ∀ i, c.table i ≠ default → ∃ k, computeHashes hash_function (c.table i) k = i
  inserted : ∀ i, c.table i ≠ default → inserted (c.table i)
  free : ∀ i, c.table i = default → c.collection_flags i = true

section

variable (h : CacheSound hash_function inserted c)

include h

theorem CacheSound.mono {inserted' : Element → Prop}
    (himp : ∀ x, inserted x → inserted' x) : CacheSound hash_function inserted' c :=
  ⟨h.places, fun i hi => himp _ (h.inserted i hi), h.free⟩

/-- More may be overwritten. -/
theorem CacheSound.of_flags {c' : CuckooCache Element size}
    (htable : c'.table = c.table)
    (hflags : ∀ i, c.collection_flags i = true → c'.collection_flags i = true) :
    CacheSound hash_function inserted c' where
  places i := by
    rw [htable]
    exact h.places i
  inserted i := by
    rw [htable]
    exact h.inserted i
  free i := by
    rw [htable]
    exact fun hi => hflags i (h.free i hi)

/-- An element is put at one of its places, and the flags of the other slots stay. -/
theorem CacheSound.put {c' : CuckooCache Element size}
    (he : e ≠ default) (hin : inserted e) {k : Fin 8}
    (htable : c'.table = Function.update c.table (computeHashes hash_function e k) e)
    (hflags : ∀ i, i ≠ computeHashes hash_function e k →
      c'.collection_flags i = c.collection_flags i) :
    CacheSound hash_function inserted c' := by
  -- In each field the slot itself holds `e`, and the others are as before.
  have hslot (i : Fin size) : (i = computeHashes hash_function e k ∧ c'.table i = e) ∨
      (i ≠ computeHashes hash_function e k ∧ c'.table i = c.table i) := by
    by_cases hi : i = computeHashes hash_function e k
    · exact .inl ⟨hi, by rw [htable, hi, Function.update_self]⟩
    · exact .inr ⟨hi, by rw [htable, Function.update_of_ne hi]⟩
  constructor
  · intro i hne
    obtain ⟨hi, hc⟩ | ⟨-, hc⟩ := hslot i
    · rw [hc]
      exact ⟨k, hi.symm⟩
    · rw [hc] at hne ⊢
      exact h.places i hne
  · intro i hne
    obtain ⟨-, hc⟩ | ⟨-, hc⟩ := hslot i
    · rwa [hc]
    · rw [hc] at hne ⊢
      exact h.inserted i hne
  · intro i hfree
    obtain ⟨-, hc⟩ | ⟨hi, hc⟩ := hslot i
    · exact absurd (hc.symm.trans hfree) he
    · rw [hflags i hi]
      exact h.free i (hc.symm.trans hfree)

theorem CacheSound.insertLoop (he : e ≠ default)
    (hin : inserted e) (depth : ℕ) (last_loc : Option (Fin size)) (last_epoch : Bool) :
    CacheSound hash_function inserted
      (insertLoop hash_function depth e last_loc last_epoch c) := by
  induction depth generalizing c e last_loc last_epoch with
  | zero => exact h
  | succ depth ih =>
    rw [CuckooCache.insertLoop]
    dsimp only
    split
    · rename_i loc hloc
      obtain ⟨-, k, rfl⟩ := findLoc_some hloc
      exact h.put he hin rfl fun i hi => Function.update_of_ne hi _ _
    · rename_i hnone
      -- The slot is not free, so that what it holds is an element to go on with.
      have hslot : c.table (nextLoc (computeHashes hash_function e) last_loc) ≠ default := by
        intro hdefault
        have hflag := h.free _ hdefault
        rw [nextLoc, findLoc_none hnone] at hflag
        cases hflag
      have hput : CacheSound hash_function inserted
          ((c.setTable (nextLoc (computeHashes hash_function e) last_loc) e).setEpoch
            (nextLoc (computeHashes hash_function e) last_loc) last_epoch) :=
        h.put he hin rfl fun i _ => rfl
      exact ih hput hslot (h.inserted _ hslot) _ _

end

variable [DecidableEq Element]

section

variable (h : CacheSound hash_function inserted c)

include h

theorem CacheSound.insert (he : e ≠ default) (hin : inserted e) (depth_limit : ℕ) :
    CacheSound hash_function inserted (insert hash_function depth_limit c e) := by
  have hcheck : CacheSound hash_function inserted c.epochCheck :=
    h.of_flags (epochCheck_table c) fun i => epochCheck_flags
  unfold CuckooCache.insert
  dsimp only
  split
  · rename_i loc hloc
    obtain ⟨hfound, k, rfl⟩ := findLoc_some hloc
    have hsame : c.epochCheck.table (computeHashes hash_function e k) = e := eq_of_beq hfound
    refine hcheck.put (k := k) he hin ?_ fun i hi => Function.update_of_ne hi _ _
    rw [Function.update_eq_self_iff.mpr hsame.symm]
    rfl
  · exact hcheck.insertLoop he hin depth_limit none true

theorem CacheSound.contains (e : Element)
    (erase : Bool) : CacheSound hash_function inserted (contains hash_function c e erase).2 := by
  unfold CuckooCache.contains
  split
  · rename_i loc hloc
    cases erase with
    | false => exact h
    | true =>
      refine h.of_flags rfl fun i hi => ?_
      change Function.update c.collection_flags loc true i = true
      by_cases hloc : i = loc
      · rw [hloc, Function.update_self]
      · rwa [Function.update_of_ne hloc]
  · exact h

theorem CacheSound.call {x : Call Element}
    (hx : x.element ≠ default) (hin : ∀ e, x = .insert e → inserted e) (depth_limit : ℕ) :
    CacheSound hash_function inserted (call hash_function depth_limit c x) := by
  cases x with
  | insert e => exact h.insert hx (hin e rfl) depth_limit
  | contains e erase => exact h.contains e erase

end

end Invariant

end BitMinti.Analysis
