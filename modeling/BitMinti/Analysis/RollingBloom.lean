import BitMinti.Model.RollingBloom
import Mathlib.Tactic.IntervalCases

/-!
# What the rolling bloom filter remembers

The two bits of a position are read as one stamp.  The stamps of the keys of the present generation
are of that generation, those of the one before are not older than that, and those of the one
before that are still there.  A wiped generation is the oldest, so it takes none of them away.

SOURCE: src/src/common/bloom.cpp:162-238
-/

set_option autoImplicit false

namespace BitMinti.Analysis

open Model Model.CRollingBloomFilter

/-! ## Stamps -/

/-- The two bits at a place of two words. -/
def stampOf (p : BitVec 64 × BitVec 64) (bit : ℕ) : Bool × Bool :=
  (p.1.getLsbD bit, p.2.getLsbD bit)

/-- The stamp of a generation. -/
def generationStamp (g : ℕ) : Bool × Bool := (decide (g % 2 = 1), decide (g / 2 = 1))

/-- The stamp for a hash. -/
def stampAt (data : List (BitVec 64 × BitVec 64)) (h : BitVec 32) : Bool × Bool :=
  (data[wordsAt h data]?.map fun p => stampOf p (h.toNat % 64)).getD (false, false)

theorem wordsAt_congr {data data' : List (BitVec 64 × BitVec 64)} {h : BitVec 32}
    (hlen : data'.length = data.length) : wordsAt h data' = wordsAt h data := by
  rw [wordsAt, hlen, wordsAt]

theorem getLsbD_putBit (word : BitVec 64) {bit v i : ℕ} (hbit : bit < 64) (hv : v < 2) :
    (putBit word bit v).getLsbD i = if i = bit then decide (v = 1) else word.getLsbD i := by
  have hone : ∀ k, (1#64).getLsbD k = decide (k = 0) := fun k => by
    cases k <;> simp [BitVec.getLsbD_one]
  interval_cases v
  all_goals
    simp only [putBit, BitVec.getLsbD_or, BitVec.getLsbD_and, BitVec.getLsbD_not,
      BitVec.getLsbD_shiftLeft, hone]
    by_cases hi : i = bit
    · simp [hi, hbit]
    · have hlt : i < bit ∨ i - bit ≠ 0 := by omega
      rcases lt_or_ge i 64 with h64 | h64
      · rcases hlt with hlt | hlt <;> simp [hi, h64, hlt]
      · simp [hi, h64.not_gt, BitVec.getLsbD_of_ge word i h64]

section

variable {g : ℕ} (hg : g = 1 ∨ g = 2 ∨ g = 3)

include hg

theorem stampOf_wipe (p : BitVec 64 × BitVec 64) {i : ℕ} (hi : i < 64) : stampOf (wipe g p) i =
    if stampOf p i = generationStamp g then (false, false) else stampOf p i := by
  have hmask : ∀ v, v < 2 → (0 - BitVec.ofNat 64 v).getLsbD i = decide (v = 1) := by
    intro v hv
    interval_cases v
    · simp
    · have hones : (0 - BitVec.ofNat 64 1) = BitVec.allOnes 64 := by decide
      rw [hones, BitVec.getLsbD_allOnes]
      simpa using hi
  unfold stampOf wipe generationStamp
  simp only [BitVec.getLsbD_and, BitVec.getLsbD_or, BitVec.getLsbD_xor,
    hmask (g % 2) (by omega), hmask (g / 2) (by omega)]
  generalize p.1.getLsbD i = a
  generalize p.2.getLsbD i = b
  rcases hg with rfl | rfl | rfl <;> revert a b <;> decide

theorem stampAt_wipe (data : List (BitVec 64 × BitVec 64)) (h : BitVec 32) :
    stampAt (data.map (wipe g)) h =
      if stampAt data h = generationStamp g then (false, false) else stampAt data h := by
  rw [stampAt, stampAt, wordsAt_congr (List.length_map _), List.getElem?_map]
  cases data[wordsAt h data]? with
  | none => exact (ite_self _).symm
  | some p => exact stampOf_wipe hg p (Nat.mod_lt _ (by decide))

end

/-! ## One insertion -/

/-- What marking does to the stamps. -/
structure Marked (g : ℕ) (data data' : List (BitVec 64 × BitVec 64)) : Prop where
  length : data'.length = data.length
  stamps : ∀ h, stampAt data' h = generationStamp g ∨ stampAt data' h = stampAt data h

variable {data : List (BitVec 64 × BitVec 64)}

theorem wordsAt_lt (hdata : data ≠ []) (h : BitVec 32) :
    wordsAt h data < data.length := by
  have hlt := fastRange32_lt h (n := 2 * data.length)
    (Nat.mul_pos two_pos (List.length_pos_of_ne_nil hdata))
  unfold wordsAt
  omega

theorem mark_marked {g : ℕ} (hg : g < 4) (hdata : data ≠ []) (h : BitVec 32) :
    ∃ data', mark g data h = some data' ∧ Marked g data data' ∧
      stampAt data' h = generationStamp g := by
  have hlt := wordsAt_lt hdata h
  obtain ⟨p, hp⟩ : ∃ p, data[wordsAt h data]? = some p := ⟨_, List.getElem?_eq_getElem hlt⟩
  obtain ⟨p', hnew⟩ : ∃ p',
      (putBit p.1 (h.toNat % 64) (g % 2), putBit p.2 (h.toNat % 64) (g / 2)) = p' := ⟨_, rfl⟩
  refine ⟨data.set (wordsAt h data) p', by rw [mark, hp, ← hnew]; rfl, ?_⟩
  have hstamp : ∀ i, stampOf p' i =
      if i = h.toNat % 64 then generationStamp g else stampOf p i := by
    intro i
    have hbit : h.toNat % 64 < 64 := Nat.mod_lt _ (by decide)
    rw [← hnew, stampOf, getLsbD_putBit _ hbit (by omega), getLsbD_putBit _ hbit (by omega)]
    split_ifs <;> rfl
  refine ⟨⟨List.length_set, fun h' => ?_⟩, ?_⟩
  · rw [stampAt, stampAt, wordsAt_congr List.length_set]
    by_cases hsame : wordsAt h data = wordsAt h' data
    · rw [← hsame, List.getElem?_set_self hlt, hp, Option.map_some, Option.map_some,
        Option.getD_some, Option.getD_some, hstamp]
      split_ifs
      · exact .inl rfl
      · exact .inr rfl
    · exact .inr (by rw [List.getElem?_set_ne hsame])
  · rw [stampAt, wordsAt_congr List.length_set, List.getElem?_set_self hlt, Option.map_some,
      Option.getD_some, hstamp, if_pos rfl]

theorem marks_marked {g : ℕ} (hg : g < 4) (hs : List (BitVec 32)) (hdata : data ≠ []) :
    ∃ data', hs.foldlM (mark g) data = some data' ∧ Marked g data data' ∧
      ∀ h ∈ hs, stampAt data' h = generationStamp g := by
  induction hs generalizing data with
  | nil => exact ⟨data, rfl, ⟨rfl, fun _ => .inr rfl⟩, fun _ hmem => absurd hmem List.not_mem_nil⟩
  | cons h hs ih =>
    obtain ⟨data₁, hmark, M, hfirst⟩ := mark_marked hg hdata h
    have hdata₁ : data₁ ≠ [] := by
      rw [← List.length_pos_iff, M.length]
      exact List.length_pos_of_ne_nil hdata
    obtain ⟨data₂, hrest, N, hstamps⟩ := ih hdata₁
    refine ⟨data₂, by rw [List.foldlM_cons, hmark]; exact hrest,
      ⟨N.length.trans M.length, fun h' => ?_⟩, List.forall_mem_cons.mpr ⟨?_, hstamps⟩⟩
    · rcases N.stamps h' with hnew | hold
      · exact .inl hnew
      · rw [hold]
        exact M.stamps h'
    · exact (N.stamps h).elim id fun hold => hold.trans hfirst

/-! ## All insertions -/

/-- The generation before one. -/
def previousGeneration (g : ℕ) : ℕ := if g = 1 then 3 else g - 1

/-- What is known of a stamp of a key after which `age` others were inserted. -/
structure StampKept (f : CRollingBloomFilter) (age : ℕ) (stamp : Bool × Bool) : Prop where
  present : age < f.nEntriesThisGeneration → stamp = generationStamp f.nGeneration
  last : age < f.nEntriesThisGeneration + f.nEntriesPerGeneration →
    stamp = generationStamp f.nGeneration ∨
      stamp = generationStamp (previousGeneration f.nGeneration)
  kept : age < f.nEntriesThisGeneration + 2 * f.nEntriesPerGeneration → stamp ≠ (false, false)

variable {Key : Type} {hash : ℕ → Key → BitVec 32} {f : CRollingBloomFilter} {keys : List Key}

/-- A filter into which keys were inserted, the latest one first. -/
structure Remembers (hash : ℕ → Key → BitVec 32) (f : CRollingBloomFilter) (keys : List Key) :
    Prop where
  nonempty : f.data ≠ []
  generation : f.nGeneration = 1 ∨ f.nGeneration = 2 ∨ f.nGeneration = 3
  stamps : ∀ age key, keys[age]? = some key → ∀ n < f.nHashFuncs,
    StampKept f age (stampAt f.data (hash n key))

/-- A new generation overwrites the oldest one only. -/
theorem Remembers.startGeneration (R : Remembers hash f keys) :
    Remembers hash f.startGeneration keys := by
  unfold CRollingBloomFilter.startGeneration
  by_cases hfull : f.nEntriesThisGeneration = f.nEntriesPerGeneration
  swap
  · rwa [if_neg hfull]
  rw [if_pos hfull]
  dsimp only
  generalize hnext : (if f.nGeneration + 1 = 4 then 1 else f.nGeneration + 1) = g
  have hg : g = 1 ∨ g = 2 ∨ g = 3 := by have := R.generation; split_ifs at hnext <;> omega
  -- The stamps of the last two generations differ from the next one's and are not empty.
  have hdiffer : previousGeneration g = f.nGeneration ∧
      ∀ g' ∈ [f.nGeneration, previousGeneration f.nGeneration],
        generationStamp g' ≠ generationStamp g ∧ generationStamp g' ≠ (false, false) := by
    rw [← hnext]
    rcases R.generation with h | h | h <;> rw [h] <;> decide
  have hstays : ∀ {stamp}, stamp = generationStamp f.nGeneration ∨
      stamp = generationStamp (previousGeneration f.nGeneration) →
      stamp ≠ generationStamp g ∧ stamp ≠ (false, false) := by
    rintro stamp (rfl | rfl)
    · exact hdiffer.2 _ List.mem_cons_self
    · exact hdiffer.2 _ (List.mem_cons_of_mem _ List.mem_cons_self)
  refine ⟨fun h => R.nonempty (List.map_eq_nil_iff.mp h), hg, fun age key hkey n hn => ?_⟩
  have S := R.stamps age key hkey n hn
  rw [stampAt_wipe hg]
  refine ⟨fun h => absurd h (Nat.not_lt_zero age), fun h => ?_, fun h => ?_⟩
  · have hpresent := S.present (by dsimp only at h; omega)
    rw [if_neg (hstays (.inl hpresent)).1]
    exact .inr (hpresent.trans (congrArg generationStamp hdiffer.1.symm))
  · have hlast := hstays (S.last (by dsimp only at h; omega))
    rw [if_neg hlast.1]
    exact hlast.2

/-- **One insertion** succeeds and is remembered. -/
theorem Remembers.insert (R : Remembers hash f keys) (key : Key) :
    ∃ f', f.insert hash key = some f' ∧ Remembers hash f' (key :: keys) ∧
      f'.nEntriesPerGeneration = f.nEntriesPerGeneration := by
  have hper : f.startGeneration.nEntriesPerGeneration = f.nEntriesPerGeneration := by
    unfold CRollingBloomFilter.startGeneration
    split_ifs <;> rfl
  rw [CRollingBloomFilter.insert, ← hper]
  have R := R.startGeneration
  generalize f.startGeneration = f at R
  have hlt : f.nGeneration < 4 := by have := R.generation; omega
  obtain ⟨data, hmarks, M, hnew⟩ := marks_marked hlt
    ((List.range f.nHashFuncs).map fun n => hash n key) R.nonempty
  rw [List.foldlM_map] at hmarks
  obtain ⟨f', hf'⟩ : ∃ f' : CRollingBloomFilter, f' = { f with
      nEntriesThisGeneration := f.nEntriesThisGeneration + 1, data } := ⟨_, rfl⟩
  have hpresent : ∀ age, StampKept f' age (generationStamp f.nGeneration) := by
    intro age
    rw [hf']
    refine ⟨fun _ => rfl, fun _ => .inl rfl, fun _ => ?_⟩
    rcases R.generation with h | h | h <;> rw [h] <;> decide
  refine ⟨f', by rw [hf', hmarks]; rfl, ?_, by rw [hf']⟩
  rw [hf'] at hpresent ⊢
  refine ⟨fun h => R.nonempty ?_, R.generation, ?_⟩
  · rw [← List.length_eq_zero_iff, ← M.length]
    exact List.length_eq_zero_iff.mpr h
  · intro age older hkey n hn
    rcases M.stamps (hash n older) with hstamp | hstamp
    · exact hstamp ▸ hpresent age
    cases age with
    | zero =>
      obtain rfl : key = older := Option.some.inj hkey
      exact hnew _ (List.mem_map.mpr ⟨n, List.mem_range.mpr hn, rfl⟩) ▸ hpresent 0
    | succ age =>
      have S := R.stamps age older hkey n hn
      rw [← hstamp] at S
      exact ⟨fun h => S.present (Nat.lt_of_succ_lt_succ h),
        fun h => S.last (by dsimp only at h; omega), fun h => S.kept (by dsimp only at h; omega)⟩

theorem allM_eq_some_true {p : ℕ → Option Bool} {l : List ℕ} (h : ∀ n ∈ l, p n = some true) :
    l.allM p = some true := by
  induction l with
  | nil => rfl
  | cons n l ih =>
    rw [List.allM, h n List.mem_cons_self]
    exact ih fun m hm => h m (List.mem_cons_of_mem n hm)

theorem getLsbD_of_stampOf {p : BitVec 64 × BitVec 64} {bit : ℕ}
    (h : stampOf p bit ≠ (false, false)) :
    ((p.1 ||| p.2 : BitVec 64) >>> bit).getLsbD 0 = true := by
  rw [BitVec.getLsbD_ushiftRight, Nat.add_zero, BitVec.getLsbD_or]
  by_contra hclear
  obtain ⟨h₁, h₂⟩ := Bool.or_eq_false_iff.mp (Bool.eq_false_iff.mpr hclear)
  exact h (Prod.ext h₁ h₂)

theorem Remembers.contains (R : Remembers hash f keys) {age : ℕ} {key : Key}
    (hkey : keys[age]? = some key) (hage : age < 2 * f.nEntriesPerGeneration) :
    f.contains hash key = some true := by
  refine allM_eq_some_true fun n hn => ?_
  have hstamp := (R.stamps age key hkey n (List.mem_range.mp hn)).kept (by omega)
  rw [stampAt, List.getElem?_eq_getElem (wordsAt_lt R.nonempty _)] at hstamp
  dsimp only
  rw [List.getElem?_eq_getElem (wordsAt_lt R.nonempty _), Option.map_some,
    getLsbD_of_stampOf hstamp]

section Constructor

variable {nElements : BitVec 32} {nHashFuncs : ℕ} {filterBits : BitVec 32 → BitVec 32}

end Constructor

end BitMinti.Analysis
