import BitMinti.Model.Merkle
import BitMinti.Computation.PaddedTree

/-!
# Merkle paths

`MerkleComputation` counts the leaves in binary: where a bit of `count` is set, `inner` has the node
that the leaves up to there make up on that level.  A carry combines nodes as an addition combines
digits, and the final sweep adds what is missing to the next power of two by doubling the last node
of a level.  What the marked node meets on the way is the path: on each level the sibling of the
node above the leaf.

`count` has 32 bits, so this works for up to `2 ^ 31` leaves; with more the final sweep runs off the
array.

SOURCE: src/src/consensus/merkle.cpp:46-63, 87-180
-/

set_option autoImplicit false

namespace BitMinti.Analysis

open Model Computation.PaddedTree

/-! ## Counting in binary -/

section Bits

variable {c k j : ℕ}

theorem testBit_iff_odd : c.testBit k = true ↔ c / 2 ^ k % 2 = 1 := by
  rw [Nat.testBit_eq_decide_div_mod_eq, decide_eq_true_eq]

theorem pow_succ_dvd (hdvd : 2 ^ k ∣ c) (hbit : c.testBit k = false) : 2 ^ (k + 1) ∣ c := by
  obtain ⟨q, rfl⟩ := hdvd
  rw [← Bool.not_eq_true, testBit_iff_odd, Nat.mul_div_cancel_left q (Nat.two_pow_pos k)] at hbit
  rw [pow_succ]
  exact Nat.mul_dvd_mul_left _ (Nat.dvd_of_mod_eq_zero (by omega))

theorem le_of_testBit (hdvd : 2 ^ j ∣ c) (hbit : c.testBit k = true) : j ≤ k := by
  by_contra hlt
  obtain ⟨q, rfl⟩ := (pow_dvd_pow 2 (show k + 1 ≤ j by omega)).trans hdvd
  rw [testBit_iff_odd, pow_succ, Nat.mul_assoc,
    Nat.mul_div_cancel_left _ (Nat.two_pow_pos k)] at hbit
  omega

theorem div_sub_of_dvd (hdvd : 2 ^ k ∣ c) (hc : 0 < c) {d : ℕ} (hd : 0 < d) (hdk : d ≤ 2 ^ k) :
    (c - d) / 2 ^ k + 1 = c / 2 ^ k := by
  obtain ⟨q, rfl⟩ := hdvd
  have hpos := Nat.two_pow_pos k
  have hq : 0 < q := Nat.pos_of_mul_pos_left hc
  obtain ⟨q, rfl⟩ : ∃ r, q = r + 1 := ⟨q - 1, by omega⟩
  rw [Nat.mul_div_cancel_left _ hpos, Nat.mul_succ, Nat.add_sub_assoc hdk, Nat.mul_add_div hpos,
    Nat.div_eq_of_lt (by omega), Nat.add_zero]

theorem testBit_sub_of_dvd (hdvd : 2 ^ (k + 1) ∣ c) (hc : 0 < c) {d : ℕ} (hd : 0 < d)
    (hdk : d ≤ 2 ^ k) :
    (c - d) / 2 ^ k + 1 = c / 2 ^ k ∧ (c - d).testBit k = true := by
  have hdiv := div_sub_of_dvd ((pow_dvd_pow 2 (Nat.le_succ k)).trans hdvd) hc hd hdk
  refine ⟨hdiv, ?_⟩
  obtain ⟨q, hq⟩ := hdvd
  have heven : c / 2 ^ k = 2 * q := by
    rw [hq, pow_succ, Nat.mul_assoc, Nat.mul_div_cancel_left _ (Nat.two_pow_pos k)]
  rw [testBit_iff_odd]
  omega

theorem lt_of_pow_dvd {m : ℕ} (hdvd : 2 ^ k ∣ c) (hc : 0 < c) (hlt : c < 2 ^ m) : k < m :=
  (Nat.pow_lt_pow_iff_right Nat.one_lt_two).mp ((Nat.le_of_dvd hc hdvd).trans_lt hlt)

theorem le_pow_of_dvd {m : ℕ} (hdvd : 2 ^ k ∣ c) (hkm : k ≤ m) (hlt : c < 2 ^ m + 2 ^ k) :
    c ≤ 2 ^ m := by
  obtain ⟨a, rfl⟩ := hdvd
  obtain ⟨b, hb⟩ : 2 ^ k ∣ 2 ^ m := pow_dvd_pow 2 hkm
  rw [hb, ← Nat.mul_succ] at hlt
  rw [hb]
  exact Nat.mul_le_mul_left _ (Nat.lt_succ_iff.mp (Nat.lt_of_mul_lt_mul_left hlt))

theorem div_succ_of_not_dvd (hdvd : ¬ 2 ^ k ∣ c + 1) : (c + 1) / 2 ^ k = c / 2 ^ k := by
  rw [Nat.succ_div, if_neg hdvd, Nat.add_zero]

end Bits

/-! ## The root -/

section Root

variable {H : Type} {hash2 : H → H → H}

theorem level_succ (l : List H) (k : ℕ) :
    level hash2 l (k + 1) = level hash2 (nextLevel hash2 l) k := by
  induction k with
  | zero => exact (nextLevel_eq hash2 l).symm
  | succ k ih => rw [level, ih, level]

/-- **`ComputeMerkleRoot` returns the one node of the first level that has no more.** -/
theorem computeMerkleRoot_eq_node [DecidableEq H] (null : H) (l : List H) {K : ℕ}
    (hK : width l.length K = 1) (hmin : ∀ k < K, 1 < width l.length k) :
    (computeMerkleRoot hash2 null l).1 =
      node hash2 (fun i => l.getD i null) l.length K 0 := by
  have hloop : ∀ (l : List H) (m : Bool), width l.length K = 1 →
      (∀ k < K, 1 < width l.length k) → (computeMerkleRootLoop hash2 l m).1 = level hash2 l K := by
    clear hK hmin
    induction K with
    | zero =>
      intro l m hK _
      rw [width_zero] at hK
      rw [computeMerkleRootLoop, dif_neg (by omega), level]
    | succ K ih =>
      intro l m hK hmin
      have hlen := hmin 0 (Nat.succ_pos K)
      rw [width_zero] at hlen
      have hwidth : ∀ k, width (nextLevel hash2 l).length k = width l.length (k + 1) := by
        intro k
        rw [← length_level hash2, ← length_level hash2, level_succ]
      rw [computeMerkleRootLoop, dif_pos hlen, ih _ _ (by rw [hwidth, hK]) fun k hk => ?_,
        level_succ]
      rw [hwidth]
      exact hmin (k + 1) (by omega)
  rw [computeMerkleRoot]
  dsimp only
  rw [hloop l false hK hmin, level_eq_singleton hash2 l null hK]
  rfl

variable (hash2) in
/-- **A node and the siblings on its way up lead to the node above them all.** -/
theorem rootFromPath_siblings (leaf : ℕ → H) {n p : ℕ} (hp : p < n) (m j : ℕ) :
    rootFromPath hash2 (node hash2 leaf n j (p / 2 ^ j))
        ((List.range' j m).map fun k => sibling hash2 leaf n k (p / 2 ^ k)) (p / 2 ^ j) =
      node hash2 leaf n (j + m) (p / 2 ^ (j + m)) := by
  induction m generalizing j with
  | zero => rfl
  | succ m ih =>
    have hlt : p / 2 ^ j < width n j := by
      rw [lt_width_iff]
      exact lt_of_le_of_lt (Nat.div_mul_le_self p _) hp
    have hhalf : p / 2 ^ j / 2 = p / 2 ^ (j + 1) := by rw [Nat.div_div_eq_div_mul, pow_succ]
    rw [List.range'_succ, List.map_cons, rootFromPath, ← node_parent hlt, hhalf, ih (j + 1),
      show j + (m + 1) = j + 1 + m by omega]

end Root

/-! ## Climbing -/

section Climb

variable {H : Type} (hash2 : H → H → H) (leaf : ℕ → H) (n p : ℕ)

/-- The path of the leaf at position `p`, up to a level. -/
def pathUpTo (j : ℕ) : List H :=
  (List.range j).map fun k => sibling hash2 leaf n k (p / 2 ^ k)

/-- What a carry at `count` `c` may find in `inner` and `matchlevel`: on the levels from `j` on that
it passes, the left neighbour of the node it carries. -/
structure Ready (inner : ℕ → H) (matchlevel : Option ℕ) (path : List H) (c j : ℕ) : Prop where
  inner : ∀ k, j ≤ k → 2 ^ (k + 1) ∣ c → inner k = node hash2 leaf n k (c / 2 ^ k - 2)
  level : ∀ k, matchlevel = some k → path = pathUpTo hash2 leaf n p k ∧
    (j ≤ k → 2 ^ (k + 1) ∣ c → p / 2 ^ k = c / 2 ^ k - 2)

/-- **What holds of a carry at `count` `c`**: it has the last node of the first `c` leaves on its
level; if the matching leaf is below that node, its path so far, and otherwise it has not come to
`matchlevel` yet. -/
structure Climbing (matchlevel : Option ℕ) (path : List H) (c : ℕ) (s : MerkleClimb H) : Prop where
  dvd : 2 ^ s.level ∣ c
  h : s.h = node hash2 leaf n s.level (c / 2 ^ s.level - 1)
  matched : s.matchh = true →
    p / 2 ^ s.level = c / 2 ^ s.level - 1 ∧ s.path = pathUpTo hash2 leaf n p s.level
  unmatched : s.matchh = false → s.path = path ∧ ∀ k, matchlevel = some k → s.level ≤ k

variable {hash2 leaf n p} {inner : ℕ → H} {matchlevel : Option ℕ} {path : List H} {c : ℕ}

theorem pathUpTo_succ (j : ℕ) : pathUpTo hash2 leaf n p (j + 1) =
    pathUpTo hash2 leaf n p j ++ [sibling hash2 leaf n j (p / 2 ^ j)] := by
  rw [pathUpTo, List.range_succ, List.map_append]
  rfl

/-- **One level of a carry.** -/
theorem Climbing.step {s : MerkleClimb H} (I : Climbing hash2 leaf n p matchlevel path c s)
    {j : ℕ} (R : Ready hash2 leaf n p inner matchlevel path c j) (hj : j ≤ s.level) (hc : 0 < c)
    (hcn : c < n + 2 ^ s.level) (hbit : c.testBit s.level = false) :
    Climbing hash2 leaf n p matchlevel path c
      { level := s.level + 1
        h := hash2 (inner s.level) s.h
        matchh := s.matchh || matchlevel == some s.level
        path :=
          if s.matchh then s.path ++ [inner s.level]
          else if matchlevel = some s.level then s.path ++ [s.h]
          else s.path } := by
  have hdvd := pow_succ_dvd I.dvd hbit
  have hpos := Nat.two_pow_pos s.level
  obtain ⟨q, hq⟩ := hdvd
  have hdiv : c / 2 ^ (s.level + 1) = q := by
    rw [hq, Nat.mul_div_cancel_left q (Nat.two_pow_pos _)]
  have hdiv' : c / 2 ^ s.level = 2 * q := by
    rw [hq, pow_succ, Nat.mul_assoc, Nat.mul_div_cancel_left _ hpos]
  have hq0 : 0 < q := by
    rw [hq] at hc
    exact Nat.pos_of_mul_pos_left hc
  have hge := Nat.le_of_dvd hc I.dvd
  -- the last node on this level has an odd position and is there
  have hlast : 2 * q - 1 < width n s.level := by
    rw [lt_width_iff, ← hdiv', Nat.sub_mul, Nat.div_mul_cancel I.dvd]
    omega
  have hinner := R.inner s.level hj (pow_succ_dvd I.dvd hbit)
  have hh := I.h
  rw [hdiv'] at hinner hh
  have hhalf : p / 2 ^ (s.level + 1) = p / 2 ^ s.level / 2 := by
    rw [Nat.div_div_eq_div_mul, pow_succ]
  refine ⟨⟨q, hq⟩, ?_, fun hmatch => ?_, fun hmatch => ?_⟩
  · dsimp only
    rw [hinner, hh, hdiv, node, show 2 * (q - 1) = 2 * q - 2 by omega,
      show 2 * q - 2 + 1 = 2 * q - 1 by omega, if_pos hlast]
  · dsimp only at hmatch ⊢
    rw [hhalf, hdiv, pathUpTo_succ]
    cases hs : s.matchh with
    | true =>
      obtain ⟨hp, hpath⟩ := I.matched hs
      rw [hdiv'] at hp
      refine ⟨by omega, ?_⟩
      rw [if_pos rfl, hpath, hinner, hp, sibling_odd (by omega),
        show 2 * q - 1 - 1 = 2 * q - 2 by omega]
    | false =>
      rw [hs, Bool.false_or, beq_iff_eq] at hmatch
      obtain ⟨hpath, hp⟩ := R.level s.level hmatch
      have hp := hp hj (pow_succ_dvd I.dvd hbit)
      rw [hdiv'] at hp
      refine ⟨by omega, ?_⟩
      rw [if_neg Bool.false_ne_true, if_pos hmatch, (I.unmatched hs).1, hpath, hh, hp,
        sibling_even (by omega) (by omega), show 2 * q - 2 + 1 = 2 * q - 1 by omega]
  · dsimp only at hmatch ⊢
    rw [Bool.or_eq_false_iff, beq_eq_false_iff_ne] at hmatch
    obtain ⟨hpath, hlevel⟩ := I.unmatched hmatch.1
    rw [hmatch.1, if_neg Bool.false_ne_true, if_neg hmatch.2]
    refine ⟨hpath, fun k hk => ?_⟩
    have hle := hlevel k hk
    have hne : k ≠ s.level := fun heq => hmatch.2 (heq ▸ hk)
    omega

/-- **A carry ends at a bit that is set**, with the last node of that level.
SOURCE: src/src/consensus/merkle.cpp:113-121, 149-158 -/
theorem climbLevels_spec (left : ℕ) {s : MerkleClimb H}
    (I : Climbing hash2 leaf n p matchlevel path c s) {j : ℕ}
    (R : Ready hash2 leaf n p inner matchlevel path c j) (hj : j ≤ s.level) (hc : 0 < c)
    (hcn : c < n + 2 ^ s.level) (hc32 : c < 2 ^ 32) (hleft : s.level + left = 32) :
    ∃ s', climbLevels hash2 inner matchlevel c left s = some s' ∧
      Climbing hash2 leaf n p matchlevel path c s' ∧ c.testBit s'.level = true ∧
      s.level ≤ s'.level ∧ (s'.matchh = false → s.matchh = false) := by
  induction left generalizing s with
  | zero =>
    have hlt := lt_of_pow_dvd I.dvd hc hc32
    omega
  | succ left ih =>
    rw [climbLevels]
    cases hbit : c.testBit s.level with
    | true => exact ⟨s, rfl, I, hbit, le_rfl, id⟩
    | false =>
      have hpow : 2 ^ (s.level + 1) = 2 * 2 ^ s.level := by ring
      obtain ⟨s', hs', I', hbit', hle, hmatch⟩ := ih (I.step R hj hc hcn hbit)
        (show j ≤ s.level + 1 by omega) (by dsimp only; omega)
        (show s.level + 1 + left = 32 by omega)
      refine ⟨s', hs', I', hbit', (Nat.le_succ _).trans hle, fun h => ?_⟩
      exact (Bool.or_eq_false_iff.mp (hmatch h)).1

theorem climbLevels_level {left : ℕ} {s s' : MerkleClimb H}
    (h : climbLevels hash2 inner matchlevel c left s = some s') (hdvd : 2 ^ s.level ∣ c) :
    s.level ≤ s'.level ∧ c.testBit s'.level = true ∧ 2 ^ s'.level ∣ c := by
  induction left generalizing s with
  | zero => cases h
  | succ left ih =>
    rw [climbLevels] at h
    cases hbit : c.testBit s.level with
    | true =>
      rw [hbit, if_pos rfl, Option.some_inj] at h
      rw [← h]
      exact ⟨le_rfl, hbit, hdvd⟩
    | false =>
      rw [hbit, if_neg Bool.false_ne_true] at h
      obtain ⟨hle, hrest⟩ := ih h (pow_succ_dvd hdvd hbit)
      exact ⟨(Nat.le_succ _).trans hle, hrest⟩

theorem climbLevels_zero (left : ℕ) (s : MerkleClimb H) :
    climbLevels hash2 inner matchlevel 0 left s = none := by
  induction left generalizing s with
  | zero => rfl
  | succ left ih =>
    rw [climbLevels, Nat.zero_testBit, if_neg Bool.false_ne_true]
    exact ih _

end Climb

/-! ## The leaves -/

section Leaves

variable {H : Type} (hash2 : H → H → H) (leaf : ℕ → H) (n p : ℕ)

/-- **What holds after `c` leaves**: `inner` has the last node of each level whose bit in `c` is
set, and when the matching leaf was among them, `matchlevel` is the level of the node it is below,
and `path` its path up to there. -/
structure Counted (c : ℕ) (s : MerkleState H) : Prop where
  count : s.count = c
  inner : ∀ k, c.testBit k = true → s.inner k = node hash2 leaf n k (c / 2 ^ k - 1)
  before : c ≤ p → s.matchlevel = none ∧ s.path = []
  after : p < c → ∃ k, s.matchlevel = some k ∧ c.testBit k = true ∧ p / 2 ^ k = c / 2 ^ k - 1 ∧
    s.path = pathUpTo hash2 leaf n p k

variable {hash2 leaf n p} {c : ℕ} {s : MerkleState H}

theorem Counted.of_matchlevel (I : Counted hash2 leaf n p c s) {k : ℕ}
    (hk : s.matchlevel = some k) :
    c.testBit k = true ∧ p / 2 ^ k = c / 2 ^ k - 1 ∧ s.path = pathUpTo hash2 leaf n p k := by
  rcases Nat.lt_or_ge p c with hpc | hcp
  · obtain ⟨k', hk', hafter⟩ := I.after hpc
    obtain rfl : k' = k := Option.some_inj.mp (hk'.symm.trans hk)
    exact hafter
  · rw [(I.before hcp).1] at hk
    cases hk

theorem Counted.ready (I : Counted hash2 leaf n p c s) {c' j : ℕ}
    (hbelow : ∀ k, j ≤ k → 2 ^ (k + 1) ∣ c' → c / 2 ^ k + 1 = c' / 2 ^ k ∧ c.testBit k = true) :
    Ready hash2 leaf n p s.inner s.matchlevel s.path c' j where
  inner k hjk hdvd := by
    obtain ⟨hdiv, hbit⟩ := hbelow k hjk hdvd
    rw [I.inner k hbit, ← hdiv]
    rfl
  level k hk := by
    obtain ⟨-, hpos, hpath⟩ := I.of_matchlevel hk
    refine ⟨hpath, fun hjk hdvd => ?_⟩
    rw [hpos, ← (hbelow k hjk hdvd).1]
    rfl

/-- **A leaf is added as one is added to `count`.**
SOURCE: src/src/consensus/merkle.cpp:104-127 -/
theorem Counted.addLeaf (I : Counted hash2 leaf n p c s) (hcn : c < n) (hc32 : c + 1 < 2 ^ 32) :
    ∃ s', Model.addLeaf hash2 p s (leaf c) = some s' ∧ Counted hash2 leaf n p (c + 1) s' := by
  have hstart : Climbing hash2 leaf n p s.matchlevel s.path (c + 1)
      ⟨0, leaf c, s.count == p, s.path⟩ := by
    refine ⟨by simp, by simp [node], fun hmatch => ?_, fun _ => ⟨rfl, fun k _ => Nat.zero_le k⟩⟩
    rw [beq_iff_eq, I.count] at hmatch
    refine ⟨by simp [hmatch], (I.before hmatch.le).2⟩
  have hready : Ready hash2 leaf n p s.inner s.matchlevel s.path (c + 1) 0 := by
    refine I.ready fun k _ hdvd => ?_
    exact testBit_sub_of_dvd hdvd (Nat.succ_pos c) Nat.one_pos (Nat.two_pow_pos k)
  obtain ⟨t, ht, J, hbit, -, hkeep⟩ := climbLevels_spec 32 hstart hready le_rfl (Nat.succ_pos c)
    (by dsimp only; omega) hc32 rfl
  -- the bits above the carry are those there were
  have habove : ∀ k, t.level < k → (c + 1) / 2 ^ k = c / 2 ^ k := by
    intro k hk
    refine div_succ_of_not_dvd fun hdvd => ?_
    have := le_of_testBit hdvd hbit
    omega
  have habove' : ∀ k, t.level < k → (c + 1).testBit k = c.testBit k := by
    intro k hk
    rw [Bool.eq_iff_iff, testBit_iff_odd, testBit_iff_odd, habove k hk]
  have hlow : c.testBit t.level = false := by
    rw [← Bool.not_eq_true, testBit_iff_odd]
    rw [testBit_iff_odd, Nat.succ_div, if_pos J.dvd] at hbit
    omega
  refine ⟨{ count := c + 1, inner := Function.update s.inner t.level t.h, matchlevel :=
    if t.matchh then some t.level else s.matchlevel, path := t.path }, ?_, rfl, ?_, ?_, ?_⟩
  · rw [Model.addLeaf, I.count, Nat.mod_eq_of_lt hc32]
    rw [I.count] at ht
    rw [ht]
    rfl
  · intro k hk
    have hle := le_of_testBit J.dvd hk
    dsimp only
    by_cases hkt : k = t.level
    · rw [hkt, Function.update_self, J.h]
    · rw [Function.update_of_ne hkt, habove k (by omega)]
      exact I.inner k (by rw [← habove' k (by omega), hk])
  · intro hcp
    cases hmatch : t.matchh with
    | true =>
      have hdiv := (J.matched hmatch).1
      have hle : (c + 1) / 2 ^ t.level ≤ p / 2 ^ t.level := Nat.div_le_div_right hcp
      rw [testBit_iff_odd] at hbit
      generalize (c + 1) / 2 ^ t.level = q at hbit hdiv hle
      omega
    | false =>
      rw [(J.unmatched hmatch).1]
      exact I.before (by omega)
  · intro hpc
    cases hmatch : t.matchh with
    | true =>
      obtain ⟨hdiv, hpath⟩ := J.matched hmatch
      exact ⟨t.level, rfl, hbit, hdiv, hpath⟩
    | false =>
      have hne : ¬ c = p := by
        have := hkeep hmatch
        rwa [I.count, beq_eq_false_iff_ne] at this
      obtain ⟨k, hk, hkbit, hdiv, hpath⟩ := I.after (by omega)
      have hle := (J.unmatched hmatch).2 k hk
      have hlt : t.level < k := by
        rcases Nat.eq_or_lt_of_le hle with heq | hlt
        · rw [heq, hkbit] at hlow
          cases hlow
        · exact hlt
      refine ⟨k, hk, by rw [habove' k hlt, hkbit], by rw [hdiv, habove k hlt], ?_⟩
      rw [(J.unmatched hmatch).1, hpath]

theorem Counted.start (null : H) : Counted hash2 leaf n p 0 ⟨0, fun _ => null, none, []⟩ where
  count := rfl
  inner k hk := by
    rw [Nat.zero_testBit] at hk
    cases hk
  before _ := ⟨rfl, rfl⟩
  after hp := absurd hp (Nat.not_lt_zero p)

/-- **The first phase** takes the leaves one after the other. -/
theorem Counted.foldlM {l : List H} (hl : ∀ i, (hi : i < l.length) → l[i] = leaf (c + i))
    (I : Counted hash2 leaf n p c s) (hn : c + l.length ≤ n) (hn32 : c + l.length < 2 ^ 32) :
    ∃ s', l.foldlM (Model.addLeaf hash2 p) s = some s' ∧
      Counted hash2 leaf n p (c + l.length) s' := by
  induction l generalizing c s with
  | nil => exact ⟨s, rfl, I⟩
  | cons x rest ih =>
    rw [List.length_cons] at hn hn32
    have hx : x = leaf c := hl 0 (Nat.succ_pos _)
    obtain ⟨s₁, hs₁, I₁⟩ := I.addLeaf (by omega) (by omega)
    have hrest : ∀ i, (hi : i < rest.length) → rest[i] = leaf (c + 1 + i) := by
      intro i hi
      rw [show c + 1 + i = c + (i + 1) by omega]
      exact hl (i + 1) (Nat.succ_lt_succ hi)
    obtain ⟨s', hs', I'⟩ := ih hrest I₁ (by omega) (by omega)
    refine ⟨s', ?_, ?_⟩
    · rw [List.foldlM_cons, hx, hs₁]
      exact hs'
    · rw [List.length_cons, show c + (rest.length + 1) = c + 1 + rest.length by omega]
      exact I'

theorem addLeaf_count {s s' : MerkleState H} {x : H} (h : Model.addLeaf hash2 p s x = some s') :
    s'.count = (s.count + 1) % 2 ^ 32 := by
  obtain ⟨t, -, ht⟩ := Option.bind_eq_some_iff.mp h
  rw [← Option.some_inj.mp ht]

/-- **With `2 ^ 32` leaves or more `count` runs over.** -/
theorem foldlM_addLeaf_eq_none {l : List H} (hs : s.count < 2 ^ 32)
    (hl : 2 ^ 32 ≤ s.count + l.length) : l.foldlM (Model.addLeaf hash2 p) s = none := by
  induction l generalizing s with
  | nil =>
    rw [List.length_nil] at hl
    omega
  | cons x rest ih =>
    rw [List.length_cons] at hl
    rw [List.foldlM_cons]
    cases hx : Model.addLeaf hash2 p s x with
    | none => rfl
    | some s₁ =>
      have hcount := addLeaf_count hx
      by_cases hlast : s.count + 1 = 2 ^ 32
      · rw [Model.addLeaf, hlast, Nat.mod_self, climbLevels_zero] at hx
        cases hx
      · rw [Nat.mod_eq_of_lt (by omega)] at hcount
        exact ih (by omega) (by omega)

end Leaves

/-! ## The final sweep -/

section Sweep

variable {n j c : ℕ}

/-- `c` is `n`, rounded up to a multiple of `2 ^ j`. -/
structure RoundedUp (n j c : ℕ) : Prop where
  dvd : 2 ^ j ∣ c
  le : n ≤ c
  lt : c < n + 2 ^ j

section

variable (R : RoundedUp n j c)

include R

theorem RoundedUp.div_eq : c / 2 ^ j = width n j := by
  obtain ⟨⟨q, rfl⟩, hle, hlt⟩ := R
  have hpos := Nat.two_pow_pos j
  rw [Nat.mul_div_cancel_left q hpos, width]
  refine (Nat.div_eq_of_lt_le ?_ ?_).symm
  · rw [Nat.mul_comm]
    omega
  · rw [Nat.succ_mul, Nat.mul_comm]
    omega

theorem RoundedUp.up {j' : ℕ} (hj : j ≤ j') (hdvd : 2 ^ j' ∣ c) :
    RoundedUp n j' c :=
  ⟨hdvd, R.le, lt_of_lt_of_le R.lt (Nat.add_le_add_left (Nat.pow_le_pow_right Nat.two_pos hj) n)⟩

theorem RoundedUp.next (hbit : c.testBit j = true) :
    RoundedUp n (j + 1) (c + 2 ^ j) := by
  obtain ⟨⟨q, rfl⟩, hle, hlt⟩ := R
  rw [testBit_iff_odd, Nat.mul_div_cancel_left q (Nat.two_pow_pos j)] at hbit
  have hpow : 2 ^ (j + 1) = 2 * 2 ^ j := by ring
  refine ⟨⟨(q + 1) / 2, ?_⟩, by omega, by omega⟩
  rw [pow_succ, Nat.mul_assoc, show 2 * ((q + 1) / 2) = q + 1 by omega, Nat.mul_succ]

theorem RoundedUp.below (hne : n ≠ c) {k : ℕ} (hjk : j ≤ k)
    (hdvd : 2 ^ (k + 1) ∣ c) : n / 2 ^ k + 1 = c / 2 ^ k ∧ n.testBit k = true := by
  have hle := R.le
  have hlt := R.lt
  have hpow : 2 ^ j ≤ 2 ^ k := Nat.pow_le_pow_right Nat.two_pos hjk
  have h := testBit_sub_of_dvd hdvd (show 0 < c by omega) (show 0 < c - n by omega)
    (show c - n ≤ 2 ^ k by omega)
  rwa [show c - (c - n) = n by omega] at h

theorem RoundedUp.floor (hne : n ≠ c) : n / 2 ^ j + 1 = c / 2 ^ j := by
  have hle := R.le
  have hlt := R.lt
  have h := div_sub_of_dvd R.dvd (show 0 < c by omega) (show 0 < c - n by omega)
    (show c - n ≤ 2 ^ j by omega)
  rwa [show c - (c - n) = n by omega] at h

end

variable {H : Type} {hash2 : H → H → H} {leaf : ℕ → H} {p : ℕ} {s : MerkleState H}

/-- **What holds of the sweep**: it has the last node of a level, and if the matching leaf is not
below it, `matchlevel` is still to come. -/
structure Sweeping (hash2 : H → H → H) (leaf : ℕ → H) (n p : ℕ) (s : MerkleState H) (c : ℕ)
    (t : MerkleClimb H) : Prop extends Climbing hash2 leaf n p s.matchlevel s.path c t where
  rounded : RoundedUp n t.level c
  bit : c.testBit t.level = true
  ahead : t.matchh = false → ∀ k, s.matchlevel = some k → t.level < k
  low : 2 ^ t.level < 2 * n

variable {t : MerkleClimb H}

theorem Sweeping.matched_top (S : Sweeping hash2 leaf n p s c t)
    (I : Counted hash2 leaf n p n s) (hp : p < n) (htop : c = 2 ^ t.level) : t.matchh = true := by
  by_contra hmatch
  rw [Bool.not_eq_true] at hmatch
  obtain ⟨k, hk, hbit, -⟩ := I.after hp
  have hlt := S.ahead hmatch k hk
  have hle := S.rounded.le
  have hge := Nat.ge_two_pow_of_testBit hbit
  have hpow : 2 ^ t.level < 2 ^ k := Nat.pow_lt_pow_right Nat.one_lt_two hlt
  omega

theorem Sweeping.double (S : Sweeping hash2 leaf n p s c t) :
    Climbing hash2 leaf n p s.matchlevel s.path (c + 2 ^ t.level)
      { level := t.level + 1
        h := hash2 t.h t.h
        matchh := t.matchh
        path := if t.matchh then t.path ++ [t.h] else t.path } := by
  have hwidth := S.rounded.div_eq
  have hbit := testBit_iff_odd.mp S.bit
  have hnext := S.rounded.next S.bit
  have hdiv : (c + 2 ^ t.level) / 2 ^ (t.level + 1) - 1 = (width n t.level - 1) / 2 := by
    rw [hnext.div_eq, width_succ]
    omega
  rw [hwidth] at hbit
  have hh := S.h
  rw [hwidth] at hh
  have hlast : width n t.level - 1 < width n t.level := by omega
  have hself : sibling hash2 leaf n t.level (width n t.level - 1) =
      node hash2 leaf n t.level (width n t.level - 1) := sibling_last (by omega) (by omega)
  refine ⟨hnext.dvd, ?_, fun hmatch => ?_, fun hmatch => ?_⟩
  · dsimp only
    rw [hdiv, node_parent hlast, if_neg (by omega), hself, hh]
  · dsimp only at hmatch ⊢
    obtain ⟨hp, hpath⟩ := S.matched hmatch
    rw [hwidth] at hp
    refine ⟨?_, ?_⟩
    · rw [hdiv, pow_succ, ← Nat.div_div_eq_div_mul, hp]
    · rw [if_pos hmatch, hpath, pathUpTo_succ, hp, hself, hh]
  · dsimp only at hmatch ⊢
    rw [hmatch, if_neg Bool.false_ne_true]
    exact ⟨(S.unmatched hmatch).1, fun k hk => S.ahead hmatch k hk⟩

/-- **One pass of the sweep** gets to the next level whose last node has no neighbour. -/
theorem Sweeping.pass (S : Sweeping hash2 leaf n p s c t)
    (I : Counted hash2 leaf n p n s) (hn : n ≤ 2 ^ 31) (hmore : c ≠ 2 ^ t.level) :
    c + 2 ^ t.level < 2 ^ 32 ∧ ∃ t', climbLevels hash2 s.inner s.matchlevel (c + 2 ^ t.level)
        (32 - (t.level + 1))
        { level := t.level + 1
          h := hash2 t.h t.h
          matchh := t.matchh
          path := if t.matchh then t.path ++ [t.h] else t.path } = some t' ∧
      Sweeping hash2 leaf n p s (c + 2 ^ t.level) t' ∧ t.level < t'.level := by
  have hnext := S.rounded.next S.bit
  have hpos := Nat.two_pow_pos t.level
  -- with two nodes or more on the level, there are more leaves than one node covers
  have hlt : 2 ^ t.level < n := by
    have hwidth := S.rounded.div_eq
    have hbit := testBit_iff_odd.mp S.bit
    rw [hwidth] at hbit
    have hone : 1 < width n t.level := by
      by_contra hle
      have hdiv := Nat.div_mul_cancel S.dvd
      rw [hwidth, show width n t.level = 1 by omega] at hdiv
      omega
    have := lt_width_iff.mp hone
    omega
  have hlevel : t.level < 31 := (Nat.pow_lt_pow_iff_right Nat.one_lt_two).mp (hlt.trans_le hn)
  have hpow : 2 ^ (t.level + 1) = 2 * 2 ^ t.level := by ring
  -- rounded up to a divisor of `2 ^ 31`, `n` does not pass it
  have hbound : c + 2 ^ t.level ≤ 2 ^ 31 :=
    le_pow_of_dvd hnext.dvd hlevel (hnext.lt.trans_le (Nat.add_le_add_right hn _))
  have hne : n ≠ c + 2 ^ t.level := by
    have := S.rounded.le
    omega
  refine ⟨by omega, ?_⟩
  obtain ⟨t', ht', J, hbit, hle, -⟩ := climbLevels_spec (32 - (t.level + 1)) S.double
    (I.ready fun _ => hnext.below hne) le_rfl (by omega) hnext.lt (by omega) (by dsimp only; omega)
  dsimp only at hle
  have hrounded := hnext.up hle J.dvd
  refine ⟨t', ht', ⟨J, hrounded, hbit, fun hmatch k hk => ?_, ?_⟩, hle⟩
  · obtain ⟨hkbit, -⟩ := I.of_matchlevel hk
    rcases Nat.eq_or_lt_of_le ((J.unmatched hmatch).2 k hk) with heq | hlt
    · -- the level has one node more than the full ones among the leaves
      rw [← heq, testBit_iff_odd] at hkbit
      rw [testBit_iff_odd, ← hrounded.floor hne] at hbit
      omega
    · exact hlt
  · have hge := Nat.le_of_dvd (by omega) J.dvd
    have hlt' := hnext.lt
    rcases Nat.eq_or_lt_of_le hle with heq | hgt
    · rw [← heq, hpow]
      omega
    · have : 2 ^ (t.level + 1 + 1) ≤ 2 ^ t'.level := Nat.pow_le_pow_right Nat.two_pos hgt
      rw [pow_succ] at this
      omega

/-- **The sweep ends at the root**, with the whole path.
SOURCE: src/src/consensus/merkle.cpp:128-162 -/
theorem Sweeping.finalSweep (fuel : ℕ) (S : Sweeping hash2 leaf n p s c t)
    (I : Counted hash2 leaf n p n s) (hp : p < n) (hn : n ≤ 2 ^ 31) (hfuel : 32 ≤ t.level + fuel) :
    ∃ K, Model.finalSweep hash2 s.inner s.matchlevel fuel c t = some (pathUpTo hash2 leaf n p K) ∧
      width n K = 1 ∧ 2 ^ K < 2 * n := by
  induction fuel generalizing c t with
  | zero =>
    have hlow := S.low
    have : 2 ^ 32 ≤ 2 ^ t.level := Nat.pow_le_pow_right Nat.two_pos hfuel
    omega
  | succ fuel ih =>
    rw [Model.finalSweep]
    by_cases htop : c = 2 ^ t.level
    · refine ⟨t.level, ?_, ?_, S.low⟩
      · rw [if_pos htop, (S.matched (S.matched_top I hp htop)).2]
      · rw [← S.rounded.div_eq, htop, Nat.div_self (Nat.two_pow_pos _)]
    · obtain ⟨hlt, t', ht', S', hlevel⟩ := S.pass I hn htop
      rw [if_neg htop, Nat.mod_eq_of_lt hlt]
      dsimp only
      rw [ht']
      exact ih S' (by omega)

/-- **With more than `2 ^ 31` leaves the sweep runs off the array.** -/
theorem finalSweep_eq_none (fuel : ℕ) {inner : ℕ → H} {matchlevel : Option ℕ}
    (R : RoundedUp n t.level c) (hbit : c.testBit t.level = true) (hc : c < 2 ^ 32)
    (hn : 2 ^ 31 < n) : Model.finalSweep hash2 inner matchlevel fuel c t = none := by
  induction fuel generalizing c t with
  | zero => rfl
  | succ fuel ih =>
    have hge := Nat.ge_two_pow_of_testBit hbit
    have hlevel : t.level < 32 := (Nat.pow_lt_pow_iff_right Nat.one_lt_two).mp (hge.trans_lt hc)
    have hpow : 2 ^ t.level ≤ 2 ^ 31 := Nat.pow_le_pow_right Nat.two_pos (by omega)
    have hle := R.le
    rw [Model.finalSweep, if_neg (by omega)]
    -- the next multiple is at most `2 ^ 32`, and then `count` is zero
    have hbound : c + 2 ^ t.level ≤ 2 ^ 32 :=
      le_pow_of_dvd (Nat.dvd_add R.dvd dvd_rfl) hlevel.le (Nat.add_lt_add_right hc _)
    rcases Nat.eq_or_lt_of_le hbound with heq | hlt
    · rw [heq, Nat.mod_self]
      dsimp only
      rw [climbLevels_zero]
      rfl
    · rw [Nat.mod_eq_of_lt hlt]
      dsimp only
      have hnext := R.next hbit
      generalize hclimb : climbLevels hash2 inner matchlevel (c + 2 ^ t.level) _ _ = r
      cases r with
      | none => rfl
      | some t' =>
        obtain ⟨hlevel', hbit', hdvd⟩ := climbLevels_level hclimb hnext.dvd
        exact ih (hnext.up hlevel' hdvd) hbit' hlt

theorem lowestBit_spec (left : ℕ) {level : ℕ} (hc : 0 < c) (hc32 : c < 2 ^ 32)
    (hdvd : 2 ^ level ∣ c) (hleft : level + left = 32) :
    ∃ k, lowestBit c left level = some k ∧ 2 ^ k ∣ c ∧ c.testBit k = true := by
  induction left generalizing level with
  | zero =>
    have hlt := lt_of_pow_dvd hdvd hc hc32
    omega
  | succ left ih =>
    rw [lowestBit]
    cases hbit : c.testBit level with
    | true => exact ⟨level, rfl, hdvd, hbit⟩
    | false => exact ih (pow_succ_dvd hdvd hbit) (by omega)

theorem roundedUp_self {n k : ℕ} (hdvd : 2 ^ k ∣ n) : RoundedUp n k n :=
  ⟨hdvd, le_rfl, Nat.lt_add_of_pos_right (Nat.two_pow_pos k)⟩

theorem Counted.sweeping (I : Counted hash2 leaf n p n s) {k : ℕ} (hdvd : 2 ^ k ∣ n)
    (hbit : n.testBit k = true) :
    Sweeping hash2 leaf n p s n ⟨k, s.inner k, s.matchlevel == some k, s.path⟩ := by
  have hlow : ∀ i, s.matchlevel = some i → k ≤ i := fun i hi =>
    le_of_testBit hdvd (I.of_matchlevel hi).1
  refine ⟨⟨hdvd, I.inner k hbit, fun hmatch => ?_, fun _ => ⟨rfl, hlow⟩⟩,
    roundedUp_self hdvd, hbit, fun hmatch i hi => ?_, ?_⟩
  · exact (I.of_matchlevel (beq_iff_eq.mp hmatch)).2
  · dsimp only at hmatch ⊢
    rw [beq_eq_false_iff_ne, hi, ne_eq, Option.some_inj] at hmatch
    exact lt_of_le_of_ne (hlow i hi) (Ne.symm hmatch)
  · have := Nat.ge_two_pow_of_testBit hbit
    dsimp only
    omega

end Sweep

/-! ## The path -/

section Path

variable {H : Type} {hash2 : H → H → H}

theorem exists_counted (null : H) {leaves : List H} (pos : ℕ) (hlen : leaves.length < 2 ^ 32) :
    ∃ s, leaves.foldlM (addLeaf hash2 pos) ⟨0, fun _ => null, none, []⟩ = some s ∧
      Counted hash2 (fun i => leaves.getD i null) leaves.length pos leaves.length s := by
  have hleaf : ∀ i, (hi : i < leaves.length) → leaves[i] = leaves.getD (0 + i) null := by
    intro i hi
    rw [Nat.zero_add, List.getD_eq_getElem _ _ hi]
  have hstart : Counted hash2 (fun i => leaves.getD i null) leaves.length pos 0
      ⟨0, fun _ => null, none, []⟩ := .start null
  obtain ⟨s, hs, I⟩ := hstart.foldlM hleaf (by omega) (by omega)
  rw [Nat.zero_add] at I
  exact ⟨s, hs, I⟩

theorem merkleComputation_of_counted {null : H} {leaves : List H} {pos k : ℕ} {s : MerkleState H}
    (hne : leaves ≠ [])
    (hs : leaves.foldlM (addLeaf hash2 pos) ⟨0, fun _ => null, none, []⟩ = some s)
    (hk : lowestBit s.count 32 0 = some k) :
    merkleComputation hash2 null leaves pos = finalSweep hash2 s.inner s.matchlevel 32 s.count
      ⟨k, s.inner k, s.matchlevel == some k, s.path⟩ := by
  rw [merkleComputation, if_neg hne, hs]
  change (lowestBit s.count 32 0).bind _ = _
  rw [hk, Option.bind_some]

/-- **Up to `2 ^ 31` leaves the path is that of the siblings**, up to the root. -/
theorem merkleComputation_eq (null : H) {leaves : List H} {pos : ℕ} (hpos : pos < leaves.length)
    (hlen : leaves.length ≤ 2 ^ 31) :
    ∃ K, merkleComputation hash2 null leaves pos =
        some (pathUpTo hash2 (fun i => leaves.getD i null) leaves.length pos K) ∧
      width leaves.length K = 1 ∧ 2 ^ K < 2 * leaves.length := by
  have hne : leaves ≠ [] := List.length_pos_iff.mp (by omega)
  obtain ⟨s, hs, I⟩ := exists_counted null pos
    (show leaves.length < 2 ^ 32 by omega)
  obtain ⟨k, hk, hdvd, hbit⟩ := lowestBit_spec 32 (show 0 < leaves.length by omega) (by omega)
    (show 2 ^ 0 ∣ leaves.length by simp) rfl
  obtain ⟨K, hK, hwidth, hlow⟩ := (I.sweeping hdvd hbit).finalSweep 32 I hpos hlen
    (Nat.le_add_left _ _)
  refine ⟨K, ?_, hwidth, hlow⟩
  rw [merkleComputation_of_counted hne hs (by rw [I.count, hk]), I.count, hK]

/-- **With more leaves there is no path.** -/
theorem merkleComputation_eq_none (null : H) {leaves : List H} (pos : ℕ)
    (hlen : 2 ^ 31 < leaves.length) : merkleComputation hash2 null leaves pos = none := by
  have hne : leaves ≠ [] := List.length_pos_iff.mp (by omega)
  by_cases hmany : leaves.length < 2 ^ 32
  · obtain ⟨s, hs, I⟩ := exists_counted null pos hmany
    obtain ⟨k, hk, hdvd, hbit⟩ := lowestBit_spec 32 (show 0 < leaves.length by omega) hmany
      (show 2 ^ 0 ∣ leaves.length by simp) rfl
    rw [merkleComputation_of_counted hne hs (by rw [I.count, hk]), I.count]
    exact finalSweep_eq_none 32 (roundedUp_self hdvd) hbit hmany hlen
  · rw [merkleComputation, if_neg hne, foldlM_addLeaf_eq_none (by dsimp only; omega)
      (by dsimp only; omega)]
    rfl

/-- The leaf at a position, folded with the path that `MerkleComputation` returns for it, gives the
root. -/
def PathLeadsToRoot [DecidableEq H] (hash2 : H → H → H) (null : H) (leaves : List H) (pos : ℕ) :
    Prop :=
  ∃ path, merkleComputation hash2 null leaves pos = some path ∧
    rootFromPath hash2 (leaves.getD pos null) path pos = (computeMerkleRoot hash2 null leaves).1

end Path

/-- **The path of a leaf leads to the root exactly when there are at most `2 ^ 31` leaves.**  With
more the code shifts by 32 and reads beyond the end of `inner`.
SOURCE: src/src/consensus/merkle.cpp:46-63, 87-180 -/
theorem pathLeadsToRoot_iff {H : Type} [DecidableEq H] (hash2 : H → H → H) (null : H)
    (leaves : List H) (pos : ℕ) (hpos : pos < leaves.length) :
    PathLeadsToRoot hash2 null leaves pos ↔ leaves.length ≤ 2 ^ 31 := by
  constructor
  · rintro ⟨path, hpath, -⟩
    by_contra hlen
    rw [merkleComputation_eq_none null pos (by omega)] at hpath
    cases hpath
  · intro hlen
    obtain ⟨K, hK, hwidth, hlow⟩ := merkleComputation_eq null hpos hlen
    refine ⟨_, hK, ?_⟩
    have hmin : ∀ k < K, 1 < width leaves.length k := by
      intro k hk
      have : 2 ^ (k + 1) ≤ 2 ^ K := Nat.pow_le_pow_right Nat.two_pos hk
      rw [pow_succ] at this
      rw [lt_width_iff]
      omega
    -- at the top there is one node only
    have htop : pos / 2 ^ K = 0 := by
      have hlt : pos / 2 ^ K < width leaves.length K := by
        rw [lt_width_iff]
        exact lt_of_le_of_lt (Nat.div_mul_le_self pos _) hpos
      rw [hwidth] at hlt
      exact Nat.lt_one_iff.mp hlt
    have hfold := rootFromPath_siblings hash2 (fun i => leaves.getD i null) hpos K 0
    rw [pow_zero, Nat.div_one, Nat.zero_add, htop, ← List.range_eq_range'] at hfold
    rw [computeMerkleRoot_eq_node null leaves hwidth hmin]
    exact hfold

theorem pathLeadsToRoot_third :
    PathLeadsToRoot (fun a b : ℕ => 10 * a + b) 0 [1, 2, 3, 4, 5] 2 :=
  (pathLeadsToRoot_iff _ _ _ _ (by decide)).mpr (by decide)

theorem not_pathLeadsToRoot_long :
    ¬ PathLeadsToRoot (fun a b : ℕ => 10 * a + b) 0 (List.replicate (2 ^ 31 + 1) 7) 0 := by
  have hlen : 2 ^ 31 < (List.replicate (2 ^ 31 + 1) 7).length := by
    rw [List.length_replicate]
    exact Nat.lt_succ_self _
  rintro ⟨path, hpath, -⟩
  rw [merkleComputation_eq_none 0 0 hlen] at hpath
  cases hpath

end BitMinti.Analysis
