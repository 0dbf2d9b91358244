import BitMinti.Model.Merkle

/-!
# A Merkle root stands for one list

Two lists with the same root are the same on every level, counted from the root down, as long as
no two different pairs have the same hash: a level determines the padded level below it, and
that determines the level itself unless one of the two ends in equal neighbours, which
`ComputeMerkleRoot` notes.  Lists with different numbers of levels would have a leaf of the one
in the place of a hashed pair of the other.
-/

set_option autoImplicit false

namespace BitMinti.Analysis

open Model Computation.Pairs

section Levels

variable {H : Type} (hash2 : H → H → H)

/-- The pairs that `ComputeMerkleRoot` hashes, on any level. -/
inductive Hashed : List H → H × H → Prop
  | here {hashes : List H} {p : H × H} (hlen : hashes.length > 1)
      (hp : p ∈ pairs (padEven hashes)) : Hashed hashes p
  | above {hashes : List H} {p : H × H} (hlen : hashes.length > 1)
      (hp : Hashed (nextLevel hash2 hashes) p) : Hashed hashes p

/-- The list leads to the root over `n` levels without equal neighbours on any of them. -/
inductive Climbs : ℕ → List H → H → Prop
  | root (r : H) : Climbs 0 [r] r
  | level {n : ℕ} {hashes : List H} {r : H} (hlen : hashes.length > 1)
      (hne : ∀ p ∈ pairs hashes, p.1 ≠ p.2) (hup : Climbs n (nextLevel hash2 hashes) r) :
      Climbs (n + 1) hashes r

variable {hash2} {l l₁ l₂ : List H} {r : H} {n : ℕ}

/-- No pair hashed for the one list has the hash of another pair hashed for the other. -/
def NoCollision (hash2 : H → H → H) (l₁ l₂ : List H) : Prop :=
  ∀ p q, Hashed hash2 l₁ p → Hashed hash2 l₂ q → hash2 p.1 p.2 = hash2 q.1 q.2 → p = q

/-- No leaf of the one list is the hash of a pair hashed for the other. -/
def LeavesApart (hash2 : H → H → H) (l₁ l₂ : List H) : Prop :=
  ∀ x ∈ l₁, ∀ q, Hashed hash2 l₂ q → x ≠ hash2 q.1 q.2

theorem pairs_eq_of_map_eq {ps qs : List (H × H)}
    (hinj : ∀ p ∈ ps, ∀ q ∈ qs, hash2 p.1 p.2 = hash2 q.1 q.2 → p = q)
    (h : (ps.map fun p => hash2 p.1 p.2) = qs.map fun p => hash2 p.1 p.2) : ps = qs := by
  induction ps generalizing qs with
  | nil =>
    cases qs with
    | nil => rfl
    | cons q qs => simp at h
  | cons p ps ih =>
    cases qs with
    | nil => simp at h
    | cons q qs =>
      simp only [List.map_cons, List.cons.injEq] at h
      rw [hinj p (by simp) q (by simp) h.1,
        ih (fun p hp q hq => hinj p (by simp [hp]) q (by simp [hq])) h.2]

/-- **Lists with the same root over the same number of levels are the same.** -/
theorem Climbs.unique (h₁ : Climbs hash2 n l₁ r) (h₂ : Climbs hash2 n l₂ r)
    (hinj : NoCollision hash2 l₁ l₂) : l₁ = l₂ := by
  induction n generalizing l₁ l₂ with
  | zero =>
    cases h₁
    cases h₂
    rfl
  | succ n ih =>
    cases h₁ with
    | level hlen₁ hne₁ hup₁ =>
      cases h₂ with
      | level hlen₂ hne₂ hup₂ =>
        have hnext := ih hup₁ hup₂ fun p q hp hq => hinj p q (.above hlen₁ hp) (.above hlen₂ hq)
        rw [nextLevel_eq, nextLevel_eq] at hnext
        refine eq_of_pairs_padEven (pairs_eq_of_map_eq (fun p hp q hq => ?_) hnext) hne₁ hne₂
        exact hinj p q (.here hlen₁ hp) (.here hlen₂ hq)

theorem Climbs.exists_level {k : ℕ} (h : Climbs hash2 (n + (k + 1)) l r) :
    ∃ l', Climbs hash2 n l' r ∧ l' ≠ [] ∧
      (∀ x ∈ l', ∃ q, Hashed hash2 l q ∧ x = hash2 q.1 q.2) ∧
      ∀ q, Hashed hash2 l' q → Hashed hash2 l q := by
  induction k generalizing l with
  | zero =>
    cases h with
    | @level _ _ _ hlen _ hup =>
      refine ⟨nextLevel hash2 l, hup, ?_, fun x hx => ?_, fun q hq => .above hlen hq⟩
      · rw [nextLevel_eq, ← List.length_pos_iff_ne_nil, List.length_map, length_pairs_padEven]
        omega
      · rw [nextLevel_eq] at hx
        obtain ⟨q, hq, rfl⟩ := List.mem_map.mp hx
        exact ⟨q, .here hlen hq, rfl⟩
  | succ k ih =>
    cases h with
    | level hlen _ hup =>
      obtain ⟨l', hl', hne, hleaf, hsub⟩ := ih hup
      refine ⟨l', hl', hne, fun x hx => ?_, fun q hq => .above hlen (hsub q hq)⟩
      obtain ⟨q, hq, rfl⟩ := hleaf x hx
      exact ⟨q, .above hlen hq, rfl⟩

theorem Climbs.not_longer {k : ℕ} (h₁ : Climbs hash2 n l₁ r)
    (h₂ : Climbs hash2 (n + (k + 1)) l₂ r) (hinj : NoCollision hash2 l₁ l₂)
    (hleaf : LeavesApart hash2 l₁ l₂) : False := by
  obtain ⟨l', hl', hne, hpair, hsub⟩ := h₂.exists_level
  have heq : l₁ = l' := h₁.unique hl' fun p q hp hq => hinj p q hp (hsub q hq)
  obtain ⟨x, hx⟩ := List.exists_mem_of_ne_nil l' hne
  obtain ⟨q, hq, rfl⟩ := hpair x hx
  exact hleaf _ (heq ▸ hx) q hq rfl

theorem NoCollision.symm (h : NoCollision hash2 l₁ l₂) : NoCollision hash2 l₂ l₁ :=
  fun p q hp hq heq => (h q p hq hp heq.symm).symm

/-- **Lists with the same root are the same**, over any numbers of levels. -/
theorem Climbs.eq {n₁ n₂ : ℕ} (h₁ : Climbs hash2 n₁ l₁ r) (h₂ : Climbs hash2 n₂ l₂ r)
    (hinj : NoCollision hash2 l₁ l₂) (hleaf₁ : LeavesApart hash2 l₁ l₂)
    (hleaf₂ : LeavesApart hash2 l₂ l₁) : l₁ = l₂ := by
  rcases Nat.lt_trichotomy n₁ n₂ with hlt | rfl | hlt
  · obtain ⟨k, rfl⟩ := Nat.exists_eq_add_of_lt hlt
    exact (h₁.not_longer h₂ hinj hleaf₁).elim
  · exact h₁.unique h₂ hinj
  · obtain ⟨k, rfl⟩ := Nat.exists_eq_add_of_lt hlt
    exact (h₂.not_longer h₁ hinj.symm hleaf₂).elim

section Root

variable [DecidableEq H]

theorem equalNeighbours_eq_false (l : List H) :
    equalNeighbours l = false ↔ ∀ p ∈ pairs l, p.1 ≠ p.2 := by
  induction l using pairs.induct with
  | case1 => simp [equalNeighbours]
  | case2 a => simp [equalNeighbours]
  | case3 a b rest ih => simp [equalNeighbours, ih]

/-- **The loop of `ComputeMerkleRoot` climbs to the root**, when it notes nothing. -/
theorem climbs_of_computeMerkleRootLoop {mutation : Bool} {l' : List H} (hne : l ≠ [])
    (h : computeMerkleRootLoop hash2 l mutation = (l', false)) :
    mutation = false ∧ ∃ n r, l' = [r] ∧ Climbs hash2 n l r := by
  fun_induction computeMerkleRootLoop hash2 l mutation with
  | case1 l mutation hlen hlt ih =>
    have hnext : nextLevel hash2 l ≠ [] := by
      rw [nextLevel_eq, ← List.length_pos_iff_ne_nil, List.length_map, length_pairs_padEven]
      omega
    obtain ⟨hnot, n, r, hr, hclimb⟩ := ih hnext h
    rw [Bool.or_eq_false_iff, equalNeighbours_eq_false] at hnot
    exact ⟨hnot.1, n + 1, r, hr, .level hlen hnot.2 hclimb⟩
  | case2 l mutation hlen =>
    obtain ⟨rfl, hnot⟩ := Prod.mk.inj h
    have hone : l.length = 1 := by
      have hpos := List.length_pos_iff_ne_nil.mpr hne
      omega
    obtain ⟨r, rfl⟩ := List.length_eq_one_iff.mp hone
    exact ⟨hnot, 0, r, rfl, .root r⟩

theorem climbs_of_computeMerkleRoot {null : H} (hne : l ≠ [])
    (h : (computeMerkleRoot hash2 null l).2 = false) :
    ∃ n, Climbs hash2 n l (computeMerkleRoot hash2 null l).1 := by
  obtain ⟨-, n, r, hr, hclimb⟩ := climbs_of_computeMerkleRootLoop hne (Prod.ext rfl h)
  refine ⟨n, ?_⟩
  have hroot : (computeMerkleRoot hash2 null l).1 = r := by
    simp only [computeMerkleRoot, hr, List.head?_cons, Option.getD_some]
  rw [hroot]
  exact hclimb

theorem eq_of_computeMerkleRoot {null : H} (hne₁ : l₁ ≠ []) (hne₂ : l₂ ≠ [])
    (hinj : NoCollision hash2 l₁ l₂) (hleaf₁ : LeavesApart hash2 l₁ l₂)
    (hleaf₂ : LeavesApart hash2 l₂ l₁)
    (hroot : (computeMerkleRoot hash2 null l₁).1 = (computeMerkleRoot hash2 null l₂).1)
    (h₁ : (computeMerkleRoot hash2 null l₁).2 = false)
    (h₂ : (computeMerkleRoot hash2 null l₂).2 = false) : l₁ = l₂ := by
  obtain ⟨n₁, hclimb₁⟩ := climbs_of_computeMerkleRoot hne₁ h₁
  obtain ⟨n₂, hclimb₂⟩ := climbs_of_computeMerkleRoot hne₂ h₂
  rw [← hroot] at hclimb₂
  exact hclimb₁.eq hclimb₂ hinj hleaf₁ hleaf₂

end Root

end Levels

/-! ## `CheckMerkleRoot` -/

section Check

variable {hash2 : Uint256 → Uint256 → Uint256} {getTxHash : CTransaction → Uint256}

theorem merkleVerdict_ok {block : CBlock} (h : merkleVerdict hash2 getTxHash block = .ok ()) :
    blockMerkleRoot hash2 getTxHash block = (block.hashMerkleRoot, false) := by
  simp only [merkleVerdict] at h
  by_cases hroot : block.hashMerkleRoot = (blockMerkleRoot hash2 getTxHash block).1
  · rw [if_neg (not_not.mpr hroot)] at h
    cases hmutated : (blockMerkleRoot hash2 getTxHash block).2 with
    | true => simp [hmutated] at h
    | false => exact Prod.ext hroot.symm hmutated
  · rw [if_pos hroot] at h
    cases h

theorem checkMerkleRoot_eq (b : BlockInMemory hash2 getTxHash) :
    (checkMerkleRoot hash2 getTxHash b).1 = merkleVerdict hash2 getTxHash b.block := by
  unfold checkMerkleRoot
  split
  · rename_i hflag
    rw [b.checked hflag]
  · split
    · rename_i i h
      exact h.symm
    · rename_i h
      exact h.symm

/-- **A header commits to one list of transactions.**  Of two non-empty lists of
transaction ids with the same Merkle root, neither of them mutated, none differs from the other;
and `CheckMerkleRoot` accepts at most one list for a header.  It is enough that the pair hash is
injective on the pairs hashed for the two lists, and that no id of the one is the hash of a pair
hashed for the other. -/
theorem checkMerkleRoot_unique (hash2 : Uint256 → Uint256 → Uint256)
    (getTxHash : CTransaction → Uint256) {l₁ l₂ : List Uint256} (hne₁ : l₁ ≠ []) (hne₂ : l₂ ≠ [])
    (hinj : NoCollision hash2 l₁ l₂) (hleaf₁ : LeavesApart hash2 l₁ l₂)
    (hleaf₂ : LeavesApart hash2 l₂ l₁) :
    ((computeMerkleRoot hash2 0#256 l₁).1 = (computeMerkleRoot hash2 0#256 l₂).1 →
      (computeMerkleRoot hash2 0#256 l₁).2 = false →
      (computeMerkleRoot hash2 0#256 l₂).2 = false → l₁ = l₂) ∧
    ∀ b₁ b₂ : BlockInMemory hash2 getTxHash,
      b₁.block.vtx.map getTxHash = l₁ → b₂.block.vtx.map getTxHash = l₂ →
      b₁.block.toCBlockHeader = b₂.block.toCBlockHeader →
      (checkMerkleRoot hash2 getTxHash b₁).1 = .ok () →
      (checkMerkleRoot hash2 getTxHash b₂).1 = .ok () → l₁ = l₂ := by
  refine ⟨eq_of_computeMerkleRoot hne₁ hne₂ hinj hleaf₁ hleaf₂, ?_⟩
  rintro b₁ b₂ rfl rfl hheader hok₁ hok₂
  rw [checkMerkleRoot_eq] at hok₁ hok₂
  have h₁ := merkleVerdict_ok hok₁
  have h₂ := merkleVerdict_ok hok₂
  rw [← hheader] at h₂
  exact eq_of_computeMerkleRoot hne₁ hne₂ hinj hleaf₁ hleaf₂
    ((congrArg Prod.fst h₁).trans (congrArg Prod.fst h₂).symm) (congrArg Prod.snd h₁)
    (congrArg Prod.snd h₂)

end Check

/-- A pair hash that is injective on small numbers, above all of them. -/
def spreadHash (a b : Uint256) : Uint256 := (a * 1000#256 + b) + 1000#256

/-- The pairs that are hashed for three or four leaves. -/
theorem hashed_two_levels {hashes : List Uint256} {p p₁ p₂ : Uint256 × Uint256}
    (hpairs : pairs (padEven hashes) = [p₁, p₂]) (h : Hashed spreadHash hashes p) :
    p ∈ [p₁, p₂, (spreadHash p₁.1 p₁.2, spreadHash p₂.1 p₂.2)] := by
  have hnext : nextLevel spreadHash hashes = [spreadHash p₁.1 p₁.2, spreadHash p₂.1 p₂.2] := by
    rw [nextLevel_eq, hpairs]
    rfl
  cases h with
  | here _ hp =>
    rw [hpairs] at hp
    exact List.mem_append_left _ hp
  | above _ hp =>
    have hroot (a b : Uint256) : (nextLevel spreadHash [a, b]).length = 1 := by
      rw [nextLevel_eq, padEven_cons_cons, padEven_nil, pairs_cons_cons, pairs_nil]
      rfl
    rw [hnext] at hp
    cases hp with
    | here _ hp =>
      rw [padEven_cons_cons, padEven_nil, pairs_cons_cons, pairs_nil] at hp
      exact List.mem_cons_of_mem _ (List.mem_cons_of_mem _ hp)
    | above _ hp =>
      cases hp with
      | here hlen _ => exact absurd (hroot _ _) hlen.ne'
      | above hlen _ => exact absurd (hroot _ _) hlen.ne'

theorem checkMerkleRoot_unique_three :
    (computeMerkleRoot spreadHash 0#256 [1#256, 2#256, 3#256]).2 = false ∧
    (computeMerkleRoot spreadHash 0#256 [1#256, 2#256, 3#256, 4#256]).2 = false ∧
    (computeMerkleRoot spreadHash 0#256 [1#256, 2#256, 3#256]).1 ≠
      (computeMerkleRoot spreadHash 0#256 [1#256, 2#256, 3#256, 4#256]).1 := by
  have hinj : NoCollision spreadHash [1#256, 2#256, 3#256] [1#256, 2#256, 3#256, 4#256] := by
    intro p q hp hq
    have h : ∀ p ∈ [(1#256, 2#256), (3#256, 3#256), (2002#256, 4003#256)],
        ∀ q ∈ [(1#256, 2#256), (3#256, 4#256), (2002#256, 4004#256)],
          spreadHash p.1 p.2 = spreadHash q.1 q.2 → p = q := by simp [spreadHash]
    exact h p (hashed_two_levels rfl hp) q (hashed_two_levels rfl hq)
  have hleaf₁ : LeavesApart spreadHash [1#256, 2#256, 3#256] [1#256, 2#256, 3#256, 4#256] := by
    intro x hx q hq
    have h : ∀ x ∈ [1#256, 2#256, 3#256],
        ∀ q ∈ [(1#256, 2#256), (3#256, 4#256), (2002#256, 4004#256)],
          x ≠ spreadHash q.1 q.2 := by simp [spreadHash]
    exact h x hx q (hashed_two_levels rfl hq)
  have hleaf₂ : LeavesApart spreadHash [1#256, 2#256, 3#256, 4#256] [1#256, 2#256, 3#256] := by
    intro x hx q hq
    have h : ∀ x ∈ [1#256, 2#256, 3#256, 4#256],
        ∀ q ∈ [(1#256, 2#256), (3#256, 3#256), (2002#256, 4003#256)],
          x ≠ spreadHash q.1 q.2 := by simp [spreadHash]
    exact h x hx q (hashed_two_levels rfl hq)
  obtain ⟨h₁, h₂⟩ : (computeMerkleRoot spreadHash 0#256 [1#256, 2#256, 3#256]).2 = false ∧
      (computeMerkleRoot spreadHash 0#256 [1#256, 2#256, 3#256, 4#256]).2 = false := by
    simp [computeMerkleRoot, computeMerkleRootLoop, nextLevel, pushBackOdd, sha256D64,
      equalNeighbours, spreadHash]
  refine ⟨h₁, h₂, fun hroot => ?_⟩
  have heq := (checkMerkleRoot_unique spreadHash (fun tx => BitVec.setWidth 256 tx.nLockTime)
    (by simp) (by simp) hinj hleaf₁ hleaf₂).1 hroot h₁ h₂
  exact absurd heq (by decide)

end BitMinti.Analysis
