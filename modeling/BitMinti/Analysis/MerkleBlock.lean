import BitMinti.Model.MerkleBlock
import BitMinti.Analysis.MerklePath

/-!
# Partial Merkle trees prove what they report

What `TraverseAndBuild` stores below a node is described by `storedBits` and `storedHashes`, and
the positions of the matched transactions below it by `matchedIn`.  `TraverseAndExtract` consumes
exactly what was stored and arrives at the node, whatever follows in the lists.  Against a tree of
unknown origin only the way up is used: a traversal that arrives at a node of the list's tree has
visited the list's own nodes.

SOURCE: src/src/merkleblock.cpp:12-28, 57-183
-/

set_option autoImplicit false

namespace BitMinti.Analysis

open Model Computation.PaddedTree

/-! ## Bits and bytes -/

/-- The bit `q` of a list of bytes. -/
def byteBit (bytes : List (BitVec 8)) (q : ℕ) : Bool := (bytes.getD (q / 8) 0#8).getLsbD (q % 8)

theorem length_setBit (bits : List Bool) (ret : List (BitVec 8)) (p : ℕ) :
    (setBit bits ret p).length = ret.length := List.length_modify ..

theorem byteBit_setBit {bits : List Bool} {ret : List (BitVec 8)} {p : ℕ}
    (hp : p / 8 < ret.length) (q : ℕ) :
    byteBit (setBit bits ret p) q = (byteBit ret q || (decide (q = p) && bits.getD p false)) := by
  by_cases hq : q / 8 = p / 8
  · have hbit : decide (q % 8 < 8) = true := decide_eq_true (Nat.mod_lt q (by norm_num))
    have hsame : (!decide (q % 8 < p % 8) && decide (q % 8 - p % 8 = 0)) = decide (q = p) := by
      by_cases h : q = p
      · subst h
        simp
      · have : q % 8 ≠ p % 8 := by omega
        by_cases hlt : q % 8 < p % 8
        · simp [hlt, h]
        · have : q % 8 - p % 8 ≠ 0 := by omega
          simp [h, this]
    simp only [byteBit, setBit, hq, List.getD_eq_getElem?_getD, List.getElem?_modify_eq,
      List.getElem?_eq_getElem hp, Option.map_eq_map, Option.map_some, Option.getD_some,
      BitVec.getLsbD_or,
      BitVec.getLsbD_shiftLeft, BitVec.getLsbD_setWidth, BitVec.getLsbD_ofBool, hbit]
    rw [← hsame]
    have hsub : decide (q % 8 - p % 8 < 8) = true := decide_eq_true (by omega)
    rw [hsub, Bool.true_and, Bool.true_and, Bool.and_assoc]
  · have hne : decide (q = p) = false := decide_eq_false (by rintro rfl; exact hq rfl)
    simp only [byteBit, setBit, List.getD_eq_getElem?_getD, hne, Bool.false_and, Bool.or_false,
      List.getElem?_modify_ne _ _ (fun h => hq h.symm)]

theorem byteBit_foldl_setBit (bits : List Bool) (ret : List (BitVec 8)) (k : ℕ)
    (hk : k ≤ ret.length * 8) (hret : ∀ q, byteBit ret q = false) :
    ((List.range k).foldl (setBit bits) ret).length = ret.length ∧
      ∀ q, byteBit ((List.range k).foldl (setBit bits) ret) q =
        (decide (q < k) && bits.getD q false) := by
  induction k with
  | zero =>
    refine ⟨rfl, fun q => ?_⟩
    simpa using hret q
  | succ k ih =>
    obtain ⟨hlen, hbits⟩ := ih (by omega)
    rw [List.range_succ, List.foldl_append, List.foldl_cons, List.foldl_nil]
    refine ⟨(length_setBit ..).trans hlen, fun q => ?_⟩
    rw [byteBit_setBit (by omega), hbits]
    by_cases hq : q = k
    · subst hq
      simp
    · have : (q < k + 1) = (q < k) := by rw [eq_iff_iff]; omega
      simp only [hq, this, decide_false, Bool.false_and, Bool.or_false]

theorem byteBit_replicate_zero (n q : ℕ) : byteBit (List.replicate n 0#8) q = false := by
  rw [byteBit, List.getD_eq_getElem?_getD, List.getElem?_replicate]
  split <;> simp

theorem bytesToBits_eq (bytes : List (BitVec 8)) :
    bytesToBits bytes = (List.range (bytes.length * 8)).map (byteBit bytes) := by
  refine List.map_congr_left fun p _ => ?_
  have hpow : (1#8 <<< (p % 8)) = BitVec.twoPow 8 (p % 8) := rfl
  rw [byteBit, hpow, BitVec.and_twoPow]
  have hne : BitVec.twoPow 8 (p % 8) ≠ 0#8 := by
    have hlt : p % 8 < 8 := Nat.mod_lt p (by norm_num)
    intro h
    have := congrArg (fun b => b.getLsbD (p % 8)) h
    simp [hlt] at this
  cases (bytes.getD (p / 8) 0#8).getLsbD (p % 8) <;> simp [hne]

/-- **Writing bits as bytes and reading them pads them with `false` to whole bytes.** -/
theorem bytesToBits_bitsToBytes (bits : List Bool) :
    bytesToBits (bitsToBytes bits) =
      bits ++ List.replicate ((bits.length + 7) / 8 * 8 - bits.length) false := by
  obtain ⟨hlen, hbits⟩ := byteBit_foldl_setBit bits (List.replicate _ 0#8) bits.length
    (by rw [List.length_replicate]; omega) (byteBit_replicate_zero ((bits.length + 7) / 8))
  rw [List.length_replicate] at hlen
  rw [bytesToBits_eq, bitsToBytes, hlen]
  refine List.ext_getElem? fun q => ?_
  rw [List.getElem?_map, List.getElem?_append, List.getElem?_replicate]
  by_cases hq : q < bits.length
  · rw [List.getElem?_range (by omega), if_pos hq, Option.map_some, hbits, decide_eq_true hq,
      Bool.true_and, List.getD_eq_getElem _ _ hq, List.getElem?_eq_getElem hq]
  · rw [if_neg hq]
    by_cases hlt : q < (bits.length + 7) / 8 * 8
    · rw [List.getElem?_range hlt, Option.map_some, hbits, decide_eq_false hq, Bool.false_and,
        if_pos (by omega)]
    · rw [List.getElem?_eq_none (by rw [List.length_range]; omega), Option.map_none,
        if_neg (by omega)]

/-! ## What is stored below a node -/

section Stored

variable {H : Type} (hash2 : H → H → H) (null : H) (l : List H) (vMatch : List Bool)

/-- The node of the tree over `l`. -/
def treeNode (height pos : ℕ) : H := node hash2 (fun i => l.getD i null) l.length height pos

/-- The positions of the matched transactions below a node. -/
def matchedIn (n height pos : ℕ) : List ℕ :=
  (List.range' (pos * 2 ^ height) (2 ^ height)).filter fun p =>
    decide (p < n) && vMatch.getD p false

/-- The flags that are stored for a node and what is below it. -/
def storedBits (n : ℕ) : ℕ → ℕ → List Bool
  | 0, pos => [parentOfMatch vMatch n 0 pos]
  | height + 1, pos =>
    if parentOfMatch vMatch n (height + 1) pos then
      true :: (storedBits n height (pos * 2) ++
        if pos * 2 + 1 < width n height then storedBits n height (pos * 2 + 1) else [])
    else [false]

/-- The hashes that are stored for a node and what is below it. -/
def storedHashes : ℕ → ℕ → List H
  | 0, pos => [treeNode hash2 null l 0 pos]
  | height + 1, pos =>
    if parentOfMatch vMatch l.length (height + 1) pos then
      storedHashes height (pos * 2) ++
        if pos * 2 + 1 < width l.length height then storedHashes height (pos * 2 + 1) else []
    else [treeNode hash2 null l (height + 1) pos]

variable {hash2 null l vMatch}

theorem treeNode_succ (height pos : ℕ) :
    treeNode hash2 null l (height + 1) pos =
      hash2 (treeNode hash2 null l height (pos * 2))
        (if pos * 2 + 1 < width l.length height then treeNode hash2 null l height (pos * 2 + 1)
          else treeNode hash2 null l height (pos * 2)) := by
  rw [Nat.mul_comm pos 2]
  rfl

theorem first_lt_width {n height pos : ℕ} (h : pos < width n (height + 1)) :
    pos * 2 < width n height :=
  Nat.mul_comm 2 pos ▸ left_lt_width h

theorem parentOfMatch_eq_true_iff {n height pos : ℕ} :
    parentOfMatch vMatch n height pos = true ↔ matchedIn vMatch n height pos ≠ [] := by
  rw [parentOfMatch, matchedIn, List.any_eq_true, Ne, List.filter_eq_nil_iff]
  simp only [not_forall, not_not, exists_prop]

theorem matched_beyond {n start : ℕ} (h : n ≤ start) (len : ℕ) :
    ((List.range' start len).filter fun p => decide (p < n) && vMatch.getD p false) = [] := by
  refine List.filter_eq_nil_iff.mpr fun p hp => ?_
  have hge := (List.mem_range'_1.mp hp).1
  rw [decide_eq_false (by omega), Bool.false_and]
  exact Bool.false_ne_true

theorem matchedIn_eq_nil {n height pos : ℕ} (h : width n height ≤ pos) :
    matchedIn vMatch n height pos = [] :=
  matched_beyond (Nat.le_of_not_lt fun hlt => Nat.not_lt.mpr h (lt_width_iff.mpr hlt)) _

/-- The leaves below a node are those below its first child, then those below its
second. -/
theorem leaves_below (height pos : ℕ) :
    pos * 2 ^ (height + 1) = pos * 2 * 2 ^ height ∧
      (pos * 2 + 1) * 2 ^ height = pos * 2 * 2 ^ height + 2 ^ height ∧
      2 ^ (height + 1) = 2 ^ height + 2 ^ height := by
  refine ⟨?_, Nat.succ_mul .., ?_⟩
  · rw [pow_succ', Nat.mul_assoc]
  · rw [pow_succ', Nat.two_mul]

theorem matchedIn_zero (n pos : ℕ) :
    matchedIn vMatch n 0 pos = if parentOfMatch vMatch n 0 pos then [pos] else [] := by
  rw [matchedIn, parentOfMatch, pow_zero, Nat.mul_one, List.range'_one, List.filter_singleton,
    List.any_cons, List.any_nil, Bool.or_false, Bool.cond_eq_ite]

theorem matchedIn_succ (n height pos : ℕ) :
    matchedIn vMatch n (height + 1) pos =
      matchedIn vMatch n height (pos * 2) ++ matchedIn vMatch n height (pos * 2 + 1) := by
  obtain ⟨hstart, hnext, hpow⟩ := leaves_below height pos
  rw [matchedIn, matchedIn, matchedIn, ← List.filter_append, hstart, hnext, hpow,
    List.range'_append_1]

theorem matchedIn_succ_ite (n height pos : ℕ) :
    matchedIn vMatch n (height + 1) pos =
      matchedIn vMatch n height (pos * 2) ++
        if pos * 2 + 1 < width n height then matchedIn vMatch n height (pos * 2 + 1) else [] := by
  rw [matchedIn_succ]
  split
  · rfl
  · rename_i hlt
    have hnil : matchedIn vMatch n height (pos * 2 + 1) = [] := matchedIn_eq_nil (by omega)
    rw [hnil]

variable (hash2 null l vMatch) in
theorem length_storedHashes_le (height pos : ℕ) (hpos : pos < width l.length height) :
    (storedHashes hash2 null l vMatch height pos).length ≤ 2 ^ height ∧
      pos * 2 ^ height + (storedHashes hash2 null l vMatch height pos).length ≤ l.length := by
  induction height generalizing pos with
  | zero =>
    rw [width_zero] at hpos
    simp only [storedHashes, List.length_singleton, pow_zero]
    omega
  | succ height ih =>
    obtain ⟨hstart, hnext, hpow⟩ := leaves_below height pos
    have hone := Nat.two_pow_pos height
    rw [storedHashes]
    split
    · obtain ⟨hl, hl'⟩ := ih (pos * 2) (first_lt_width hpos)
      rw [List.length_append, hstart, hpow]
      split
      · rename_i hright
        obtain ⟨hr, hr'⟩ := ih (pos * 2 + 1) hright
        rw [hnext] at hr'
        omega
      · rw [List.length_nil]
        omega
    · rw [lt_width_iff] at hpos
      rw [List.length_singleton]
      omega

variable (hash2 null l vMatch) in
theorem length_storedHashes_le_storedBits (height pos : ℕ) :
    (storedHashes hash2 null l vMatch height pos).length ≤
      (storedBits vMatch l.length height pos).length := by
  induction height generalizing pos with
  | zero => rfl
  | succ height ih =>
    rw [storedHashes, storedBits]
    split
    · rw [List.length_append, List.length_cons, List.length_append]
      have hl := ih (pos * 2)
      split
      · have hr := ih (pos * 2 + 1)
        omega
      · simp only [List.length_nil]
        omega
    · rfl

/-! ## Building -/

theorem calcTreeWidth_eq : calcTreeWidth = width := rfl

theorem calcHash_eq (height pos : ℕ) (hpos : pos < width l.length height) :
    calcHash hash2 l l.length height pos = some (treeNode hash2 null l height pos) := by
  induction height generalizing pos with
  | zero =>
    rw [width_zero] at hpos
    rw [calcHash, treeNode, node, List.getD_eq_getElem _ _ hpos, List.getElem?_eq_getElem hpos]
  | succ height ih =>
    have hleft := first_lt_width hpos
    rw [calcHash, ih _ hleft, treeNode_succ, calcTreeWidth_eq]
    simp only [Option.bind_eq_bind, Option.bind_some]
    by_cases hright : pos * 2 + 1 < width l.length height
    · rw [if_pos hright, if_pos hright, ih _ hright, Option.bind_some]
    · rw [if_neg hright, if_neg hright]

theorem storeHash_eq {t : CPartialMerkleTree H} (ht : t.nTransactions = l.length)
    {height pos : ℕ} (hpos : pos < width l.length height) :
    storeHash hash2 l vMatch height pos t = some { t with
      vBits := t.vBits ++ [parentOfMatch vMatch l.length height pos]
      vHash := t.vHash ++ [treeNode hash2 null l height pos] } := by
  rw [storeHash, ht, calcHash_eq height pos hpos]
  rfl

variable (null) in
/-- **`TraverseAndBuild` appends what is to be stored below a node.** -/
theorem traverseAndBuild_eq (height pos : ℕ) (hpos : pos < width l.length height)
    (t : CPartialMerkleTree H) (ht : t.nTransactions = l.length) :
    traverseAndBuild hash2 l vMatch height pos t = some { t with
      vBits := t.vBits ++ storedBits vMatch l.length height pos
      vHash := t.vHash ++ storedHashes hash2 null l vMatch height pos } := by
  induction height generalizing pos t with
  | zero => rw [traverseAndBuild, storeHash_eq ht hpos, storedBits, storedHashes]
  | succ height ih =>
    rw [traverseAndBuild, storedBits, storedHashes, ht, calcTreeWidth_eq]
    by_cases hmatch : parentOfMatch vMatch l.length (height + 1) pos = true
    · have hleft := first_lt_width hpos
      rw [if_pos hmatch, if_pos hmatch, if_pos hmatch, ih _ hleft _ rfl]
      simp only [Option.bind_eq_bind, Option.bind_some]
      by_cases hright : pos * 2 + 1 < width l.length height
      · rw [if_pos hright, if_pos hright, if_pos hright, ih _ hright _ rfl]
        simp only [List.append_assoc, List.cons_append, List.nil_append]
      · rw [if_neg hright, if_neg hright, if_neg hright]
        simp only [List.append_nil, List.append_assoc, List.cons_append, List.nil_append]
    · rw [if_neg hmatch, if_neg hmatch, if_neg hmatch, storeHash_eq ht hpos,
        Bool.eq_false_of_not_eq_true hmatch, ht]

end Stored

/-! ## The height of the tree -/

theorem treeHeightLoop_spec {n : ℕ} (hn : 0 < n) (fuel nHeight : ℕ)
    (hfuel : n ≤ 2 ^ (nHeight + fuel)) (hmin : ∀ k < nHeight, 1 < width n k) :
    width n (treeHeightLoop n fuel nHeight) = 1 ∧
      ∀ k < treeHeightLoop n fuel nHeight, 1 < width n k := by
  induction fuel generalizing nHeight with
  | zero =>
    refine ⟨Nat.le_antisymm (Nat.le_of_not_lt fun h => ?_) (width_pos hn _), hmin⟩
    rw [lt_width_iff] at h
    rw [treeHeightLoop, Nat.one_mul] at h
    rw [Nat.add_zero] at hfuel
    exact absurd hfuel (by omega)
  | succ fuel ih =>
    rw [treeHeightLoop]
    split
    · rename_i hlt
      refine ih (nHeight + 1) (by rwa [Nat.add_right_comm]) fun k hk => ?_
      rcases Nat.lt_succ_iff_lt_or_eq.mp hk with hk | rfl
      · exact hmin k hk
      · exact hlt
    · rename_i hle
      exact ⟨Nat.le_antisymm (Nat.le_of_not_lt hle) (width_pos hn _), hmin⟩

theorem treeHeight_spec {n : ℕ} (hn : 0 < n) :
    width n (treeHeight n) = 1 ∧ ∀ k < treeHeight n, 1 < width n k :=
  treeHeightLoop_spec hn n 0 (by rw [Nat.zero_add]; exact Nat.lt_two_pow_self.le)
    fun _ hk => absurd hk (Nat.not_lt_zero _)

theorem computeMerkleRoot_eq_treeNode {H : Type} [DecidableEq H] (hash2 : H → H → H) (null : H)
    {l : List H} (hl : l ≠ []) :
    (computeMerkleRoot hash2 null l).1 = treeNode hash2 null l (treeHeight l.length) 0 := by
  obtain ⟨hK, hmin⟩ := treeHeight_spec (List.length_pos_of_ne_nil hl)
  exact computeMerkleRoot_eq_node null l hK hmin

/-! ## Extracting what was stored -/

section Extract

variable {H : Type}

/-- What a traversal has not used yet. -/
structure Unused (t : CPartialMerkleTree H) (s : Traversal H) (bits : List Bool)
    (hashes : List H) : Prop where
  bits_eq : t.vBits.drop s.nBitsUsed = bits
  hashes_eq : t.vHash.drop s.nHashUsed = hashes

/-- The state after some flags and hashes have been used and some transactions found. -/
def advanced (s : Traversal H) (bits hashes : ℕ) (found : List H) (positions : List ℕ) :
    Traversal H :=
  { s with
    nBitsUsed := s.nBitsUsed + bits
    nHashUsed := s.nHashUsed + hashes
    vMatch := s.vMatch ++ found
    vnIndex := s.vnIndex ++ positions }

theorem advanced_advanced (s : Traversal H) (b b' h h' : ℕ) (m m' : List H) (i i' : List ℕ) :
    advanced (advanced s b h m i) b' h' m' i' =
      advanced s (b + b') (h + h') (m ++ m') (i ++ i') := by
  simp only [advanced, Nat.add_assoc, List.append_assoc]

variable {t : CPartialMerkleTree H}

theorem Unused.after {s : Traversal H} (bits : List Bool)
    (hashes : List H) {bits' : List Bool} {hashes' : List H}
    (hu : Unused t s (bits ++ bits') (hashes ++ hashes')) (found : List H) (positions : List ℕ) :
    Unused t (advanced s bits.length hashes.length found positions) bits' hashes' where
  bits_eq := by
    rw [advanced, ← List.drop_drop, hu.bits_eq, List.drop_left]
  hashes_eq := by
    rw [advanced, ← List.drop_drop, hu.hashes_eq, List.drop_left]

variable {bits : List Bool}

variable {hashes : List H}

theorem Unused.nextBit {s : Traversal H} {b : Bool}
    (hu : Unused t s (b :: bits) hashes) :
    t.vBits[s.nBitsUsed]? = some b := by
  have h := congrArg (fun bits => bits[0]?) hu.bits_eq
  rwa [List.getElem?_drop, List.getElem?_cons_zero] at h

theorem Unused.afterBit {s : Traversal H} {b : Bool}
    (hu : Unused t s (b :: bits) hashes) :
    Unused t (advanced s 1 0 [] []) bits hashes :=
  Unused.after [b] [] hu [] []

theorem Unused.nextHash {s : Traversal H} {hash : H}
    (hu : Unused t s bits (hash :: hashes)) :
    t.vHash[s.nHashUsed]? = some hash := by
  have h := congrArg (fun hashes => hashes[0]?) hu.hashes_eq
  rwa [List.getElem?_drop, List.getElem?_cons_zero] at h

theorem useBit_eq (s : Traversal H) :
    { s with nBitsUsed := s.nBitsUsed + 1 } = advanced s 1 0 [] [] := by
  simp only [advanced, Nat.add_zero, List.append_nil]

theorem useHash_eq (null : H) {s : Traversal H} {hash : H}
    (hu : Unused t s bits (hash :: hashes)) (matched : Bool)
    (pos : ℕ) :
    useHash null t matched pos s =
      (hash, advanced s 0 1 (if matched then [hash] else []) (if matched then [pos] else [])) := by
  rw [useHash, hu.nextHash]
  cases matched <;> simp [advanced]

variable {hash2 : H → H → H} {null : H} {l : List H} {vMatch : List Bool}

theorem treeNode_injOn (hinj : ∀ a b c d, hash2 a b = hash2 c d → a = c ∧ b = d)
    (hnodup : l.Nodup) {height i j : ℕ} (hi : i < width l.length height)
    (hj : j < width l.length height)
    (h : treeNode hash2 null l height i = treeNode hash2 null l height j) : i = j := by
  refine node_injOn hinj (fun i j hi hj heq => ?_) hi hj h
  rw [List.getD_eq_getElem _ _ hi, List.getD_eq_getElem _ _ hj] at heq
  exact (hnodup.getElem_inj_iff).mp heq

/-- **`TraverseAndExtract` uses what was stored below a node, arrives at the node and
finds the matched transactions below it.**  Neighbours are different nodes, so that the comparison
of the two branches does not fail. -/
theorem traverseAndExtract_eq [DecidableEq H]
    (hinj : ∀ a b c d, hash2 a b = hash2 c d → a = c ∧ b = d) (hnodup : l.Nodup)
    (ht : t.nTransactions = l.length) (height pos : ℕ)
    (hpos : pos < width l.length height) (s : Traversal H) (bits : List Bool) (hashes : List H)
    (hu : Unused t s (storedBits vMatch l.length height pos ++ bits)
      (storedHashes hash2 null l vMatch height pos ++ hashes)) :
    traverseAndExtract hash2 null t height pos s =
      (treeNode hash2 null l height pos,
        advanced s (storedBits vMatch l.length height pos).length
          (storedHashes hash2 null l vMatch height pos).length
          ((matchedIn vMatch l.length height pos).map (l.getD · null))
          (matchedIn vMatch l.length height pos)) := by
  induction height generalizing pos s bits hashes with
  | zero =>
    rw [storedBits, storedHashes] at hu
    have hhash := Unused.afterBit hu
    rw [traverseAndExtract, hu.nextBit]
    dsimp only
    rw [useBit_eq, useHash_eq null hhash, advanced_advanced, matchedIn_zero, storedBits,
      storedHashes]
    cases parentOfMatch vMatch l.length 0 pos
    · rfl
    · rfl
  | succ height ih =>
    rw [storedBits, storedHashes] at hu ⊢
    by_cases hmatch : parentOfMatch vMatch l.length (height + 1) pos = true
    · rw [if_pos hmatch, if_pos hmatch] at hu ⊢
      rw [List.cons_append, List.append_assoc, List.append_assoc] at hu
      have hleft := first_lt_width hpos
      have huleft := Unused.afterBit hu
      rw [traverseAndExtract, hu.nextBit]
      dsimp only
      rw [useBit_eq, ih _ hleft _ _ _ huleft, treeNode_succ, matchedIn_succ_ite, ht,
        calcTreeWidth_eq]
      dsimp only
      have huright := Unused.after _ _ huleft
        ((matchedIn vMatch l.length height (pos * 2)).map (l.getD · null))
        (matchedIn vMatch l.length height (pos * 2))
      by_cases hright : pos * 2 + 1 < width l.length height
      · rw [if_pos hright, if_pos hright] at huright
        rw [if_pos hright, ih _ hright _ _ _ huright, if_neg fun h => ?_, advanced_advanced,
          advanced_advanced]
        · simp only [if_pos hright, List.length_cons, List.length_append,
            List.nil_append, List.map_append, Nat.zero_add, Nat.add_assoc, Nat.add_comm 1]
        · exact absurd (treeNode_injOn hinj hnodup hright hleft h) (by omega)
      · rw [if_neg hright, advanced_advanced]
        simp only [if_neg hright, List.append_nil, List.length_cons,
          List.nil_append, Nat.zero_add, Nat.add_comm 1]
    · have hnil : matchedIn vMatch l.length (height + 1) pos = [] :=
        not_not.mp fun h => hmatch (parentOfMatch_eq_true_iff.mpr h)
      rw [if_neg hmatch, if_neg hmatch] at hu ⊢
      have hhash := Unused.afterBit hu
      rw [traverseAndExtract, hu.nextBit]
      dsimp only
      rw [useBit_eq, useHash_eq null hhash, advanced_advanced, hnil]
      rfl

end Extract

/-! ## A hash without collisions -/

/-- Hashes as the trees that were hashed. -/
inductive FreeHash where
  | txid (n : ℕ)
  | pair (left right : FreeHash)
  deriving DecidableEq

theorem FreeHash.pair_injective (a b c d : FreeHash) (h : pair a b = pair c d) :
    a = c ∧ b = d := by
  cases h
  exact ⟨rfl, rfl⟩

/-! ## A tree that was built -/

/-- The positions that are matched. -/
def matchedPositions {H : Type} (vTxid : List H) (vMatch : List Bool) : List ℕ :=
  (List.range vTxid.length).filter fun p => vMatch.getD p false

theorem matchedIn_root {H : Type} {vTxid : List H} (vMatch : List Bool) {K : ℕ}
    (hK : width vTxid.length K = 1) :
    matchedIn vMatch vTxid.length K 0 = matchedPositions vTxid vMatch := by
  have hle : vTxid.length ≤ 2 ^ K := Nat.le_of_not_lt fun h => by
    have : 1 < width vTxid.length K := lt_width_iff.mpr (by rwa [Nat.one_mul])
    omega
  obtain ⟨m, hm⟩ := Nat.exists_eq_add_of_le hle
  rw [matchedIn, matchedPositions, Nat.zero_mul, hm, ← List.range'_append_1, List.filter_append,
    List.range_eq_range', matched_beyond (Nat.zero_add _).ge, List.append_nil]
  refine List.filter_congr fun p hp => ?_
  have hlt := (List.mem_range'_1.mp hp).2
  rw [decide_eq_true (by omega), Bool.true_and]

theorem extractMatches_of_traversal {H : Type} [DecidableEq H] {hash2 : H → H → H} {null : H}
    {t : CPartialMerkleTree H} {vnIndex : List ℕ} {root : H} {s : Traversal H}
    (hpos : 0 < t.nTransactions)
    (hmax : t.nTransactions ≤ MAX_BLOCK_WEIGHT / MIN_TRANSACTION_WEIGHT)
    (hhashes : t.vHash.length ≤ t.nTransactions) (hbits : t.vHash.length ≤ t.vBits.length)
    (htraverse : traverseAndExtract hash2 null t (treeHeight t.nTransactions) 0
      { vnIndex := vnIndex, fBad := t.fBad } = (root, s))
    (hbad : s.fBad = false) (hbitsUsed : (s.nBitsUsed + 7) / 8 = (t.vBits.length + 7) / 8)
    (hhashUsed : s.nHashUsed = t.vHash.length) :
    extractMatches hash2 null t vnIndex = ⟨root, s.vMatch, s.vnIndex, false⟩ := by
  rw [extractMatches, if_neg (by omega), if_neg (by omega), if_neg (by omega), if_neg (by omega),
    htraverse]
  dsimp only
  rw [hbad, if_neg Bool.false_ne_true, if_neg (not_not.mpr hbitsUsed),
    if_neg (not_not.mpr hhashUsed)]

/-- **What is extracted from a tree that was built, written and read is the Merkle root of the
transactions, the matched transactions and their positions in increasing order.**  The positions are
appended to the ones that the caller passed.
SOURCE: src/src/merkleblock.cpp:135-183 -/
theorem extractMatches_built {H : Type} [DecidableEq H] (hash2 : H → H → H) (null : H)
    (hinj : ∀ a b c d, hash2 a b = hash2 c d → a = c ∧ b = d) (vTxid : List H)
    (vMatch : List Bool) (vnIndex : List ℕ) (hne : vTxid ≠ []) (hnodup : vTxid.Nodup)
    (hmax : vTxid.length ≤ MAX_BLOCK_WEIGHT / MIN_TRANSACTION_WEIGHT) :
    ∃ t, CPartialMerkleTree.ofTxids hash2 vTxid vMatch = some t ∧
      extractMatches hash2 null t.unserialize vnIndex =
        { root := (computeMerkleRoot hash2 null vTxid).1
          vMatch := (matchedPositions vTxid vMatch).map (vTxid.getD · null)
          vnIndex := vnIndex ++ matchedPositions vTxid vMatch
          fBad := false } := by
  have hpos := List.length_pos_of_ne_nil hne
  obtain ⟨hK, -⟩ := treeHeight_spec hpos
  have hroot : 0 < width vTxid.length (treeHeight vTxid.length) := by omega
  refine ⟨_, traverseAndBuild_eq null _ 0 hroot _ rfl, ?_⟩
  have hhashes := (length_storedHashes_le hash2 null vTxid vMatch _ 0 hroot).2
  have hbits := length_storedHashes_le_storedBits hash2 null vTxid vMatch
    (treeHeight vTxid.length) 0
  rw [Nat.zero_mul, Nat.zero_add] at hhashes
  simp only [List.nil_append, CPartialMerkleTree.unserialize, bytesToBits_bitsToBytes]
  -- the padding fills the last byte, which is all that the count of flags may miss
  have hpad : ∀ n : ℕ, (0 + n + 7) / 8 = (n + ((n + 7) / 8 * 8 - n) + 7) / 8 := by omega
  refine Eq.trans (extractMatches_of_traversal hpos hmax hhashes
    (by rw [List.length_append]; exact Nat.le_add_right_of_le hbits)
    (traverseAndExtract_eq hinj hnodup rfl _ 0 hroot _ _ [] ⟨rfl, (List.append_nil _).symm⟩) rfl
    ?_ (Nat.zero_add _)) ?_
  · rw [List.length_append, List.length_replicate]
    exact hpad _
  · rw [matchedIn_root vMatch hK, computeMerkleRoot_eq_treeNode hash2 null hne]
    rfl

theorem extractMatches_built_three : ∃ t,
    CPartialMerkleTree.ofTxids FreeHash.pair [.txid 1, .txid 2, .txid 3] [false, true, true] =
        some t ∧
      extractMatches FreeHash.pair (.txid 0) t.unserialize [] =
        { root := (computeMerkleRoot FreeHash.pair (.txid 0) [.txid 1, .txid 2, .txid 3]).1
          vMatch := [.txid 2, .txid 3]
          vnIndex := [1, 2]
          fBad := false } :=
  extractMatches_built _ _ FreeHash.pair_injective _ _ _ (by simp) (by decide) (by decide)

/-! ## A tree of unknown origin -/

section Sound

variable {H : Type} {null : H} {t : CPartialMerkleTree H}

/-- The transactions found between two states are transactions of `l` at the positions that were
noted for them. -/
def FoundIn (l : List H) (s s' : Traversal H) : Prop :=
  ∃ found positions, s'.vMatch = s.vMatch ++ found ∧ s'.vnIndex = s.vnIndex ++ positions ∧
    List.Forall₂ (fun txid p => l[p]? = some txid) found positions

theorem FoundIn.refl {l : List H} {s s' : Traversal H} (hmatch : s'.vMatch = s.vMatch)
    (hindex : s'.vnIndex = s.vnIndex) : FoundIn l s s' :=
  ⟨[], [], by rw [hmatch, List.append_nil], by rw [hindex, List.append_nil], .nil⟩

theorem FoundIn.trans {l : List H} {s₁ s₂ s₃ : Traversal H} (h₁ : FoundIn l s₁ s₂)
    (h₂ : FoundIn l s₂ s₃) : FoundIn l s₁ s₃ := by
  obtain ⟨f₁, p₁, hm₁, hi₁, hf₁⟩ := h₁
  obtain ⟨f₂, p₂, hm₂, hi₂, hf₂⟩ := h₂
  refine ⟨f₁ ++ f₂, p₁ ++ p₂, ?_, ?_, List.rel_append hf₁ hf₂⟩
  · rw [hm₂, hm₁, List.append_assoc]
  · rw [hi₂, hi₁, List.append_assoc]

theorem useHash_foundIn {l : List H} {matched : Bool} {pos : ℕ} {s : Traversal H}
    (hbad : (useHash null t matched pos s).2.fBad = false)
    (hhash : matched = true → l[pos]? = some (useHash null t matched pos s).1) :
    s.fBad = false ∧ FoundIn l s (useHash null t matched pos s).2 := by
  rw [useHash] at hbad hhash ⊢
  split at hbad
  · cases hbad
  · rename_i hash hnext
    rw [hnext] at hhash
    refine ⟨hbad, ?_⟩
    cases matched with
    | false => exact .refl rfl rfl
    | true => exact ⟨[hash], [pos], rfl, rfl, .cons (hhash rfl) .nil⟩

variable [DecidableEq H] {hash2 : H → H → H}

/-- **A traversal that arrives at a node of the tree over `l` has found transactions of
`l`, and was not bad before.**  The hash is injective, so the two hashes combined are the node's
children, also where the second child is a copy of the first. -/
theorem traverseAndExtract_foundIn (hinj : ∀ a b c d, hash2 a b = hash2 c d → a = c ∧ b = d)
    {l : List H} (hlen : t.nTransactions = l.length) (height pos : ℕ)
    (hpos : pos < width l.length height) (s : Traversal H)
    (hbad : (traverseAndExtract hash2 null t height pos s).2.fBad = false)
    (hnode : (traverseAndExtract hash2 null t height pos s).1 = treeNode hash2 null l height pos) :
    s.fBad = false ∧ FoundIn l s (traverseAndExtract hash2 null t height pos s).2 := by
  induction height generalizing pos s with
  | zero =>
    rw [width_zero] at hpos
    rw [traverseAndExtract] at hbad hnode ⊢
    split at hbad
    · cases hbad
    · rename_i b hnext
      rw [hnext] at hnode
      dsimp only at hnode ⊢
      refine (useHash_foundIn hbad fun _ => ?_).imp_right (FoundIn.refl rfl rfl).trans
      rw [hnode, treeNode, node, List.getD_eq_getElem _ _ hpos, List.getElem?_eq_getElem hpos]
  | succ height ih =>
    rw [traverseAndExtract] at hbad hnode ⊢
    split at hbad
    · cases hbad
    · exact (useHash_foundIn hbad fun h => absurd h Bool.false_ne_true).imp_right
        (FoundIn.refl rfl rfl).trans
    · rename_i hnext
      rw [hnext] at hnode
      have hleft := first_lt_width hpos
      dsimp only at hbad hnode ⊢
      rw [treeNode_succ] at hnode
      rw [hlen, calcTreeWidth_eq] at hbad hnode ⊢
      by_cases hright : pos * 2 + 1 < width l.length height
      · rw [if_pos hright] at hbad hnode ⊢
        rw [if_pos hright] at hnode
        obtain ⟨hl, hr⟩ := hinj _ _ _ _ hnode
        dsimp only at hbad ⊢
        split at hbad
        · cases hbad
        · rename_i hne
          rw [if_neg hne]
          obtain ⟨hbad', hfound⟩ := ih _ hright _ hbad hr
          obtain ⟨hbad'', hfound'⟩ := ih _ hleft _ hbad' hl
          exact ⟨hbad'', (FoundIn.refl rfl rfl).trans (hfound'.trans hfound)⟩
      · rw [if_neg hright] at hbad hnode ⊢
        rw [if_neg hright] at hnode
        exact (ih _ hleft _ hbad (hinj _ _ _ _ hnode).1).imp_right (FoundIn.refl rfl rfl).trans

theorem extractMatches_root (hash2 : H → H → H) (null : H) (t : CPartialMerkleTree H)
    (vnIndex : List ℕ) (hroot : (extractMatches hash2 null t vnIndex).root ≠ null) :
    0 < t.nTransactions ∧ ∃ s,
      traverseAndExtract hash2 null t (treeHeight t.nTransactions) 0
        { vnIndex := vnIndex, fBad := t.fBad } =
          ((extractMatches hash2 null t vnIndex).root, s) ∧ s.fBad = false ∧
      (extractMatches hash2 null t vnIndex).vMatch = s.vMatch ∧
      (extractMatches hash2 null t vnIndex).vnIndex = s.vnIndex := by
  rw [extractMatches] at hroot ⊢
  generalize traverseAndExtract hash2 null t (treeHeight t.nTransactions) 0
    { vnIndex := vnIndex, fBad := t.fBad } = r at hroot ⊢
  obtain ⟨hash, s⟩ := r
  dsimp only at hroot ⊢
  -- every check that fails returns the null hash
  split_ifs at hroot ⊢ with hzero hmax hhashes hbits hbad hbitsUsed hhashUsed
  any_goals exact absurd rfl hroot
  exact ⟨Nat.pos_of_ne_zero hzero, s, rfl, Bool.eq_false_of_not_eq_true hbad, rfl, rfl⟩

end Sound

/-- **When the root that `ExtractMatches` returns is the Merkle root of a list of as many
transactions, and is not the null hash, then the reported transactions are in the list at the
reported positions.**
SOURCE: src/src/merkleblock.cpp:97-183 -/
theorem extractMatches_sound {H : Type} [DecidableEq H] (hash2 : H → H → H) (null : H)
    (hinj : ∀ a b c d, hash2 a b = hash2 c d → a = c ∧ b = d) (t : CPartialMerkleTree H)
    (vnIndex : List ℕ) (l : List H) (hlen : l.length = t.nTransactions)
    (hroot : (extractMatches hash2 null t vnIndex).root = (computeMerkleRoot hash2 null l).1)
    (hnull : (computeMerkleRoot hash2 null l).1 ≠ null) :
    ∃ positions, (extractMatches hash2 null t vnIndex).vnIndex = vnIndex ++ positions ∧
      List.Forall₂ (fun txid p => l[p]? = some txid) (extractMatches hash2 null t vnIndex).vMatch
        positions := by
  obtain ⟨hpos, s, htraverse, hbad, hmatch, hindex⟩ :=
    extractMatches_root hash2 null t vnIndex (hroot ▸ hnull)
  have hne : l ≠ [] := List.ne_nil_of_length_pos (hlen ▸ hpos)
  obtain ⟨hK, -⟩ := treeHeight_spec (hlen ▸ hpos : 0 < l.length)
  rw [← hlen, hroot, computeMerkleRoot_eq_treeNode hash2 null hne] at htraverse
  obtain ⟨-, found, positions, hf, hp, hall⟩ := traverseAndExtract_foundIn hinj hlen.symm
    (treeHeight l.length) 0 (by omega) { vnIndex := vnIndex, fBad := t.fBad }
    (by rw [htraverse]; exact hbad) (by rw [htraverse])
  rw [htraverse] at hf hp
  refine ⟨positions, hindex.trans hp, ?_⟩
  rw [hmatch, hf, List.nil_append]
  exact hall

theorem extractMatches_sound_one : ∃ positions,
    (extractMatches FreeHash.pair (.txid 0) ⟨1, [true], [.txid 5], false⟩ [3]).vnIndex =
        [3] ++ positions ∧
      List.Forall₂ (fun txid p => [FreeHash.txid 5][p]? = some txid)
        (extractMatches FreeHash.pair (.txid 0) ⟨1, [true], [.txid 5], false⟩ [3]).vMatch
        positions :=
  have hroot : (computeMerkleRoot FreeHash.pair (.txid 0) [.txid 5]).1 = .txid 5 :=
    computeMerkleRoot_eq_treeNode _ _ (by simp)
  extractMatches_sound _ _ FreeHash.pair_injective _ _ [.txid 5] rfl
    (hroot.symm ▸ by decide) (hroot.symm ▸ by decide)

/-- The null hash is also what a failure returns: a flag byte too many is a failure, after a
transaction has been reported that is not the one of the list. -/
theorem not_extractMatches_sound_null :
    (extractMatches FreeHash.pair (.txid 0)
        ⟨1, true :: List.replicate 15 false, [.txid 5], false⟩ []).root =
          (computeMerkleRoot FreeHash.pair (.txid 0) [.txid 0]).1 ∧
      (extractMatches FreeHash.pair (.txid 0)
        ⟨1, true :: List.replicate 15 false, [.txid 5], false⟩ []).vMatch = [.txid 5] ∧
      (extractMatches FreeHash.pair (.txid 0)
        ⟨1, true :: List.replicate 15 false, [.txid 5], false⟩ []).vnIndex = [0] ∧
      [FreeHash.txid 0].Nodup ∧ [FreeHash.txid 0][0]? ≠ some (.txid 5) ∧
      (∀ a b c d, FreeHash.pair a b = FreeHash.pair c d → a = c ∧ b = d) ∧
      ∀ a b, FreeHash.pair a b ∉ [FreeHash.txid 0] := by
  have hroot : (computeMerkleRoot FreeHash.pair (.txid 0) [.txid 0]).1 = .txid 0 :=
    computeMerkleRoot_eq_treeNode _ _ (by simp)
  rw [hroot]
  refine ⟨by decide, by decide, by decide, by decide, by decide, FreeHash.pair_injective,
    fun a b h => ?_⟩
  cases List.mem_singleton.mp h

end BitMinti.Analysis
