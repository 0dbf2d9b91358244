import BitMinti.Analysis.Pow
import BitMinti.Analysis.Chainstate
import BitMinti.Model.NetProcessing

/-!
# Walking the block tree

`GetAncestor` and `LastCommonAncestor` on the trees that `AddToBlockIndex` builds, and block
locators: what the entries of one node tell another about the last block they have in common.

The step of `LocatorEntries` is an `int` in the source.  It could overflow only beyond height
`2 ^ 30`, after the last entry but one, and is not used any more then.
-/

set_option autoImplicit false

namespace BitMinti.Analysis

open Model Computation.Ancestry

section Tree

variable {getHash : CBlockHeader → Uint256} {genesis : CBlockHeader} {bm : BlockManager}

/-! ## The root -/

theorem Built.eq_genesis (h : Built getHash genesis bm) {b : Uint256} {e : CBlockIndex}
    (he : bm.m_block_index b = some e) (hzero : e.nHeight = 0) : b = getHash genesis := by
  induction h generalizing b e with
  | genesis hhash hadd =>
    rcases addToBlockIndex_cases hadd with ⟨hsome, -⟩ | ⟨-, work, hbm⟩
    · cases hsome
    · by_contra hne
      rw [hbm, BlockMap.insert_of_ne _ _ hne] at he
      cases he
  | @add bm bm' block hbm hparent hadd ih =>
    rcases addToBlockIndex_cases hadd with ⟨-, rfl⟩ | ⟨hfresh, -⟩
    · exact ih he hzero
    · obtain ⟨ep, hp⟩ := Option.isSome_iff_exists.mp hparent
      obtain ⟨enew, hbm', -, -, hheight, -⟩ := hbm.treeInv.addToBlockIndex_new hfresh hp hadd
      rw [hbm'] at he
      by_cases hb : b = getHash block
      · subst hb
        rw [BlockMap.insert_self, Option.some_inj] at he
        subst he
        omega
      · rw [BlockMap.insert_of_ne _ _ hb] at he
        exact ih he hzero

/-- **Every block descends from the genesis block.** -/
theorem Built.genesis_ancestor (h : Built getHash genesis bm) {b : Uint256} {e : CBlockIndex}
    (he : bm.m_block_index b = some e) :
    AncestorOf bm.m_block_index.prev (getHash genesis) b := by
  obtain ⟨a, ea, hup, hea, hheight⟩ := h.treeInv.exists_up he le_rfl
  obtain rfl : a = getHash genesis := Built.eq_genesis h hea (by omega)
  exact ⟨_, hup⟩

/-! ## Ancestors -/

/-- **`GetAncestor` and `LastCommonAncestor` on every tree that `AddToBlockIndex` builds.**  The walk
of `GetAncestor` ends within as many passes as the block has heights, meets no failed assertion and
returns the block that following `pprev` reaches; `LastCommonAncestor` returns the last block that
is an ancestor of both blocks, or one of them. -/
theorem getAncestor_lastCommonAncestor (h : Built getHash genesis bm) :
    (∀ b e, bm.m_block_index b = some e → ∀ height ≤ e.nHeight, ∃ a ea,
      up bm.m_block_index.prev (e.nHeight - height) b = some a ∧ bm.m_block_index a = some ea ∧
        getAncestorLoop bm.m_block_index height e.nHeight e e.nHeight = .ok ea ∧
        getAncestor bm.m_block_index e height = some ea) ∧
    ∀ a ea b eb, bm.m_block_index a = some ea → bm.m_block_index b = some eb → ∃ f ef,
      lastCommonAncestor bm.m_block_index ea eb = some ef ∧ bm.m_block_index f = some ef ∧
        LastCommon bm.m_block_index.prev a b f := by
  have T := h.treeInv
  refine ⟨fun b e he height hle => ?_, fun a ea b eb hea heb => ?_⟩
  · obtain ⟨a, ea, hup, hmem, hloop⟩ := T.getAncestorLoop_eq height e.nHeight he hle (by omega)
    refine ⟨a, ea, hup, hmem, hloop, ?_⟩
    rw [getAncestor, if_neg (by omega), Int.toNat_natCast, hloop]
    rfl
  · have hka := T.key a ea hea
    have hkb := T.key b eb heb
    subst hka hkb
    obtain ⟨ef, hlast, hmem, hcommon⟩ := T.lastCommonAncestor_eq hea heb
      (Built.genesis_ancestor h hea) (Built.genesis_ancestor h heb)
    exact ⟨ef.phashBlock, ef, hlast, hmem, hcommon⟩

end Tree

/-- On a chain of a hundred blocks the walk from the last block to height three ends at the third
block. -/
theorem getAncestor_lastCommonAncestor_launch :
    ∃ bm e ea, Built Model.nonceHash mainGenesis bm ∧ bm.m_block_index (launchHash 100) = some e ∧
      e.nHeight = 100 ∧ getAncestor bm.m_block_index e 3 = some ea ∧
      FromHeader Model.nonceHash (launchBlock 0x1f0fffff#32 3) ea := by
  obtain ⟨bm, m₀, e₀, hbuilt, -, -, E⟩ := exists_launch 0x1f0fffff#32 100 (by decide)
  obtain ⟨e, he, -, hheight⟩ := E.launch_tip (by decide) (by decide)
  obtain ⟨e₃, hat₃, hfrom₃, -⟩ := E.launch_blockAt (by decide) (show 97 < 100 by decide)
  obtain ⟨a, ea, hup, hea, -, hget⟩ :=
    (getAncestor_lastCommonAncestor hbuilt).1 _ e he 3 (by omega)
  rw [hheight] at hup
  rw [blockAt, hup, Option.bind_some, hea, Option.some_inj] at hat₃
  exact ⟨bm, e, ea, hbuilt, he, hheight, hget, hat₃ ▸ hfrom₃⟩

/-! ## Locators -/

section Locator

variable {m : BlockMap} {top : Uint256}

/-- **The entries of a locator thin out.**  The induction is on the blocks left; the
step is never more than two above the distance already gone, unless the next entry is the
genesis block.
SOURCE: src/src/chain.cpp:26-44 -/
theorem locatorLoop_thinned (T : TreeInv m) (fuel : ℕ) {o : ℕ} {h : Uint256} {e : CBlockIndex}
    (hup : up m.prev o top = some h) (he : m h = some e) (hfuel : e.nHeight < fuel) {step : ℕ}
    (hpos : 0 < step) (hstep : e.nHeight = 0 ∨ step ≤ o + 2) (entries : CBlockLocator) :
    ∃ l, locatorLoop m fuel (some e) step entries = entries ++ l ∧ Thinned m.prev top o l := by
  induction fuel generalizing o h e step entries with
  | zero => omega
  | succ fuel ih =>
    have hkey : e.getBlockHash = h := T.key h e he
    rw [locatorLoop]
    by_cases hzero : e.nHeight = 0
    · refine ⟨[h], by rw [if_pos hzero, hkey], .root hup ?_⟩
      rw [BlockMap.prev_of he]
      exact Option.eq_none_iff_forall_ne_some.mpr fun p hp => by
        obtain ⟨ep, -, hheight⟩ := T.parent he hp
        omega
    · have hheight : max ((e.nHeight : ℤ) - step) 0 = ((e.nHeight - step : ℕ) : ℤ) := by omega
      obtain ⟨a, ea, hupa, hea, hlow, hget⟩ :=
        T.getAncestor_eq he (show e.nHeight - step ≤ e.nHeight by omega)
      have hnext := up_trans m.prev hup hupa
      rw [if_neg hzero]
      dsimp only
      rw [hheight, hget, hkey]
      set double : ℕ := if 10 < (entries ++ [h]).length then step * 2 else step with hdouble
      have hcast : (if 10 < (entries ++ [h]).length then (step : ℤ) * 2 else step) = double := by
        rw [hdouble]
        split <;> push_cast <;> rfl
      have hle : step ≤ double ∧ double ≤ step * 2 := by
        rw [hdouble]
        split <;> omega
      rw [hcast]
      obtain ⟨l, hl, hthin⟩ := ih hnext hea (by omega) (show 0 < double by omega) (by omega)
        (entries ++ [h])
      refine ⟨h :: l, by rw [hl, List.append_assoc, List.singleton_append], ?_⟩
      exact .cons hup (by omega) (by omega) hthin

theorem getLocator_thinned (T : TreeInv m) {e : CBlockIndex} (he : m top = some e) :
    Thinned m.prev top 0 (getLocator m (some e)) := by
  obtain ⟨l, hl, hthin⟩ := locatorLoop_thinned T (e.nHeight + 1) (up_zero m.prev top) he
    (Nat.lt_succ_self _) Nat.one_pos (.inr (by omega)) []
  rw [getLocator, Option.elim_some, show (1 : ℤ) = ((1 : ℕ) : ℤ) from rfl, hl]
  exact hthin

end Locator

/-! ## What a locator tells another node -/

section Fork

variable {m : BlockMap} {r : Chainstate} {idx tip f : Uint256}

/-- A hash names one block: the two nodes agree on the parent of every block that both know. -/
def AgreeOnParents (m m' : BlockMap) : Prop :=
  ∀ h e e', m h = some e → m' h = some e' → e.pprev = e'.pprev

/-- `f` is the last block of the chain of `idx`, in the sender's tree, that is on the receiver's
active chain. -/
structure LastShared (m : BlockMap) (idx : Uint256) (r : Chainstate) (f : Uint256) : Prop where
  sent : AncestorOf m.prev f idx
  active : r.contains f = true
  last : ∀ c, AncestorOf m.prev c idx → r.contains c = true → m.height c ≤ m.height f

variable (A : AgreeOnParents m r.m_block_index) (T : TreeInv m) (T' : TreeInv r.m_block_index)

include A T T'

theorem AgreeOnParents.up_eq (n : ℕ) {k : Uint256} (hk : (m k).isSome)
    (hk' : (r.m_block_index k).isSome) : up r.pprev n k = up m.prev n k := by
  have hsame : ∀ k, (m k).isSome ∧ (r.m_block_index k).isSome →
      r.m_block_index.prev k = m.prev k := by
    rintro k ⟨hk, hk'⟩
    obtain ⟨e, he⟩ := Option.isSome_iff_exists.mp hk
    obtain ⟨e', he'⟩ := Option.isSome_iff_exists.mp hk'
    rw [BlockMap.prev_of he, BlockMap.prev_of he', A k e e' he he']
  have G : Graded m.prev (fun k => (m k).isSome ∧ (r.m_block_index k).isSome) m.height := by
    refine ⟨fun k p hk hp => ?_, fun k hk => T.graded.root k hk.1⟩
    obtain ⟨hdom, hrank⟩ := T.graded.parent k p hk.1 hp
    have hp' : r.m_block_index.prev k = some p := (hsame k hk).trans hp
    exact ⟨⟨hdom, (T'.graded.parent k p hk.2 hp').1⟩, hrank⟩
  exact G.up_congr hsame n ⟨hk, hk'⟩

theorem AgreeOnParents.height_eq {k : Uint256} (hk : (m k).isSome)
    (hk' : (r.m_block_index k).isSome) : r.nHeight k = m.height k := by
  obtain ⟨a, ha⟩ := T.graded.exists_up hk le_rfl
  have ha' := A.up_eq T T' (m.height k) hk hk'
  rw [ha] at ha'
  obtain ⟨hdom, hrank⟩ := T.graded.of_up hk ha
  obtain ⟨hdom', hrank'⟩ := T'.graded.of_up hk' ha'
  -- the root of one tree is a root of the other
  have hroot : m.prev a = none := Option.eq_none_iff_forall_ne_some.mpr fun p hp => by
    have := (T.graded.parent a p hdom hp).2
    omega
  have hone := A.up_eq T T' 1 hdom hdom'
  rw [up_one, up_one, hroot] at hone
  have hzero := T'.graded.root a hdom' hone
  rw [Chainstate.nHeight]
  omega

variable (F : LastShared m idx r f) (hidx : (m idx).isSome) (ht : r.m_tip = some tip)
    (hmem : (r.m_block_index tip).isSome)

include F hidx ht hmem

/-- An entry higher than the last shared block is passed over, or ends the search at the
tip, which then is the last shared block.
SOURCE: src/src/validation.cpp:128-138 -/
theorem LastShared.passes {y : Uint256} (hy : AncestorOf m.prev y idx)
    (habove : m.height f < m.height y) (rest : List Uint256) :
    r.findForkInGlobalIndex (y :: rest) = some f ∨
      r.findForkInGlobalIndex (y :: rest) = r.findForkInGlobalIndex rest := by
  rw [Chainstate.findForkInGlobalIndex]
  split_ifs with hknown hon hexit
  · have := F.last y hy hon
    omega
  · left
    rw [ht, Option.some_inj]
    -- the tip is an ancestor of `y` in both trees, so it is shared, and nothing shared is higher
    have hdesc : r.descendsFrom y tip = true := by
      rw [ht, Chainstate.chainHeight, ht, Option.elim_some] at hexit
      exact hexit
    obtain ⟨n, hn⟩ := (descendsFrom_iff T' hknown).mp hdesc
    rw [A.up_eq T T' n (T.graded.up_of_ancestor hidx hy).1 hknown] at hn
    have htip : AncestorOf m.prev tip idx := AncestorOf.trans ⟨n, hn⟩ hy
    have hself : r.contains tip = true := (contains_iff T' ht hmem).mpr (.refl tip)
    have habove : AncestorOf m.prev tip f :=
      T.graded.ancestor_of_le hidx F.sent htip (F.last tip htip hself)
    obtain ⟨k, hk⟩ := (contains_iff T' ht hmem).mp F.active
    rw [A.up_eq T T' k (T.graded.up_of_ancestor hidx htip).1 hmem] at hk
    exact T.graded.antisymm (T.graded.up_of_ancestor hidx F.sent).1 habove ⟨k, hk⟩
  · exact .inr rfl
  · exact .inr rfl

/-- An ancestor of the last shared block, or the block itself, ends the search.
SOURCE: src/src/validation.cpp:128-138 -/
theorem LastShared.finds {x : Uint256} (hx : AncestorOf m.prev x f) (rest : List Uint256) :
    r.findForkInGlobalIndex (x :: rest) = some x ∧ r.contains x = true ∧ AncestorOf r.pprev x f := by
  have hactive := (contains_iff T' ht hmem).mp F.active
  have hf := T.graded.up_of_ancestor hidx F.sent
  have hf' := isSome_of_ancestor T' hmem hactive
  obtain ⟨n, hn⟩ := hx
  rw [← A.up_eq T T' n hf.1 hf'.1] at hn
  have hxf : AncestorOf r.pprev x f := ⟨n, hn⟩
  have hcontains : r.contains x = true := (contains_iff T' ht hmem).mpr (hxf.trans hactive)
  refine ⟨?_, hcontains, hxf⟩
  have hknown : (r.lookupBlockIndex x).isSome = true := (isSome_of_ancestor T' hf'.1 hxf).1
  rw [Chainstate.findForkInGlobalIndex, if_pos hknown, if_pos hcontains]

/-- The search over a list that thins out.  The induction is on the entries higher than
the last shared block. -/
theorem LastShared.search {front : List Uint256}
    (hfront : ∀ y ∈ front, AncestorOf m.prev y idx ∧ m.height f < m.height y) {x : Uint256}
    (hx : AncestorOf m.prev x f) (back : List Uint256) :
    r.findForkInGlobalIndex (front ++ x :: back) = some f ∨
      r.findForkInGlobalIndex (front ++ x :: back) = some x := by
  induction front with
  | nil => exact .inr (F.finds A T T' hidx ht hmem hx back).1
  | cons y rest ih =>
    obtain ⟨⟨hy, habove⟩, hrest⟩ := List.forall_mem_cons.1 hfront
    rw [List.cons_append]
    rcases F.passes A T T' hidx ht hmem hy habove (rest ++ x :: back) with hexit | hpass
    · exact .inl hexit
    · rw [hpass]
      exact ih hrest

end Fork

variable {getHash : CBlockHeader → Uint256} {genesis : CBlockHeader} {bm : BlockManager}

/-- **What a locator finds.**  The entries of a locator go strictly down and end at the genesis
block, and whatever else the receiver knows, the block it finds is on its active chain, is the
last block that the two share or an ancestor of it, and is no further below it than that block is
below the sender's.
SOURCE: src/src/chain.cpp:26-44, src/src/validation.cpp:122-140 -/
theorem findForkInGlobalIndex_getLocator (hbm : Built getHash genesis bm) {idx : Uint256}
    {e : CBlockIndex} (hidx : bm.m_block_index idx = some e) :
    ((getLocator bm.m_block_index (some e)).Pairwise fun a b =>
      bm.m_block_index.height b < bm.m_block_index.height a) ∧
    (getLocator bm.m_block_index (some e)).getLast? = some (getHash genesis) ∧
    ∀ (r : Chainstate) (tip f : Uint256), TreeInv r.m_block_index → r.m_tip = some tip →
      (r.m_block_index tip).isSome → AgreeOnParents bm.m_block_index r.m_block_index →
      LastShared bm.m_block_index idx r f →
      ∃ found, r.findForkInGlobalIndex (getLocator bm.m_block_index (some e)) = some found ∧
        r.contains found = true ∧ AncestorOf r.pprev found f ∧
        r.nHeight f - (e.nHeight - r.nHeight f) ≤ r.nHeight found := by
  have T := hbm.treeInv
  have hmem : (bm.m_block_index idx).isSome := Option.isSome_of_eq_some hidx
  have hthin := getLocator_thinned T hidx
  refine ⟨hthin.pairwise_rank T.graded hmem, ?_, ?_⟩
  · obtain ⟨g, hlast, hroot⟩ := hthin.exists_last
    obtain ⟨n, -, hup⟩ := hthin.ancestor g (List.mem_of_getLast? hlast)
    obtain ⟨hdom, -⟩ := T.graded.of_up hmem hup
    obtain ⟨eg, heg⟩ := Option.isSome_iff_exists.mp hdom
    have hzero := T.graded.root g hdom hroot
    rw [BlockMap.height_of heg] at hzero
    rw [hlast, Built.eq_genesis hbm heg hzero]
  · intro r tip f T' ht htip A F
    have hactive := (contains_iff T' ht htip).mp F.active
    obtain ⟨hf, hle, hd⟩ := T.graded.up_of_ancestor hmem F.sent
    have hf' := (isSome_of_ancestor T' htip hactive).1
    have hheight := A.height_eq T T' hf hf'
    have hidxheight := BlockMap.height_of hidx
    obtain ⟨front, x, back, j, hsplit, hfront, hdj, hj2, hx⟩ := hthin.split hd (Nat.zero_le _)
    have hxf : up bm.m_block_index.prev
        (j - (bm.m_block_index.height idx - bm.m_block_index.height f)) f = some x := by
      rw [← Nat.add_sub_of_le hdj, up_add, hd, Option.bind_some] at hx
      exact hx
    have hbefore : ∀ y ∈ front, AncestorOf bm.m_block_index.prev y idx ∧
        bm.m_block_index.height f < bm.m_block_index.height y := by
      intro y hy
      obtain ⟨i, hi, hup⟩ := hfront y hy
      have hrank := (T.graded.of_up hmem hup).2
      exact ⟨⟨i, hup⟩, by omega⟩
    obtain ⟨-, hcontains, hanc⟩ := F.finds A T T' hmem ht htip ⟨_, hxf⟩ back
    rw [hsplit]
    rcases F.search A T T' hmem ht htip hbefore ⟨_, hxf⟩ back with hfound | hfound
    · exact ⟨f, hfound, F.active, .refl f, by omega⟩
    · refine ⟨x, hfound, hcontains, hanc, ?_⟩
      obtain ⟨hxdom, hrank⟩ := T.graded.of_up hf hxf
      have hxheight := A.height_eq T T' hxdom (isSome_of_ancestor T' hf' hanc).1
      omega

/-- A node whose tip is block sixty finds a block of its chain, of height twenty or more, in the
locator of block one hundred. -/
theorem findForkInGlobalIndex_getLocator_launch :
    ∃ (bm : BlockManager) (r : Chainstate) (e : CBlockIndex) (found : Uint256),
      Built Model.nonceHash mainGenesis bm ∧ bm.m_block_index (launchHash 100) = some e ∧
      r.m_tip = some (launchHash 60) ∧
      r.findForkInGlobalIndex (getLocator bm.m_block_index (some e)) = some found ∧
      r.contains found = true ∧ 20 ≤ r.nHeight found := by
  obtain ⟨bm, m₀, e₀, hbuilt, -, -, E⟩ := exists_launch 0x1f0fffff#32 100 (by decide)
  obtain ⟨e, hidx, -, hheight⟩ := E.launch_tip (by decide) (by decide)
  obtain ⟨e₆₀, hat, hfrom, hheight₆₀⟩ := E.launch_blockAt (by decide) (show 40 < 100 by decide)
  have T := hbuilt.treeInv
  obtain ⟨a, hup, ha⟩ := Option.bind_eq_some_iff.mp hat
  obtain rfl : launchHash 60 = a := by
    rw [← T.key a e₆₀ ha, hfrom.phashBlock]
    exact (Model.nonceHash_launchBlock (by decide) (by decide)).symm
  let r : Chainstate := { toBlockManager := bm, m_tip := some (launchHash 60) }
  have htip : (r.m_block_index (launchHash 60)).isSome := Option.isSome_iff_exists.mpr ⟨e₆₀, ha⟩
  have F : LastShared bm.m_block_index (launchHash 100) r (launchHash 60) := by
    refine ⟨⟨40, hup⟩, (contains_iff T rfl htip).mpr (.refl _), fun c _ hc => ?_⟩
    exact (isSome_of_ancestor T htip ((contains_iff T rfl htip).mp hc)).2
  have A : AgreeOnParents bm.m_block_index r.m_block_index := by
    intro h e₁ e₂ h₁ h₂
    rw [Option.some_inj.mp (h₁.symm.trans h₂)]
  obtain ⟨found, hfound, hcontains, -, hlow⟩ :=
    (findForkInGlobalIndex_getLocator hbuilt hidx).2.2 r _ _ T rfl htip A F
  refine ⟨bm, r, e, found, hbuilt, hidx, rfl, hfound, hcontains, ?_⟩
  have hnHeight : r.nHeight (launchHash 60) = 60 := (BlockMap.height_of ha).trans hheight₆₀
  omega

end BitMinti.Analysis
