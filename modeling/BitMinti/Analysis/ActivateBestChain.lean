import BitMinti.Analysis.Chainstate
import BitMinti.Computation.HashChain

/-!
# `ActivateBestChain` finds the best chain

While `ActivateBestChain` is at work, blocks that may be chosen over the tip can be missing from
the candidates: the tip is moved back before it is moved on, and the candidates before a tip are
dropped as soon as it is reached.  What holds all along (`Working`) is that every usable block is
a candidate or sorts before a candidate that connects; such a candidate is never marked, so the
search never runs dry.  A round marks a block or gets closer to the chosen one, which bounds the
number of rounds.

SOURCE: src/src/validation.cpp:3633-3812, 3856-4050
-/

set_option autoImplicit false

namespace BitMinti.Analysis

open Model Interface Computation.Ancestry Computation.StateExcept BitMinti.Computation

/-! ## The way from the tip to a block -/

section Way

variable {s : Chainstate} {t p f : Uint256}

theorem disconnectTip_wp (ht : s.m_tip = some t) (hp : s.pprev t = some p) :
    wp (fun _ => False) disconnectTip (fun _ s' => s' = { s with m_tip := some p }) s := by
  simp only [disconnectTip, wp_bind, wp_get, ht, hp, wp_set]

/-- **Disconnecting blocks** ends at an ancestor of the tip. -/
theorem disconnectTo_wp (T : TreeInv s.m_block_index) (fuel : ℕ)
    (hmem : (s.m_block_index t).isSome) (hf : AncestorOf s.pprev f t) (hfuel : s.nHeight t ≤ fuel) :
    wp (fun _ => False) (disconnectTo (some f) fuel)
      (fun _ s' => s' = { s with m_tip := some f }) { s with m_tip := some t } := by
  induction fuel generalizing t with
  | zero =>
    have hroot : f = t := by
      apply T.graded.eq_of_ancestor hmem hf
      exact hfuel.trans (Nat.zero_le _)
    subst hroot
    simp [disconnectTo]
  | succ fuel ih =>
    unfold disconnectTo
    by_cases heq : f = t
    · subst heq
      simp
    · obtain ⟨p, hp, hfp⟩ := hf.eq_or_parent.resolve_left heq
      obtain ⟨hpmem, hheight⟩ := parent_of_pprev T hmem hp
      have hcond : ((some t).isNone || some t == some f) = false := by simp [Ne.symm heq]
      simp only [wp_bind, wp_get, hcond, Bool.false_eq_true, if_false]
      apply wp_mono (disconnectTip_wp (s := { s with m_tip := some t }) rfl hp)
      rintro - _ rfl
      exact ih hpmem hfp (by omega)

theorem climb_eq (T : TreeInv s.m_block_index) (stop : Uint256 → Bool) (fuel : ℕ)
    (hmem : (s.m_block_index t).isSome) (hfuel : s.nHeight t < fuel)
    (hstop : ∃ g, AncestorOf s.pprev g t ∧ stop g = true) :
    ∃ f, s.climb stop fuel (some t) = some f ∧ AncestorOf s.pprev f t ∧ stop f = true ∧
      ∀ c, AncestorOf s.pprev c t → stop c = true → AncestorOf s.pprev c f := by
  induction fuel generalizing t with
  | zero => omega
  | succ fuel ih =>
    rw [Chainstate.climb]
    by_cases ht : stop t = true
    · exact ⟨t, if_pos ht, .refl t, ht, fun _ hc _ => hc⟩
    · -- a block to stop at is not `t`, so it lies above its parent
      have hne : ∀ c, stop c = true → c ≠ t := fun c hcstop hct => ht (hct ▸ hcstop)
      obtain ⟨g, hg, hgstop⟩ := hstop
      obtain ⟨p, hp, hgp⟩ := hg.eq_or_parent.resolve_left (hne g hgstop)
      obtain ⟨hpmem, hheight⟩ := parent_of_pprev T hmem hp
      obtain ⟨f, hf, hfp, hfstop, hlast⟩ := ih hpmem (by omega) ⟨g, hgp, hgstop⟩
      refine ⟨f, by rw [if_neg ht, hp, hf], hfp.trans (.parent hp), hfstop, ?_⟩
      intro c hc hcstop
      obtain ⟨q, hq, hcq⟩ := hc.eq_or_parent.resolve_left (hne c hcstop)
      rw [hp, Option.some_inj] at hq
      exact hlast c (hq ▸ hcq) hcstop

/-- **`FindFork` finds the last block the tip and another block have in common.** -/
theorem findFork_eq (T : TreeInv s.m_block_index) (ht : s.m_tip = some t)
    (htmem : (s.m_block_index t).isSome) (hpmem : (s.m_block_index p).isSome)
    (hcommon : ∃ g, AncestorOf s.pprev g t ∧ AncestorOf s.pprev g p) :
    ∃ f, s.findFork p = some f ∧ LastCommon s.pprev t p f := by
  obtain ⟨g, hgt, hgp⟩ := hcommon
  -- the walk starts no higher than the tip
  obtain ⟨q, hq, hqp, hlow⟩ : ∃ q,
      (if s.nHeight t < s.nHeight p then s.getAncestor p (s.nHeight t) else some p) = some q ∧
      AncestorOf s.pprev q p ∧
      ∀ c, AncestorOf s.pprev c t → AncestorOf s.pprev c p → AncestorOf s.pprev c q := by
    by_cases hlt : s.nHeight t < s.nHeight p
    · obtain ⟨q, hget, -, hqp, hheight⟩ := exists_getAncestor T hpmem hlt.le
      refine ⟨q, by rw [if_pos hlt, hget], hqp, fun c hct hcp => ?_⟩
      exact T.graded.ancestor_of_le hpmem hqp hcp
        ((isSome_of_ancestor T htmem hct).2.trans hheight.ge)
    · exact ⟨p, if_neg hlt, .refl p, fun _ _ hcp => hcp⟩
  have hqmem := isSome_of_ancestor T hpmem hqp
  obtain ⟨f, hf, hfq, hfstop, hlast⟩ := climb_eq T s.contains (s.nHeight p + 1) hqmem.1
    (Nat.lt_succ_of_le hqmem.2) ⟨g, hlow g hgt hgp, (contains_iff T ht htmem).mpr hgt⟩
  refine ⟨f, ?_, (contains_iff T ht htmem).mp hfstop, hfq.trans hqp, fun c hct hcp => ?_⟩
  · rw [Chainstate.findFork, ht]
    simp only [hq, hf]
  · exact hlast c (hlow c hct hcp) ((contains_iff T ht htmem).mpr hct)

end Way

/-- The tip is the ancestor of `q` of height `nHeight`; no tip is at height `-1`. -/
def TipAt (s : Chainstate) (nHeight : ℤ) (q : Uint256) : Prop :=
  (s.m_tip = none ∧ nHeight = -1) ∨
    ∃ f, s.m_tip = some f ∧ AncestorOf s.pprev f q ∧ nHeight = s.nHeight f

variable {s : Chainstate}

theorem TipAt.le_nHeight {nHeight : ℤ} {q : Uint256} (hat : TipAt s nHeight q)
    (T : TreeInv s.m_block_index) (hmem : (s.m_block_index q).isSome) : nHeight ≤ s.nHeight q := by
  rcases hat with ⟨-, hneg⟩ | ⟨f, -, hfq, hfheight⟩
  · omega
  · have := (isSome_of_ancestor T hmem hfq).2
    omega

theorem TipAt.tip_eq {q : Uint256} (hat : TipAt s (s.nHeight q) q)
    (T : TreeInv s.m_block_index) (hmem : (s.m_block_index q).isSome) : s.m_tip = some q := by
  rcases hat with ⟨-, hneg⟩ | ⟨f, hf, hfq, hfheight⟩
  · omega
  · have heq : f = q := by
      apply T.graded.eq_of_ancestor hmem hfq
      change s.nHeight q ≤ s.nHeight f
      omega
    rw [hf, heq]

/-- **`vpindexToConnect` leads from the tip to the block it starts from.** -/
theorem blocksToConnect_eq (T : TreeInv s.m_block_index) {nHeight : ℤ} (fuel : ℕ)
    {q : Uint256} (hmem : (s.m_block_index q).isSome) (hfuel : s.nHeight q < fuel)
    (hat : TipAt s nHeight q) :
    HashChain.Linked some s.pprev s.m_tip (blocksToConnect s nHeight fuel (some q)).reverse ∧
      HashChain.lastHash some s.m_tip (blocksToConnect s nHeight fuel (some q)).reverse = some q ∧
      ∀ b ∈ blocksToConnect s nHeight fuel (some q),
        AncestorOf s.pprev b q ∧ nHeight < s.nHeight b := by
  induction fuel generalizing q with
  | zero => omega
  | succ fuel ih =>
    rw [blocksToConnect]
    split
    · rename_i hheight
      exact ⟨trivial, TipAt.tip_eq (hheight ▸ hat) T hmem, by simp⟩
    · rename_i hheight
      -- a tip that is an ancestor of `q` and not `q` lies above its parent
      have hne : ∀ f, nHeight = s.nHeight f → f ≠ q := fun f hf hfq => hheight (hfq ▸ hf.symm)
      have hlow : nHeight < s.nHeight q := by
        have := hat.le_nHeight T hmem
        omega
      rw [List.reverse_cons, HashChain.linked_append, HashChain.lastHash_append]
      cases hp : s.pprev q with
      | none =>
        have htip : s.m_tip = none := by
          rcases hat with ⟨hnone, -⟩ | ⟨f, -, hfq, hfheight⟩
          · exact hnone
          · obtain ⟨p, hp', -⟩ := hfq.eq_or_parent.resolve_left (hne f hfheight)
            rw [hp] at hp'
            cases hp'
        have hnil : blocksToConnect s nHeight fuel none = [] := by cases fuel <;> rfl
        rw [hnil, htip]
        refine ⟨⟨trivial, hp, trivial⟩, rfl, fun b hb => ?_⟩
        rw [List.mem_singleton.mp hb]
        exact ⟨.refl q, hlow⟩
      | some p =>
        obtain ⟨hpmem, hrank⟩ := parent_of_pprev T hmem hp
        have hat' : TipAt s nHeight p := by
          rcases hat with hnone | ⟨f, hf, hfq, hfheight⟩
          · exact .inl hnone
          · obtain ⟨p', hp', hfp⟩ := hfq.eq_or_parent.resolve_left (hne f hfheight)
            rw [hp, Option.some_inj] at hp'
            exact .inr ⟨f, hf, hp' ▸ hfp, hfheight⟩
        obtain ⟨hlinked, hlast, hanc⟩ := ih hpmem (by omega) hat'
        exact ⟨⟨hlinked, by rw [hlast]; exact ⟨hp, trivial⟩⟩, rfl, List.forall_mem_cons.mpr
          ⟨⟨.refl _, hlow⟩, fun b hb => (hanc b hb).imp_left (·.trans (.parent hp))⟩⟩

theorem TipAt.batch {nHeight : ℤ} {M : Uint256} (hat : TipAt s nHeight M)
    (T : TreeInv s.m_block_index) (hmem : (s.m_block_index M).isSome) (target : ℤ)
    (hlt : nHeight < target) (hle : target ≤ s.nHeight M) :
    ∃ q rest, s.getAncestor M target = some q ∧ (s.m_block_index q).isSome ∧
      AncestorOf s.pprev q M ∧ (s.nHeight q : ℤ) = target ∧ TipAt s nHeight q ∧
      blocksToConnect s nHeight (s.nHeight M + 1) (some q) = q :: rest := by
  have hpos : (0 : ℤ) ≤ target := by
    rcases hat with ⟨-, hneg⟩ | ⟨f, -, -, hfheight⟩
    · omega
    · omega
  obtain ⟨k, rfl⟩ := Int.eq_ofNat_of_zero_le hpos
  obtain ⟨q, hget, hqmem, hqM, hheight⟩ := exists_getAncestor T hmem (by exact_mod_cast hle)
  have hne : (s.nHeight q : ℤ) ≠ nHeight := by omega
  refine ⟨q, _, hget, hqmem, hqM, by rw [hheight], ?_, by rw [blocksToConnect, if_neg hne]⟩
  refine hat.imp_right ?_
  rintro ⟨f, hf, hfM, hfheight⟩
  refine ⟨f, hf, ?_, hfheight⟩
  apply T.graded.ancestor_of_le hmem hqM hfM
  change s.nHeight f ≤ s.nHeight q
  omega

/-! ## What holds while it is at work -/

section Working

variable {σ : Type} (n : Node σ)

/-- The blocks `ConnectBlock` refuses. -/
def Refused (p : Uint256) : Prop := n.connectBlock p = .invalid

/-- **Every usable block is a candidate or sorts before one that connects.** -/
def Covered (s : Chainstate) : Prop :=
  ∀ h, s.haveNumChainTxs h = true → s.failed h = false → h ∈ s.setBlockIndexCandidates ∨
    ∃ c ∈ s.setBlockIndexCandidates, ChainConnects n s c ∧ s.failed c = false ∧
      sortKey n.addr s h < sortKey n.addr s c

/-- What holds while `ActivateBestChain` is at work. -/
structure Working (s : Chainstate) : Prop extends StateInv n s where
  covered : Covered n s

/-- `M` is the chosen block: the last of the candidates, and not marked. -/
structure Aims (s : Chainstate) (M : Uint256) : Prop where
  mem : M ∈ s.setBlockIndexCandidates
  unflagged : s.failed M = false
  last : ∀ c ∈ s.setBlockIndexCandidates, sortKey n.addr s c ≤ sortKey n.addr s M

variable {n} {s s' : Chainstate}

theorem ChainInv.working (I : ChainInv n s) : Working n s where
  toStateInv := I.toStateInv
  covered h htx hunflagged := by
    cases ht : s.m_tip with
    | none => exact .inl (I.complete h htx hunflagged (by simp [ht]))
    | some t =>
      obtain ⟨httx, htfailed, htconnects⟩ := I.tip t ht
      have hmem : t ∈ s.setBlockIndexCandidates := by
        apply I.complete t httx htfailed
        rintro _ ht'
        rw [ht, Option.some_inj] at ht'
        rw [ht']
      rcases le_or_gt (sortKey n.addr s t) (sortKey n.addr s h) with hle | hlt
      · left
        apply I.complete h htx hunflagged
        rintro _ ht'
        rw [ht, Option.some_inj] at ht'
        exact ht' ▸ hle
      · exact .inr ⟨t, hmem, htconnects, htfailed, hlt⟩

theorem Working.le_aim (W : Working n s) {M h : Uint256} (A : Aims n s M)
    (htx : s.haveNumChainTxs h = true) (hunflagged : s.failed h = false) :
    sortKey n.addr s h ≤ sortKey n.addr s M := by
  rcases W.covered h htx hunflagged with hmem | ⟨c, hc, -, -, hlt⟩
  · exact A.last h hmem
  · exact hlt.le.trans (A.last c hc)

theorem StateInv.moveBack (I : StateInv n s) {t f : Uint256} (ht : s.m_tip = some t)
    (hf : AncestorOf s.pprev f t) : StateInv n { s with m_tip := some f } where
  blocks := I.blocks.same (.of_index rfl rfl rfl)
  flags := I.flags.of_flags rfl rfl
  tip := by
    intro t' ht'
    obtain rfl : f = t' := Option.some_inj.mp ht'
    obtain ⟨htx, hfailed, hconnects⟩ := I.tip t ht
    exact ⟨I.blocks.linked_of_ancestor hf htx, I.flags.unflagged_of_ancestor hf hfailed,
      fun a ha => hconnects a (ha.trans hf)⟩
  candidates := I.candidates

/-- **Marking refused blocks and dropping marked candidates** goes on working. -/
theorem Working.reflag (W : Working n s) (R : Reflags (Refused n) s s') (F : FlagsInv s')
    (htip : s'.m_tip = s.m_tip)
    (hsub : ∀ c ∈ s'.setBlockIndexCandidates, c ∈ s.setBlockIndexCandidates)
    (hkept : ∀ c ∈ s.setBlockIndexCandidates, s'.failed c = false →
      c ∈ s'.setBlockIndexCandidates) : Working n s' := by
  have hgood : ∀ c, ChainConnects n s c → s'.failed c = s.failed c :=
    fun c hc => R.failed_of_good fun p hp hbad => hc p hp hbad
  refine ⟨⟨W.blocks.same R.toSameBlocks, F, ?_, ?_⟩, ?_⟩
  · intro t ht
    obtain ⟨htx, hfailed, hconnects⟩ := W.tip t (htip ▸ ht)
    rw [R.haveNumChainTxs, hgood t hconnects]
    exact ⟨htx, hfailed, R.chainConnects hconnects⟩
  · intro c hc
    rw [R.haveNumChainTxs]
    exact W.candidates c (hsub c hc)
  · intro h htx hunflagged
    rw [R.haveNumChainTxs] at htx
    rcases W.covered h htx (R.unflagged hunflagged) with hmem | ⟨c, hc, hconnects, hcfailed, hlt⟩
    · exact .inl (hkept h hmem hunflagged)
    · have hcfailed' : s'.failed c = false := by rw [hgood c hconnects, hcfailed]
      refine .inr ⟨c, hkept c hc hcfailed', R.chainConnects hconnects, hcfailed', ?_⟩
      rw [R.sortKey]
      exact hlt

/-! ## Connecting a block -/

theorem raiseValidity_valid (e : CBlockIndex) (nUpTo : BlockValidity) :
    ∃ level, e.nStatus.valid.toNat ≤ level.toNat ∧
      e.raiseValidity nUpTo = { e with nStatus := { e.nStatus with valid := level } } := by
  unfold CBlockIndex.raiseValidity
  split
  · exact ⟨_, le_rfl, rfl⟩
  · split
    · rename_i hlt
      exact ⟨_, hlt.le, rfl⟩
    · exact ⟨_, le_rfl, rfl⟩

theorem connectEntry_eq (nUndoPos : ℕ) (e : CBlockIndex) :
    ∃ level undo pos, e.nStatus.valid.toNat ≤ level.toNat ∧ connectEntry nUndoPos e =
      { e with
        nUndoPos := pos
        nStatus := { e.nStatus with valid := level, haveUndo := undo } } := by
  have hraise : ∀ e' : CBlockIndex, e'.nStatus.valid = e.nStatus.valid →
      ∃ level, e.nStatus.valid.toNat ≤ level.toNat ∧
        (if e'.isValid .scripts then e' else e'.raiseValidity .scripts) =
          { e' with nStatus := { e'.nStatus with valid := level } } := by
    intro e' he'
    split
    · exact ⟨_, he' ▸ le_rfl, rfl⟩
    · exact he' ▸ raiseValidity_valid e' .scripts
  unfold connectEntry
  split
  · exact ⟨_, _, _, le_rfl, rfl⟩
  · split
    · obtain ⟨level, hle, heq⟩ := hraise e rfl
      exact ⟨level, _, _, hle, heq⟩
    · obtain ⟨level, hle, heq⟩ := hraise
        { e with nUndoPos := nUndoPos, nStatus := { e.nStatus with haveUndo := true } } rfl
      exact ⟨level, _, _, hle, heq⟩

theorem connectEntry_same (p : Uint256) (nUndoPos : ℕ) :
    SameBlocks s (s.modifyEntry p (connectEntry nUndoPos)) ∧
      ∀ h, ((s.modifyEntry p (connectEntry nUndoPos)).nStatus h).failedValid =
          (s.nStatus h).failedValid ∧
        (s.modifyEntry p (connectEntry nUndoPos)).failed h = s.failed h := by
  have hentry : ∀ (h : Uint256) (e : CBlockIndex), ∃ level undo pos,
      e.nStatus.valid.toNat ≤ level.toNat ∧ (if h = p then connectEntry nUndoPos e else e) =
        { e with
          nUndoPos := pos
          nStatus := { e.nStatus with valid := level, haveUndo := undo } } := by
    intro h e
    split
    · exact connectEntry_eq nUndoPos e
    · exact ⟨_, _, _, le_rfl, rfl⟩
  constructor
  · refine .of_entries (f := fun h e => if h = p then connectEntry nUndoPos e else e) rfl
      (fun _ => rfl) rfl ?_ ?_
    · intro h e
      obtain ⟨level, undo, pos, -, heq⟩ := hentry h e
      rw [heq]
      rfl
    · intro h e
      obtain ⟨level, undo, pos, hle, heq⟩ := hentry h e
      rw [heq]
      exact hle
  · intro h
    simp only [Chainstate.failed, Chainstate.nStatus, Chainstate.modifyEntry,
      Chainstate.mapEntries]
    cases s.m_block_index h with
    | none => exact ⟨rfl, rfl⟩
    | some e =>
      obtain ⟨level, undo, pos, -, heq⟩ := hentry h e
      simp only [Option.map_some, Option.getD_some]
      rw [heq]
      exact ⟨rfl, rfl⟩

/-- What a connected block changes. -/
structure Connected (s s' : Chainstate) (p : Uint256) : Prop where
  same : SameBlocks s s'
  flags : ∀ h, (s'.nStatus h).failedValid = (s.nStatus h).failedValid ∧ s'.failed h = s.failed h
  tip : s'.m_tip = some p
  candidates : s'.setBlockIndexCandidates = s.setBlockIndexCandidates

variable {p : Uint256}

/-- **`ConnectTip`** connects the block or marks it.
SOURCE: src/src/validation.cpp:3495-3622 -/
theorem connectTip_wp (I : StateInv n s) (hmem : (s.m_block_index p).isSome)
    (hp : s.pprev p = s.m_tip) :
    wp (fun _ => False) (connectTip n.connectBlock p)
      (fun connected s' =>
        (connected = true ∧ n.connectBlock p ≠ .invalid ∧ Connected s s' p) ∨
        (connected = false ∧ Refused n p ∧ s.m_tip ≠ none ∧ ∃ best worst, s' =
          { markInvalid p s with best_header := best, m_best_invalid := worst })) s := by
  simp only [connectTip, wp_bind, wp_get, hp, ne_eq, not_true_eq_false, if_false]
  cases hconnect : n.connectBlock p with
  | invalid =>
    -- the genesis block connects, so there is a tip
    have htip : s.m_tip ≠ none := by
      intro hnone
      rw [I.blocks.genesis p hmem (by rw [hp, hnone])] at hconnect
      exact n.genesis_connects hconnect
    simp only [wp_bind]
    apply wp_mono (wp_weaken (invalidBlockFound_wp p .consensus) fun _ => htip)
    rintro - _ (⟨hmutated, -⟩ | ⟨-, -, hmarked⟩)
    · cases hmutated
    · exact .inr ⟨rfl, hconnect, htip, hmarked⟩
  | connected nUndoPos =>
    obtain ⟨S, hflags⟩ := connectEntry_same (s := s) p nUndoPos
    refine .inl ⟨rfl, by simp, ?_⟩
    exact ⟨S.trans (.of_index rfl rfl rfl), hflags, rfl, rfl⟩

theorem Working.connect (W : Working n s) (C : Connected s s' p)
    (hp : s.pprev p = s.m_tip) (hconnect : n.connectBlock p ≠ .invalid)
    (htx : s.haveNumChainTxs p = true) (hfailed : s.failed p = false) : Working n s' := by
  have hflags : s'.failed = s.failed := funext fun h => (C.flags h).2
  refine ⟨⟨W.blocks.same C.same, W.flags.of_flags C.same.pprev hflags, ?_, ?_⟩, ?_⟩
  · intro t ht
    rw [C.tip, Option.some_inj] at ht
    subst ht
    rw [C.same.haveNumChainTxs, hflags]
    refine ⟨htx, hfailed, fun a ha => ?_⟩
    rw [C.same.pprev] at ha
    rcases ha.eq_or_parent with rfl | ⟨t, ht, hat⟩
    · exact hconnect
    · exact (W.tip t (hp ▸ ht)).2.2 a hat
  · rw [C.candidates, C.same.haveNumChainTxs]
    exact W.candidates
  · intro h hhtx hhfailed
    rw [C.same.haveNumChainTxs] at hhtx
    rw [hflags] at hhfailed
    rw [C.candidates, C.same.sortKey, hflags]
    refine (W.covered h hhtx hhfailed).imp_right ?_
    rintro ⟨c, hc, hconnects, hrest⟩
    exact ⟨c, hc, C.same.chainConnects hconnects, hrest⟩

/-! ## Dropping candidates before the tip -/

theorem Working.prune (W : Working n s) {t : Uint256} (ht : s.m_tip = some t)
    {left : List Uint256}
    (hleft : ∀ c, c ∈ left ↔
      c ∈ s.setBlockIndexCandidates ∧ sortKey n.addr s t ≤ sortKey n.addr s c) :
    left ≠ [] ∧ Working n { s with setBlockIndexCandidates := left } := by
  obtain ⟨htx, htfailed, htconnects⟩ := W.tip t ht
  -- the tip, or what covers it, stays and covers all that goes
  obtain ⟨d, hd, hdconnects, hdfailed, htd⟩ : ∃ d ∈ left,
      ChainConnects n s d ∧ s.failed d = false ∧ sortKey n.addr s t ≤ sortKey n.addr s d := by
    rcases W.covered t htx htfailed with hmem | ⟨c, hc, hconnects, hfailed, hlt⟩
    · exact ⟨t, (hleft t).mpr ⟨hmem, le_rfl⟩, htconnects, htfailed, le_rfl⟩
    · exact ⟨c, (hleft c).mpr ⟨hc, hlt.le⟩, hconnects, hfailed, hlt.le⟩
  have hstays : ∀ c ∈ s.setBlockIndexCandidates,
      c ∈ left ∨ sortKey n.addr s c < sortKey n.addr s d := by
    intro c hc
    rcases le_or_gt (sortKey n.addr s t) (sortKey n.addr s c) with hle | hlt
    · exact .inl ((hleft c).mpr ⟨hc, hle⟩)
    · exact .inr (hlt.trans_le htd)
  refine ⟨List.ne_nil_of_mem hd, ⟨⟨W.blocks.same (.of_index rfl rfl rfl),
    W.flags.of_flags rfl rfl, W.tip, ?_⟩, ?_⟩⟩
  · intro c hc
    exact W.candidates c ((hleft c).mp hc).1
  · intro h hhtx hhfailed
    rcases W.covered h hhtx hhfailed with hmem | ⟨c, hc, hconnects, hfailed, hlt⟩
    · rcases hstays h hmem with hmem | hlt
      · exact .inl hmem
      · exact .inr ⟨d, hd, hdconnects, hdfailed, hlt⟩
    · rcases hstays c hc with hmem | hlt'
      · exact .inr ⟨c, hmem, hconnects, hfailed, hlt⟩
      · exact .inr ⟨d, hd, hdconnects, hdfailed, hlt.trans hlt'⟩

/-- **`PruneBlockIndexCandidates`** leaves a candidate.
SOURCE: src/src/validation.cpp:3694-3709 -/
theorem pruneBlockIndexCandidates_wp (W : Working n s) {t : Uint256} (ht : s.m_tip = some t) :
    wp (fun _ => False) (pruneBlockIndexCandidates n.addr)
      (fun _ s' => ∃ left, s' = { s with setBlockIndexCandidates := left } ∧ Working n s' ∧
        ∀ c, c ∈ left ↔
          c ∈ s.setBlockIndexCandidates ∧ sortKey n.addr s t ≤ sortKey n.addr s c) s := by
  have hleft : ∀ c, c ∈ s.setBlockIndexCandidates.filter (fun p => !workComparator n.addr s p t) ↔
      c ∈ s.setBlockIndexCandidates ∧ sortKey n.addr s t ≤ sortKey n.addr s c := by
    intro c
    rw [List.mem_filter, Bool.not_eq_true', workComparator_false_iff]
  obtain ⟨hne, W'⟩ := W.prune ht hleft
  simp only [pruneBlockIndexCandidates, wp_bind, wp_get]
  split
  · rename_i hnone
    rw [ht] at hnone
    cases hnone
  · rename_i t' ht'
    rw [ht, Option.some_inj] at ht'
    subst ht'
    rw [if_neg (by rwa [List.isEmpty_iff])]
    exact ⟨_, rfl, W', hleft⟩

/-! ## Connecting the blocks on the way -/

/-- What the rounds of `ActivateBestChain` do: they mark refused blocks and drop candidates. -/
structure Progress (n : Node σ) (s s' : Chainstate) : Prop where
  working : Working n s'
  reflags : Reflags (Refused n) s s'
  sub : ∀ c ∈ s'.setBlockIndexCandidates, c ∈ s.setBlockIndexCandidates

theorem Progress.bounded (P : Progress n s s') {B : ℕ} (hB : ∀ h, s.nHeight h ≤ B) :
    ∀ h, s'.nHeight h ≤ B := by
  rw [P.reflags.nHeight]
  exact hB

theorem Progress.trans {s'' : Chainstate} (P : Progress n s s') (P' : Progress n s' s'') :
    Progress n s s'' :=
  ⟨P'.working, P.reflags.trans P'.reflags, fun c hc => P.sub c (P'.sub c hc)⟩

/-- A block that was not marked is marked now. -/
def MarksBlock (s s' : Chainstate) : Prop :=
  ∃ p, (s.m_block_index p).isSome ∧ s.failed p = false ∧ s'.failed p = true

/-- **A connected block** is followed by dropping the candidates before it. -/
theorem Working.advance (W : Working n s) {M p : Uint256} (A : Aims n s M) (C : Connected s s' p)
    (hp : s.pprev p = s.m_tip) (hconnect : n.connectBlock p ≠ .invalid)
    (hpM : AncestorOf s.pprev p M) :
    wp (fun _ => False) (pruneBlockIndexCandidates n.addr)
      (fun _ s'' => Progress n s s'' ∧ Aims n s'' M ∧ s''.m_tip = some p) s' := by
  have hMtx := W.candidates M A.mem
  have hpfailed := W.flags.unflagged_of_ancestor hpM A.unflagged
  have hptx := W.blocks.linked_of_ancestor hpM hMtx
  have W' := W.connect C hp hconnect hptx hpfailed
  have hle := W.le_aim A hptx hpfailed
  apply wp_mono (pruneBlockIndexCandidates_wp W' C.tip)
  rintro - _ ⟨left, rfl, W'', hleft⟩
  rw [C.candidates, C.same.sortKey] at hleft
  have R : Reflags (Refused n) s { s' with setBlockIndexCandidates := left } :=
    (Reflags.of_flags C.same C.flags).trans (.of_index rfl rfl rfl)
  refine ⟨⟨W'', R, fun c hc => ((hleft c).mp hc).1⟩, ⟨(hleft M).mpr ⟨A.mem, hle⟩, ?_, ?_⟩, C.tip⟩
  · exact (C.flags M).2.trans A.unflagged
  · intro c hc
    rw [R.sortKey]
    exact A.last c ((hleft c).mp hc).1

/-- **A refused block** is marked with everything below it, and so is the end of the
batch. -/
theorem Working.refuse (W : Working n s) {p front : Uint256} {best worst : Option Uint256}
    (hmem : (s.m_block_index p).isSome) (hrefused : Refused n p) (hroot : s.pprev p ≠ none)
    (hfailed : s.failed p = false) (hfront : AncestorOf s.pprev p front)
    (hs' : s' = { markInvalid p s with best_header := best, m_best_invalid := worst })
    (htip : s.m_tip ≠ none) :
    wp (fun _ => False) (invalidChainFound front)
      (fun _ s'' => Progress n s s'' ∧ s''.m_tip ≠ none ∧ MarksBlock s s'') s' := by
  have T := W.blocks.tree
  have hfmem := isSome_of_descendant hfront hmem
  have R : Reflags (· = p) s s' := by
    subst hs'
    exact (Reflags.markInvalid T hmem).trans (.of_index rfl rfl rfl)
  have hbelow : ∀ h, AncestorOf s.pprev p h → s'.failed h = true := by
    subst hs'
    exact fun h hph => failed_markInvalid T hmem hph
  have F := W.flags.below R hroot hbelow
  have htip' : s'.m_tip = s.m_tip := by rw [hs']; rfl
  apply wp_mono (wp_weaken (invalidChainFound_wp front) fun _ h => htip (htip' ▸ h))
  rintro - s'' ⟨-, best', worst', rfl⟩
  have R' : Reflags (· = front) s' { setBlockFailureFlags front s' with
      best_header := best', m_best_invalid := worst' } :=
    (Reflags.setBlockFailureFlags (R.tree T) (by rw [R.isSome, hfmem])
      (hbelow front hfront)).trans (.of_index rfl rfl rfl)
  have hfrontroot : s'.pprev front ≠ none := by
    rw [R.pprev]
    rcases hfront.eq_or_parent with rfl | ⟨q, hq, -⟩
    · exact hroot
    · rw [hq]
      exact Option.some_ne_none q
  have F' := F.below R' hfrontroot fun h hh => R'.mono h (F.closed front h hh (hbelow front hfront))
  have Rall := (R.above (.refl p) hrefused).trans (R'.above (R.pprev ▸ hfront) hrefused)
  have hpfailed := R'.mono p (hbelow p (.refl p))
  have hcands : ∀ c, c ∈ s'.setBlockIndexCandidates ↔ c ∈ s.setBlockIndexCandidates ∧ c ≠ p := by
    intro c
    subst hs'
    exact List.mem_filter.trans (and_congr_right fun _ => bne_iff_ne)
  have hsub : ∀ c ∈ s'.setBlockIndexCandidates, c ∈ s.setBlockIndexCandidates :=
    fun c hc => ((hcands c).mp hc).1
  refine ⟨⟨W.reflag Rall F' htip' hsub fun c hc hcfailed => ?_, Rall, hsub⟩, htip' ▸ htip, p, hmem,
    hfailed, hpfailed⟩
  refine (hcands c).mpr ⟨hc, ?_⟩
  rintro rfl
  rw [hpfailed] at hcfailed
  cases hcfailed

theorem Progress.refl (W : Working n s) : Progress n s s := ⟨W, .refl s, fun _ hc => hc⟩

theorem MarksBlock.before {s'' : Chainstate} (R : Reflags (Refused n) s s')
    (h : MarksBlock s' s'') : MarksBlock s s'' := by
  obtain ⟨p, hmem, hbefore, hafter⟩ := h
  exact ⟨p, by rwa [R.isSome] at hmem, R.unflagged hbefore, hafter⟩

/-- **A batch of blocks** on the way from the tip to the chosen block. -/
theorem connectBatch_wp (pindexOldTip : Option Uint256) {front M : Uint256} (L : List Uint256)
    (W : Working n s) (A : Aims n s M) (hfront : ∀ b ∈ L, AncestorOf s.pprev b front)
    (hM : ∀ b ∈ L, AncestorOf s.pprev b M) (hlinked : HashChain.Linked some s.pprev s.m_tip L) :
    wp (fun _ => False) (connectBatch n.addr n.connectBlock pindexOldTip front L)
      (fun r s' => Progress n s s' ∧
        match r with
        | .through => Aims n s' M ∧ s'.m_tip = HashChain.lastHash some s.m_tip L
        | .improved => Aims n s' M ∧ ∃ b ∈ L, s'.m_tip = some b
        | .invalidFound => s'.m_tip ≠ none ∧ MarksBlock s s') s := by
  induction L generalizing s with
  | nil => exact ⟨.refl W, A, rfl⟩
  | cons p rest ih =>
    obtain ⟨hp, hlinked⟩ := hlinked
    have hpM := hM p List.mem_cons_self
    have hMmem := isSome_of_haveNumChainTxs (W.candidates M A.mem)
    have hmem := (isSome_of_ancestor W.blocks.tree hMmem hpM).1
    simp only [connectBatch, wp_bind]
    apply wp_mono (connectTip_wp W.toStateInv hmem hp)
    rintro connected s₁ (⟨rfl, hconnect, C⟩ | ⟨rfl, hrefused, htip, best, worst, hs₁⟩)
    · simp only [if_true, wp_bind, wp_get]
      apply wp_mono (W.advance A C hp hconnect hpM)
      rintro - s₂ ⟨P, A₂, htip₂⟩
      split
      · exact ⟨P, A₂, p, List.mem_cons_self, htip₂⟩
      · have hpprev := P.reflags.pprev
        refine wp_mono (ih P.working A₂ ?_ ?_ ?_) ?_
        · rw [hpprev]
          exact fun b hb => hfront b (List.mem_cons_of_mem p hb)
        · rw [hpprev]
          exact fun b hb => hM b (List.mem_cons_of_mem p hb)
        · rw [hpprev, htip₂]
          exact hlinked
        · rintro r s₃ ⟨P', hr⟩
          refine ⟨P.trans P', ?_⟩
          cases r with
          | through => exact ⟨hr.1, by rw [hr.2, htip₂, HashChain.lastHash_cons]⟩
          | improved =>
            obtain ⟨A₃, b, hb, htip₃⟩ := hr
            exact ⟨A₃, b, List.mem_cons_of_mem p hb, htip₃⟩
          | invalidFound => exact ⟨hr.1, hr.2.before P.reflags⟩
    · simp only [Bool.false_eq_true, if_false, wp_bind]
      have hpfailed := W.flags.unflagged_of_ancestor hpM A.unflagged
      apply wp_mono (W.refuse hmem hrefused (hp ▸ htip) hpfailed
        (hfront p List.mem_cons_self) hs₁ htip)
      rintro - s₂ ⟨P, htip₂, hmarks⟩
      exact ⟨P, htip₂, hmarks⟩

/-- **The batches** end at the chosen block, ahead of the old tip, or with a block
marked.
SOURCE: src/src/validation.cpp:3750-3803 -/
theorem connectBatches_wp (pindexOldTip : Option Uint256) {M : Uint256} (fuel : ℕ) {nHeight : ℤ}
    (W : Working n s) (A : Aims n s M) (hat : TipAt s nHeight M)
    (hfuel : s.nHeight M ≤ nHeight + fuel) :
    wp (fun _ => False) (connectBatches n.addr n.connectBlock M pindexOldTip fuel nHeight)
      (fun fInvalidFound s' => Progress n s s' ∧ s'.m_tip ≠ none ∧
        if fInvalidFound then MarksBlock s s'
        else Aims n s' M ∧ ∃ b, s'.m_tip = some b ∧ AncestorOf s.pprev b M ∧
          (b = M ∨ nHeight < s.nHeight b)) s := by
  induction fuel using Nat.strong_induction_on generalizing s nHeight with
  | _ fuel ih =>
    have T := W.blocks.tree
    have hMmem := isSome_of_haveNumChainTxs (W.candidates M A.mem)
    rw [connectBatches.eq_def, wp_bind, wp_get]
    by_cases heq : nHeight = s.nHeight M
    · have htip := TipAt.tip_eq (heq ▸ hat) T hMmem
      rw [if_pos heq]
      exact ⟨.refl W, by simp [htip], A, M, htip, .refl M, .inl rfl⟩
    · have hle := hat.le_nHeight T hMmem
      obtain ⟨fuel, rfl⟩ : ∃ k, fuel = k + 1 := ⟨fuel - 1, by omega⟩
      obtain ⟨q, rest, hget, hqmem, hqM, hqheight, hatq, hlist⟩ := hat.batch T hMmem
        (min (nHeight + 32) (s.nHeight M)) (by omega) (by omega)
      have hqle : s.nHeight q < s.nHeight M + 1 := by omega
      obtain ⟨hlinked, hlast, hanc⟩ := blocksToConnect_eq T _ hqmem hqle hatq
      rw [hlist] at hlinked hlast hanc
      simp only [if_neg heq, hget, hlist, wp_bind]
      refine wp_mono (connectBatch_wp pindexOldTip _ W A ?_ ?_ hlinked) ?_
      · exact fun b hb => (hanc b (List.mem_reverse.mp hb)).1
      · exact fun b hb => (hanc b (List.mem_reverse.mp hb)).1.trans hqM
      · rintro r s₁ ⟨P, hr⟩
        have hpprev := P.reflags.pprev
        have hnHeight := P.reflags.nHeight
        cases r with
        | through =>
          obtain ⟨A₁, htip₁⟩ := hr
          rw [hlast] at htip₁
          -- the next batch starts from the block this one led to
          refine wp_mono (ih fuel (by omega) P.working A₁ (.inr ⟨q, htip₁, ?_, ?_⟩) ?_) ?_
          · rwa [hpprev]
          · rw [hnHeight, hqheight]
          · rw [hnHeight]
            omega
          · rintro fInvalidFound s₂ ⟨P', htip₂, hend⟩
            refine ⟨P.trans P', htip₂, ?_⟩
            rw [hpprev, hnHeight] at hend
            cases fInvalidFound with
            | true => exact hend.before P.reflags
            | false =>
              obtain ⟨A₂, b, hb, hbM, hhigher⟩ := hend
              exact ⟨A₂, b, hb, hbM, hhigher.imp_right fun h => by omega⟩
        | improved =>
          obtain ⟨A₁, b, hb, htip₁⟩ := hr
          obtain ⟨hbq, hblt⟩ := hanc b (List.mem_reverse.mp hb)
          exact ⟨P, by simp [htip₁], A₁, b, htip₁, hbq.trans hqM, .inr hblt⟩
        | invalidFound => exact ⟨P, hr.1, hr.2⟩

theorem Working.moveBack (W : Working n s) {t f : Uint256} (ht : s.m_tip = some t)
    (hf : AncestorOf s.pprev f t) : Progress n s { s with m_tip := some f } :=
  ⟨⟨W.toStateInv.moveBack ht hf, W.covered⟩, .of_index rfl rfl rfl, fun _ hc => hc⟩

/-- **`ActivateBestChainStep`** gets closer to the chosen block or marks a block.
SOURCE: src/src/validation.cpp:3711-3812 -/
theorem activateBestChainStep_wp {M : Uint256} (W : Working n s) (A : Aims n s M)
    (hne : s.m_tip ≠ some M) :
    wp (fun _ => False) (activateBestChainStep n.addr n.connectBlock M)
      (fun fInvalidFound s' => Progress n s s' ∧ s'.m_tip ≠ none ∧
        if fInvalidFound then MarksBlock s s'
        else Aims n s' M ∧ ∃ b, s'.m_tip = some b ∧ AncestorOf s.pprev b M ∧
          ∀ t, s.m_tip = some t → AncestorOf s.pprev t M → s.nHeight t < s.nHeight b) s := by
  have T := W.blocks.tree
  have hMmem := isSome_of_haveNumChainTxs (W.candidates M A.mem)
  simp only [activateBestChainStep, wp_bind, wp_get]
  cases ht : s.m_tip with
  | none =>
    have hfork : s.findFork M = none := by rw [Chainstate.findFork, ht]
    rw [hfork]
    have hstay : wp (fun _ => False) (disconnectTo none (Option.elim none 0 fun tip =>
        s.nHeight tip + 1)) (fun _ s' => s' = s) s := by
      simp [disconnectTo, ht]
    apply wp_mono hstay
    rintro - _ rfl
    apply wp_mono (connectBatches_wp none _ W A (.inl ⟨ht, rfl⟩) (by simp))
    rintro fInvalidFound s' ⟨P, htip', hend⟩
    refine ⟨P, htip', ?_⟩
    cases fInvalidFound with
    | true => exact hend
    | false =>
      obtain ⟨A', b, hb, hbM, -⟩ := hend
      exact ⟨A', b, hb, hbM, by simp⟩
  | some t =>
    have htmem := isSome_of_haveNumChainTxs (W.tip t ht).1
    obtain ⟨f, hfork, hcommon⟩ := findFork_eq T ht htmem hMmem
      ⟨_, (W.blocks.genesis_above htmem).1, (W.blocks.genesis_above hMmem).1⟩
    rw [hfork]
    have hdisconnect := disconnectTo_wp T (s.nHeight t + 1) htmem hcommon.left (by omega)
    have hself : { s with m_tip := some t } = s := by rw [← ht]
    rw [hself] at hdisconnect
    apply wp_mono hdisconnect
    rintro - _ rfl
    have P := W.moveBack ht hcommon.left
    have A' : Aims n { s with m_tip := some f } M := ⟨A.mem, A.unflagged, A.last⟩
    have hat : TipAt { s with m_tip := some f } (s.nHeight f) M := .inr ⟨f, rfl, hcommon.right, rfl⟩
    apply wp_mono (connectBatches_wp (some t) _ P.working A' hat (by
      change (s.nHeight M : ℤ) ≤ s.nHeight f + (s.nHeight M + 1 : ℕ)
      omega))
    rintro fInvalidFound s' ⟨P', htip', hend⟩
    refine ⟨P.trans P', htip', ?_⟩
    cases fInvalidFound with
    | true => exact hend.before P.reflags
    | false =>
      obtain ⟨A'', b, hb, hbM, hhigher⟩ := hend
      refine ⟨A'', b, hb, hbM, ?_⟩
      intro t' ht' htM
      obtain rfl : t = t' := Option.some_inj.mp ht'
      -- a tip on the way to the chosen block is where the chains part
      have hft : f = t := T.graded.antisymm htmem hcommon.left (hcommon.last t (.refl t) htM)
      rcases hhigher with rfl | hlt
      · by_contra hge
        exact hne (by rw [ht, T.graded.eq_of_ancestor hMmem htM (not_lt.mp hge)])
      · rw [hft] at hlt
        exact_mod_cast hlt

/-! ## Choosing a candidate -/

theorem findUnusable_none (I : StateInv n s) (fuel : ℕ)
    (htx : s.haveNumChainTxs p = true) (hfailed : s.failed p = false)
    (hfuel : s.nHeight p < fuel) : findUnusable s fuel (some p) = .ok none := by
  induction fuel generalizing p with
  | zero => omega
  | succ fuel ih =>
    rw [findUnusable]
    split
    · rfl
    · rw [if_neg (by simp [htx]), if_neg (by simp [hfailed, I.blocks.data p htx])]
      cases hp : s.pprev p with
      | none => cases fuel <;> rfl
      | some q =>
        have hheight := (parent_of_pprev I.blocks.tree (isSome_of_haveNumChainTxs htx) hp).2
        exact ih (I.blocks.linked p q htx hp)
          (I.flags.unflagged_of_ancestor (.parent hp) hfailed) (by omega)

theorem findUnusable_failed (I : StateInv n s) (fuel : ℕ)
    (htx : s.haveNumChainTxs p = true) (hfailed : s.failed p = true) :
    findUnusable s (fuel + 1) (some p) = .ok (some (p, true)) := by
  have hout : ¬ s.contains p = true := by
    cases ht : s.m_tip with
    | none => simp [Chainstate.contains, ht]
    | some t =>
      obtain ⟨httx, htfailed, -⟩ := I.tip t ht
      rw [contains_iff I.blocks.tree ht (isSome_of_haveNumChainTxs httx)]
      intro hpt
      rw [I.flags.unflagged_of_ancestor hpt htfailed] at hfailed
      cases hfailed
  rw [findUnusable, if_neg hout, if_neg (by simp [htx]), if_pos (by simp [hfailed]), hfailed]

/-- What `FindMostWorkChain` leaves: marked candidates are gone until the last one is not
marked. -/
structure Chosen (n : Node σ) (s s' : Chainstate) (M : Option Uint256) : Prop where
  progress : Progress n s s'
  tip : s'.m_tip = s.m_tip
  aims : ∀ m, M = some m → Aims n s' m
  empty : M = none → s'.setBlockIndexCandidates = []
  flags : s'.failed = s.failed

theorem dropChain_self (b : Uint256) :
    dropChain b b true s =
      .ok ({ s with m_best_invalid := worstInvalid s b }.eraseCandidate b) := by
  rw [dropChain, removeChain.eq_def, if_pos rfl]
  rfl

theorem Working.drop (W : Working n s) {b : Uint256} (hfailed : s.failed b = true)
    (hs' : s' = { s with m_best_invalid := worstInvalid s b }.eraseCandidate b) :
    Progress n s s' := by
  have R : Reflags (Refused n) s s' := by
    subst hs'
    exact .of_index rfl rfl rfl
  have hsub : ∀ c ∈ s'.setBlockIndexCandidates, c ∈ s.setBlockIndexCandidates := by
    subst hs'
    exact fun c hc => (List.mem_filter.mp hc).1
  refine ⟨W.reflag R (W.flags.of_flags R.pprev (by rw [hs']; rfl)) (by rw [hs']; rfl) hsub ?_, R,
    hsub⟩
  intro c hc hcfailed
  subst hs'
  refine List.mem_filter.mpr ⟨hc, bne_iff_ne.mpr ?_⟩
  rintro rfl
  exact absurd hcfailed (by rw [← Bool.not_eq_true, not_not]; exact hfailed)

theorem findMostWorkChainLoop_round (fuel : ℕ) (W : Working n s) :
    (∃ M, findMostWorkChainLoop n.addr fuel s = .ok (M, s) ∧ Chosen n s s M) ∨
      ∃ s₁, Progress n s s₁ ∧ s₁.m_tip = s.m_tip ∧ s₁.failed = s.failed ∧
        s₁.setBlockIndexCandidates.length < s.setBlockIndexCandidates.length ∧
        ∀ k, fuel = k + 1 →
          findMostWorkChainLoop n.addr fuel s = findMostWorkChainLoop n.addr k s₁ := by
  rcases @rbegin_cases n.addr s with ⟨hnil, hlast⟩ | ⟨b, hlast, hb, hall⟩
  · refine .inl ⟨none, ?_, .refl W, rfl, by simp, fun _ => hnil, rfl⟩
    rw [findMostWorkChainLoop.eq_def, hlast]
  · have htx := W.candidates b hb
    cases hfailed : s.failed b with
    | false =>
      refine .inl ⟨some b, ?_, .refl W, rfl, ?_, by simp, rfl⟩
      · rw [findMostWorkChainLoop.eq_def, hlast]
        simp only [findUnusable_none W.toStateInv _ htx hfailed (Nat.lt_succ_self _)]
      · intro m hm
        obtain rfl : b = m := Option.some_inj.mp hm
        exact ⟨hb, hfailed, hall⟩
    | true =>
      refine .inr ⟨_, W.drop hfailed rfl, rfl, rfl, ?_, ?_⟩
      · exact List.length_filter_lt_length_iff_exists.mpr ⟨b, hb, by simp⟩
      · rintro k rfl
        rw [findMostWorkChainLoop.eq_def, hlast]
        simp only [findUnusable_failed W.toStateInv _ htx hfailed, dropChain_self]

/-- **`FindMostWorkChain`** finds the last candidate that is not marked.
SOURCE: src/src/validation.cpp:3633-3691 -/
theorem findMostWorkChainLoop_eq (fuel : ℕ) (W : Working n s)
    (hfuel : s.setBlockIndexCandidates.length ≤ fuel) :
    ∃ M s', findMostWorkChainLoop n.addr fuel s = .ok (M, s') ∧ Chosen n s s' M := by
  induction fuel generalizing s with
  | zero =>
    rcases findMostWorkChainLoop_round 0 W with ⟨M, heq, C⟩ | ⟨s₁, -, -, -, hshorter, -⟩
    · exact ⟨M, s, heq, C⟩
    · omega
  | succ fuel ih =>
    rcases findMostWorkChainLoop_round (fuel + 1) W with
      ⟨M, heq, C⟩ | ⟨s₁, P, htip, hflags, hshorter, hnext⟩
    · exact ⟨M, s, heq, C⟩
    · obtain ⟨M, s', heq, C⟩ := ih P.working (by omega)
      exact ⟨M, s', by rw [hnext fuel rfl, heq], P.trans C.progress, C.tip.trans htip, C.aims,
        C.empty, C.flags.trans hflags⟩

theorem findMostWorkChain_wp (W : Working n s) :
    wp (fun _ => False) (findMostWorkChain n.addr) (fun M s' => Chosen n s s' M) s := by
  obtain ⟨M, s', heq, C⟩ := findMostWorkChainLoop_eq _ W le_rfl
  unfold wp findMostWorkChain
  rw [heq]
  exact C

/-! ## The number of rounds -/

/-- The blocks that are not marked. -/
def unflaggedBlocks (s : Chainstate) : Finset Uint256 :=
  s.hashes.toFinset.filter fun h => s.failed h = false

/-- How far the tip is from the chosen block; `B` bounds the heights.  To choose a block and to
leave a side chain count as rounds of their own. -/
def distance (B : ℕ) (s : Chainstate) : Option Uint256 → ℕ
  | none => B + 2
  | some M =>
    match s.m_tip with
    | none => B + 1
    | some t => if s.descendsFrom M t then s.nHeight M - s.nHeight t else B + 1

/-- **The rounds of `ActivateBestChain` that may be left.** -/
def rounds (B : ℕ) (s : Chainstate) (M : Option Uint256) : ℕ :=
  (unflaggedBlocks s).card * (B + 3) + distance B s M

theorem unflaggedBlocks_subset (R : Reflags (Refused n) s s') :
    unflaggedBlocks s' ⊆ unflaggedBlocks s := by
  intro h hh
  simp only [unflaggedBlocks, Finset.mem_filter, List.mem_toFinset, R.hashes] at hh ⊢
  exact ⟨hh.1, R.unflagged hh.2⟩

variable {B : ℕ}

theorem distance_le (hB : ∀ h, s.nHeight h ≤ B) (M : Option Uint256) :
    distance B s M ≤ B + 2 := by
  unfold distance
  split
  · exact le_rfl
  · rename_i M
    have := hB M
    split
    · omega
    · split <;> omega

theorem rounds_lt_of_marks (I : BlocksInv n s) (R : Reflags (Refused n) s s')
    (hmarks : MarksBlock s s') (M : Option Uint256) : rounds B s' none < rounds B s M := by
  obtain ⟨p, hmem, hbefore, hafter⟩ := hmarks
  have hlt : (unflaggedBlocks s').card < (unflaggedBlocks s).card := by
    refine Finset.card_lt_card ((Finset.ssubset_iff_of_subset (unflaggedBlocks_subset R)).mpr
      ⟨p, ?_, ?_⟩)
    · simp [unflaggedBlocks, (I.keys p).mpr hmem, hbefore]
    · simp [unflaggedBlocks, hafter]
  calc rounds B s' none < ((unflaggedBlocks s').card + 1) * (B + 3) := by
        simp only [rounds, distance]
        rw [Nat.add_mul]
        omega
    _ ≤ (unflaggedBlocks s).card * (B + 3) := Nat.mul_le_mul_right _ hlt
    _ ≤ rounds B s M := Nat.le_add_right _ _

theorem rounds_lt_of_closer (T : TreeInv s.m_block_index) (hB : ∀ h, s.nHeight h ≤ B)
    (R : Reflags (Refused n) s s') {M b : Uint256} (hMmem : (s.m_block_index M).isSome)
    (htip' : s'.m_tip = some b) (hbM : AncestorOf s.pprev b M)
    (hcloser : ∀ t, s.m_tip = some t → AncestorOf s.pprev t M → s.nHeight t < s.nHeight b) :
    rounds B s' (some M) < rounds B s (some M) := by
  have hcard := Nat.mul_le_mul_right (B + 3) (Finset.card_le_card (unflaggedBlocks_subset R))
  have hble := (isSome_of_ancestor T hMmem hbM).2
  have hMB := hB M
  have hafter : distance B s' (some M) = s.nHeight M - s.nHeight b := by
    have hdescends : s'.descendsFrom M b = true := by
      rw [descendsFrom_iff (R.tree T) (by rw [R.isSome, hMmem]), R.pprev]
      exact hbM
    simp only [distance, htip', hdescends, if_true, R.nHeight]
  have hbefore : s.nHeight M - s.nHeight b < distance B s (some M) := by
    simp only [distance]
    split
    · omega
    · rename_i t ht
      split
      · rename_i hdescends
        have := hcloser t ht ((descendsFrom_iff T hMmem).mp hdescends)
        omega
      · omega
  simp only [rounds, hafter]
  omega

variable {M : Option Uint256}

theorem Chosen.rounds_le (hB : ∀ h, s.nHeight h ≤ B)
    (C : Chosen n s s' M) : rounds B s' M ≤ rounds B s none := by
  have hcard := Nat.mul_le_mul_right (B + 3)
    (Finset.card_le_card (unflaggedBlocks_subset C.progress.reflags))
  have hdist := distance_le (C.progress.bounded hB) M
  simp only [rounds, show distance B s none = B + 2 from rfl]
  omega

theorem chooseChain_wp (hB : ∀ h, s.nHeight h ≤ B) (W : Working n s)
    (A : ∀ m, M = some m → Aims n s m) :
    wp (fun _ => False) (chooseChain n.addr M)
      (fun M₁ s₁ => Progress n s s₁ ∧ s₁.m_tip = s.m_tip ∧ (∀ m, M₁ = some m → Aims n s₁ m) ∧
        (M₁ = none → s₁.setBlockIndexCandidates = []) ∧ rounds B s₁ M₁ ≤ rounds B s M) s := by
  cases M with
  | none =>
    apply wp_mono (findMostWorkChain_wp W)
    exact fun M₁ s₁ C => ⟨C.progress, C.tip, C.aims, C.empty, C.rounds_le hB⟩
  | some m => exact ⟨.refl W, rfl, A, by simp, le_rfl⟩

/-! ## The loops -/

/-- The chosen block is reached, or there is none to choose. -/
def Settled (s : Chainstate) : Option Uint256 → Prop
  | none => s.setBlockIndexCandidates = []
  | some M => s.m_tip = some M

/-- **The inner loop** ends settled, or with fewer rounds left. -/
theorem activateInner_wp (starting_tip : Option Uint256) (hB : ∀ h, s.nHeight h ≤ B)
    (fuel : ℕ) (M : Option Uint256) (blocks_connected : Bool) (W : Working n s)
    (A : ∀ m, M = some m → Aims n s m) :
    wp (fun _ => fuel ≤ rounds B s M)
      (activateInner n.addr n.connectBlock starting_tip fuel M blocks_connected)
      (fun r s' => Progress n s s' ∧ (∀ m, r.1 = some m → Aims n s' m) ∧
        (s.m_tip ≠ none → s'.m_tip ≠ none) ∧
        ((r.2 = blocks_connected ∧ Settled s' r.1 ∧ rounds B s' r.1 ≤ rounds B s M) ∨
          (r.2 = true ∧ s'.m_tip ≠ none ∧ rounds B s' r.1 < rounds B s M))) s := by
  induction fuel generalizing s M blocks_connected with
  | zero => exact Nat.zero_le _
  | succ fuel ih =>
    simp only [activateInner, wp_bind, wp_get]
    apply wp_mono (wp_weaken (chooseChain_wp hB W A) fun _ => False.elim)
    rintro M₁ s₁ ⟨P₁, htip₁, A₁, hempty, hle₁⟩
    cases M₁ with
    | none => exact ⟨P₁, by simp, by rw [htip₁]; exact id, .inl ⟨rfl, hempty rfl, hle₁⟩⟩
    | some m =>
      have hmmem := isSome_of_haveNumChainTxs (P₁.working.candidates m (A₁ m rfl).mem)
      dsimp only
      by_cases htip : s₁.m_tip = some m
      · rw [if_pos htip]
        exact ⟨P₁, A₁, by rw [htip₁]; exact id, .inl ⟨rfl, htip, hle₁⟩⟩
      · rw [if_neg htip, wp_bind]
        apply wp_mono (wp_weaken (activateBestChainStep_wp P₁.working (A₁ m rfl) htip)
          fun _ => False.elim)
        rintro fInvalidFound s₂ ⟨P₂, htip₂, hend⟩
        have P := P₁.trans P₂
        -- a step marks a block or gets closer, and the aim is kept in the second case
        obtain ⟨M₂, hM₂, A₂, hlt₂⟩ : ∃ M₂, (if fInvalidFound = true then none else some m) = M₂ ∧
            (∀ m, M₂ = some m → Aims n s₂ m) ∧ rounds B s₂ M₂ < rounds B s M := by
          cases fInvalidFound with
          | true => exact ⟨none, rfl, by simp,
              (rounds_lt_of_marks P₁.working.blocks P₂.reflags hend (some m)).trans_le hle₁⟩
          | false =>
            obtain ⟨A₂, b, hb, hbm, hcloser⟩ := hend
            refine ⟨some m, rfl, fun m' hm' => Option.some_inj.mp hm' ▸ A₂, ?_⟩
            exact (rounds_lt_of_closer P₁.working.blocks.tree (P₁.bounded hB) P₂.reflags hmmem hb hbm
              hcloser).trans_le hle₁
        simp only [wp_bind, wp_get, hM₂]
        split
        · refine wp_mono
            (wp_weaken (ih (P.bounded hB) M₂ true P₂.working A₂) fun _ hfuel => by omega) ?_
          rintro r s₃ ⟨P₃, A₃, htip₃, hr⟩
          refine ⟨P.trans P₃, A₃, fun _ => htip₃ htip₂, .inr ?_⟩
          rcases hr with ⟨hconnected, -, hle⟩ | ⟨hconnected, -, hlt⟩
          · exact ⟨hconnected, htip₃ htip₂, by omega⟩
          · exact ⟨hconnected, htip₃ htip₂, by omega⟩
        · exact ⟨P, A₂, fun _ => htip₂, .inr ⟨rfl, htip₂, hlt₂⟩⟩

/-- What `ActivateBestChain` ends with: the tip is the last of the usable blocks. -/
structure Best (n : Node σ) (s s' : Chainstate) : Prop where
  progress : Progress n s s'
  last : ∀ h, s'.haveNumChainTxs h = true → s'.failed h = false →
    ∃ t, s'.m_tip = some t ∧ sortKey n.addr s' h ≤ sortKey n.addr s' t

theorem Progress.best (P : Progress n s s') (A : ∀ m, M = some m → Aims n s' m)
    (hsettled : Settled s' M) : Best n s s' where
  progress := P
  last h htx hfailed := by
    cases M with
    | none =>
      rw [Settled] at hsettled
      rcases P.working.covered h htx hfailed with hmem | ⟨c, hc, -⟩
      · rw [hsettled] at hmem
        exact absurd hmem List.not_mem_nil
      · rw [hsettled] at hc
        exact absurd hc List.not_mem_nil
    | some m => exact ⟨m, hsettled, P.working.le_aim (A m rfl) htx hfailed⟩

/-- **The outer loop** ends at the last of the usable blocks. -/
theorem activateOuter_wp (hB : ∀ h, s.nHeight h ≤ B) (inner fuel : ℕ)
    (M : Option Uint256) (W : Working n s) (A : ∀ m, M = some m → Aims n s m) :
    wp (fun _ => fuel ≤ rounds B s M ∨ inner ≤ rounds B s M)
      (activateOuter n.addr n.connectBlock inner fuel M) (fun _ s' => Best n s s') s := by
  induction fuel generalizing s M with
  | zero => exact .inl (Nat.zero_le _)
  | succ fuel ih =>
    simp only [activateOuter, wp_bind, wp_get]
    apply wp_mono (wp_weaken (activateInner_wp s.m_tip hB inner M false W A) fun _ => .inr)
    rintro ⟨M₁, blocks_connected⟩ s₁ ⟨P, A₁, -, ⟨rfl, hsettled, -⟩ | ⟨rfl, htip₁, hlt⟩⟩
    · exact P.best A₁ hsettled
    · dsimp only at hlt
      simp only [if_true, wp_bind, wp_get]
      by_cases heq : s₁.m_tip = M₁
      · rw [if_neg (not_not.mpr heq)]
        refine P.best A₁ ?_
        cases M₁ with
        | none => exact absurd heq htip₁
        | some m => exact heq
      · rw [if_pos heq]
        refine wp_mono (wp_weaken (ih (P.bounded hB) M₁ P.working A₁) ?_) ?_
        · rintro - (h | h)
          · exact .inl (by omega)
          · exact .inr (by omega)
        · exact fun _ s₂ best => ⟨P.trans best.progress, best.last⟩

theorem Best.chainInv (best : Best n s s') : ChainInv n s' where
  toStateInv := best.progress.working.toStateInv
  complete h htx hfailed hlast := by
    rcases best.progress.working.covered h htx hfailed with hmem | ⟨c, hc, -, hcfailed, hlt⟩
    · exact hmem
    · have hctx := best.progress.working.candidates c hc
      obtain ⟨t, ht, hct⟩ := best.last c hctx hcfailed
      exact absurd (hlt.trans_le (hct.trans (hlast t ht))) (lt_irrefl _)

/-- **`ActivateBestChain` ends at the last of the usable blocks**, given rounds enough.
SOURCE: src/src/validation.cpp:3856-4050 -/
theorem activateBestChain_wp (hB : ∀ h, s.nHeight h ≤ B) (fuel : ℕ) (W : Working n s) :
    wp (fun _ => fuel ≤ rounds B s none) (activateBestChain n.addr n.connectBlock fuel)
      (fun _ s' => Best n s s') s :=
  wp_weaken (activateOuter_wp hB fuel fuel none W (by simp)) fun _ h => h.elim id id

theorem BlocksInv.exists_bound (I : BlocksInv n s) : ∃ B, ∀ h, s.nHeight h ≤ B := by
  refine ⟨s.hashes.toFinset.sup s.nHeight, fun h => ?_⟩
  by_cases hmem : (s.m_block_index h).isSome
  · exact Finset.le_sup (List.mem_toFinset.mpr ((I.keys h).mpr hmem))
  · have hzero : s.nHeight h = 0 := by
      rw [Chainstate.nHeight, BlockMap.height, Option.not_isSome_iff_eq_none.mp hmem]
      rfl
    omega

theorem activateBestChain_best (fuel : ℕ) (W : Working n s) :
    wp (fun _ => True) (activateBestChain n.addr n.connectBlock fuel)
      (fun _ s' => Best n s s') s := by
  obtain ⟨B, hB⟩ := W.blocks.exists_bound
  exact wp_weaken (activateBestChain_wp hB fuel W) fun _ _ => trivial

end Working

end BitMinti.Analysis
