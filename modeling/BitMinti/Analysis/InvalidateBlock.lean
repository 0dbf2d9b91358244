import BitMinti.Analysis.ActivateBestChain

/-!
# Invalidating, reconsidering and preferring blocks

`InvalidateBlock` walks the tip back past the block, marking what it disconnects and what hangs
off that, and puts back every candidate that the old tip had kept out.  `ReconsiderBlock` clears
marks and `PreciousBlock` changes a sequence id; both then leave the choice to
`ActivateBestChain`.  Each keeps `ChainInv`.

SOURCE: src/src/validation.cpp:4052-4369
-/

set_option autoImplicit false

namespace BitMinti.Analysis

open Model Interface Computation.Ancestry Computation.StateExcept

/-! ## Walking the tip back -/

/-- What a part of the walk changes: marks below `p`, and the candidates. -/
structure Walks (p : Uint256) (s s' : Chainstate) : Prop where
  reflags : Reflags (· = p) s s'
  candidates : ∀ c ∈ s'.setBlockIndexCandidates,
    c ∈ s.setBlockIndexCandidates ∨ s.haveNumChainTxs c = true
  tip : s'.m_tip = s.m_tip

namespace Walks

variable {p q : Uint256} {s s' s'' : Chainstate}

theorem refl (p : Uint256) (s : Chainstate) : Walks p s s := ⟨.refl s, fun _ => .inl, rfl⟩

theorem trans (W : Walks p s s') (W' : Walks p s' s'') : Walks p s s'' where
  reflags := W.reflags.trans W'.reflags
  candidates c hc := by
    rcases W'.candidates c hc with hc | htx
    · exact W.candidates c hc
    · exact .inr (by rwa [W.reflags.haveNumChainTxs] at htx)
  tip := W'.tip.trans W.tip

theorem above (W : Walks p s s') (hqp : AncestorOf s.pprev q p) : Walks q s s' :=
  ⟨W.reflags.above hqp rfl, W.candidates, W.tip⟩

theorem setTip (W : Walks p s s') (tip : Option Uint256) :
    Walks p { s with m_tip := tip } { s' with m_tip := tip } where
  reflags := @Reflags.trans _ _ s _ (.of_index rfl rfl rfl) (W.reflags.trans (.of_index rfl rfl rfl))
  candidates := W.candidates
  tip := rfl

theorem fromTip {tip : Option Uint256} (W : Walks p { s with m_tip := tip } s') :
    Reflags (· = p) s s' :=
  @Reflags.trans _ s { s with m_tip := tip } _ (.of_index rfl rfl rfl) W.reflags

end Walks

section WalkBack

variable {addr : Uint256 → ℕ} {s : Chainstate} {w pprev c : Uint256}

theorem Walks.markChild (T : TreeInv s.m_block_index) (hw : (s.m_block_index w).isSome)
    (hfailed : s.failed w = true) (hne : c ≠ w) (hc : (s.m_block_index c).isSome)
    (hwc : AncestorOf s.pprev w c) : Walks w s (s.modifyStatus c .toFailedChild) where
  reflags := by
    have M : Marks s (s.modifyStatus c .toFailedChild) (· = c) .toFailedChild :=
      ⟨rfl, fun _ => rfl, rfl, fun _ hh => hh ▸ hc⟩
    exact .setFailedChild T M hw hfailed fun h hh => hh ▸ ⟨hne, hwc⟩
  candidates _ := .inl
  tip := rfl

theorem Walks.considerCandidate (best_header_needs_update : Bool) :
    Walks w s (considerCandidate addr pprev best_header_needs_update c s) := by
  have hinsert : Walks w s (if !workComparator addr s c pprev && s.isValid c .transactions &&
      s.haveNumChainTxs c then s.insertCandidate c else s) := by
    split
    · rename_i hc
      refine ⟨.of_index rfl rfl rfl, fun d hd => ?_, rfl⟩
      rcases List.mem_insert_iff.mp hd with rfl | hd
      · exact .inr (Bool.and_eq_true_iff.mp hc).2
      · exact .inl hd
    · exact .refl w s
  have hbest : ∀ s₁, Walks w s s₁ → Walks w s (if best_header_needs_update &&
      s₁.best_header.any fun best => (s₁.nChainWork best).blt (s₁.nChainWork c) then
        { s₁ with best_header := some c } else s₁) := by
    intro s₁ W
    split
    · exact W.trans ⟨.of_index rfl rfl rfl, fun _ => .inl, rfl⟩
    · exact W
  exact hbest _ hinsert

/-- **The candidates**: those below the disconnected block are marked. -/
theorem Walks.considerCandidates (best_header_needs_update : Bool) (highpow : List Uint256)
    (T : TreeInv s.m_block_index) (hw : (s.m_block_index w).isSome) (hfailed : s.failed w = true)
    (hout : ∀ c ∈ highpow, c ≠ w) :
    Walks w s (considerCandidates addr w pprev best_header_needs_update highpow s).2 ∧
      ∀ c ∈ (considerCandidates addr w pprev best_header_needs_update highpow s).1,
        c ∈ highpow := by
  induction highpow generalizing s with
  | nil => exact ⟨.refl w s, fun _ hc => hc⟩
  | cons c rest ih =>
    have hrest := (List.forall_mem_cons.1 hout).2
    -- what is done with `c` is part of the walk, and the rest goes on from there
    have hnext : ∀ {s' : Chainstate}, Walks w s s' →
        Walks w s (Model.considerCandidates addr w pprev best_header_needs_update rest s').2 ∧
          ∀ d ∈ (Model.considerCandidates addr w pprev best_header_needs_update rest s').1,
            d ∈ rest := by
      intro s' W
      obtain ⟨W', hsub⟩ := @ih s' (W.reflags.tree T) (by rw [W.reflags.isSome, hw])
        (W.reflags.mono w hfailed) hrest
      exact ⟨W.trans W', hsub⟩
    have hcons : ∀ {left : List Uint256}, (∀ d ∈ left, d ∈ rest) → ∀ d ∈ c :: left,
        d ∈ c :: rest := fun hleft d hd => List.cons_subset_cons c (fun d => hleft d) hd
    rw [Model.considerCandidates]
    split
    · obtain ⟨W, hsub⟩ := hnext (.refl w s)
      exact ⟨W, hcons hsub⟩
    · split
      · rename_i hdesc
        have hc : (s.m_block_index c).isSome := by
          cases he : s.m_block_index c with
          | none => simp [Chainstate.descendsFrom, Chainstate.getAncestor, he] at hdesc
          | some e => rfl
        obtain ⟨W, hsub⟩ := hnext (.markChild T hw hfailed (hout c List.mem_cons_self) hc
          ((descendsFrom_iff T hc).mp hdesc))
        exact ⟨W, fun d hd => List.mem_cons_of_mem c (hsub d hd)⟩
      · obtain ⟨W, hsub⟩ := hnext (.considerCandidate best_header_needs_update)
        exact ⟨W, hcons hsub⟩

/-- The disconnected block is marked invalid, and the one disconnected before it only as
the child of an invalid block. -/
theorem Walks.markWalkTip (T : TreeInv s.m_block_index) (hw : (s.m_block_index w).isSome)
    (to_mark_failed : Uint256) (hpprev : s.haveNumChainTxs pprev = true) :
    Walks w s (markWalkTip w pprev to_mark_failed s) ∧
      (markWalkTip w pprev to_mark_failed s).failed w = true := by
  have M := Marks.setFailedValid hw
  have W : Walks w s
      (((s.modifyStatus w .setFailedValid).eraseCandidate w).insertCandidate pprev) := by
    refine ⟨(Reflags.setFailedValid M).trans (.of_index rfl rfl rfl), ?_, rfl⟩
    intro c hc
    rcases List.mem_insert_iff.mp hc with rfl | hc
    · exact .inr hpprev
    · exact .inl (List.mem_of_mem_filter hc)
  have hfailed : (((s.modifyStatus w .setFailedValid).eraseCandidate w).insertCandidate
      pprev).failed w = true := M.failed rfl fun _ => rfl
  unfold Model.markWalkTip
  dsimp only
  split
  · rename_i hchild
    rw [Bool.and_eq_true, decide_eq_true_eq] at hchild
    have T' := W.reflags.tree T
    have hmem := isSome_of_pprev hchild.1
    have hne : to_mark_failed ≠ w := by
      rintro rfl
      have := (T'.graded.parent _ _ hmem hchild.1).2
      omega
    have W' := Walks.markChild T' (by rw [W.reflags.isSome, hw]) hfailed hne hmem (.parent hchild.1)
    exact ⟨W.trans W', W'.reflags.mono w hfailed⟩
  · exact ⟨W, hfailed⟩

/-- **A round of the walk.** -/
theorem Walks.walkBack (T : TreeInv s.m_block_index) (hw : (s.m_block_index w).isSome)
    (to_mark_failed : Uint256) (hpprev : s.haveNumChainTxs pprev = true) {highpow : List Uint256}
    (hout : ∀ c ∈ highpow, c ≠ w) :
    Walks w s (walkBack addr w pprev to_mark_failed highpow s).2 ∧
      (walkBack addr w pprev to_mark_failed highpow s).2.failed w = true ∧
      ∀ c ∈ (walkBack addr w pprev to_mark_failed highpow s).1, c ∈ highpow := by
  obtain ⟨W, hfailed⟩ := Walks.markWalkTip T hw to_mark_failed hpprev
  generalize hs₁ : Model.markWalkTip w pprev to_mark_failed s = s₁ at W hfailed
  have hbest : ∀ needs : Bool,
      Walks w s (if needs then { s₁ with best_header := some pprev } else s₁) ∧
        (if needs then { s₁ with best_header := some pprev } else s₁ : Chainstate).failed w =
          true := by
    intro needs
    cases needs with
    | true => exact ⟨W.trans ⟨.of_index rfl rfl rfl, fun _ => .inl, rfl⟩, hfailed⟩
    | false => exact ⟨W, hfailed⟩
  unfold Model.walkBack
  dsimp only
  rw [hs₁]
  obtain ⟨W₂, hfailed₂⟩ := hbest (s₁.best_header.any fun best => s₁.descendsFrom best w)
  obtain ⟨W₃, hsub⟩ := @Walks.considerCandidates addr _ w pprev
    (s₁.best_header.any fun best => s₁.descendsFrom best w) highpow (W₂.reflags.tree T)
    (by rw [W₂.reflags.isSome, hw]) hfailed₂ hout
  exact ⟨W₂.trans W₃, W₃.reflags.mono w hfailed₂, hsub⟩

end WalkBack

section Invalidate

variable {σ : Type} {n : Node σ} {s s' : Chainstate} {p q t : Uint256}

theorem invalidateLoop_out {E : Stop → Prop} {Q : Uint256 → Chainstate → Prop} (fuel : ℕ)
    {to_mark_failed : Uint256} {highpow : List Uint256} (hout : s.contains p = false)
    (hQ : Q to_mark_failed s) :
    wp E (invalidateLoop n.addr p fuel to_mark_failed highpow) Q s := by
  rw [invalidateLoop.eq_def, wp_bind, wp_get, hout]
  exact hQ

/-- **The loop of `InvalidateBlock`** ends with the parent of the block as tip and the
block marked.
SOURCE: src/src/validation.cpp:4137-4233 -/
theorem invalidateLoop_wp (fuel : ℕ) {to_mark_failed : Uint256} {highpow : List Uint256}
    (I : BlocksInv n s) (ht : s.m_tip = some t) (httx : s.haveNumChainTxs t = true)
    (hq : s.pprev p = some q) (hpt : AncestorOf s.pprev p t) (hfuel : s.nHeight t < fuel)
    (hout : ∀ c ∈ highpow, ¬ AncestorOf s.pprev c t) :
    wp (fun _ => False) (invalidateLoop n.addr p fuel to_mark_failed highpow)
      (fun w s' => w = p ∧ Walks p { s with m_tip := some q } s' ∧ s'.failed p = true) s := by
  induction fuel generalizing s t to_mark_failed highpow with
  | zero => omega
  | succ fuel ih =>
    have T := I.tree
    have htmem := isSome_of_haveNumChainTxs httx
    have hin : s.contains p = true := (contains_iff T ht htmem).mpr hpt
    obtain ⟨t', ht', hpt'⟩ : ∃ t', s.pprev t = some t' ∧ (t = p ∨ AncestorOf s.pprev p t') := by
      rcases hpt.eq_or_parent with rfl | ⟨t', ht', hpt'⟩
      · exact ⟨q, hq, .inl rfl⟩
      · exact ⟨t', ht', .inr hpt'⟩
    obtain ⟨ht'mem, hheight⟩ := parent_of_pprev T htmem ht'
    rw [invalidateLoop.eq_def, wp_bind, wp_get, if_pos hin, ht]
    dsimp only
    rw [wp_bind]
    apply wp_mono (disconnectTip_wp ht ht')
    rintro - _ rfl
    simp only [wp_bind, wp_get, wp_set]
    -- the round marks the old tip and what hangs off it
    have hne : ∀ c ∈ highpow, c ≠ t := by
      rintro c hc rfl
      exact hout c hc (.refl c)
    obtain ⟨W, hfailed, hsub⟩ := @Walks.walkBack n.addr { s with m_tip := some t' } t t' T htmem
      to_mark_failed (I.linked t t' httx ht') highpow hne
    generalize walkBack n.addr t t' to_mark_failed highpow { s with m_tip := some t' } = r
      at W hfailed hsub ⊢
    have W' := W.above hpt
    have hpprev : r.2.pprev = s.pprev := W.reflags.pprev
    have hheights : r.2.nHeight = s.nHeight := W.reflags.nHeight
    have hT' : TreeInv r.2.m_block_index := W.reflags.tree T
    have ht'mem' : (r.2.m_block_index t').isSome := by
      rw [W.reflags.isSome]
      exact ht'mem
    rcases hpt' with rfl | hpt'
    · -- the block itself was the tip
      obtain rfl : t' = q := Option.some_inj.mp (ht'.symm.trans hq)
      have hnot : r.2.contains t = false := by
        rw [← Bool.not_eq_true, contains_iff hT' W.tip ht'mem', hpprev]
        intro htt'
        have := (isSome_of_ancestor T ht'mem htt').2
        omega
      refine invalidateLoop_out fuel hnot ⟨rfl, ?_, hfailed⟩
      exact W'
    · have hr := I.same W.fromTip.toSameBlocks
      have ht'tx : r.2.haveNumChainTxs t' = true := by
        rw [W.reflags.haveNumChainTxs]
        exact I.linked t t' httx ht'
      apply wp_mono (ih hr W.tip ht'tx (by rw [hpprev, hq]) (by rwa [hpprev])
        (by rw [hheights]; omega) ?_)
      · rintro w s'' ⟨hw, W'', hfailed''⟩
        exact ⟨hw, (W'.setTip (some q)).trans W'', hfailed''⟩
      · intro c hc hct'
        rw [hpprev] at hct'
        exact hout c (hsub c hc) (hct'.trans (.parent ht'))

/-- **What `InvalidateBlock` ends with keeps the invariant**: the block and all below it
are marked, and no candidate is missing. -/
theorem ChainInv.invalidated (I : ChainInv n s) {t' : Uint256} {s₁ : Chainstate}
    {best worst : Option Uint256} (hmem : (s.m_block_index p).isSome) (hq : s.pprev p = some q)
    (ht : s.m_tip = some t) (ht' : AncestorOf s.pprev t' t) (hout : ¬ AncestorOf s.pprev p t')
    (W : Walks p { s with m_tip := some t' } s₁) (hfailed : s₁.failed p = true)
    (hs' : s' = { setBlockFailureFlags p (addMissingCandidates n.addr t' s₁) with
      best_header := best, m_best_invalid := worst }) :
    ChainInv n s' ∧ (FlagsJustified s → FlagsJustified s') := by
  have hpprev : s₁.pprev = s.pprev := W.reflags.pprev
  have htx : s₁.haveNumChainTxs = s.haveNumChainTxs := W.reflags.haveNumChainTxs
  have T₁ : TreeInv s₁.m_block_index := W.reflags.tree I.blocks.tree
  have hmem₁ : (s₁.m_block_index p).isSome := by
    rw [W.reflags.isSome]
    exact hmem
  have I₁ := I.blocks.same W.fromTip.toSameBlocks
  -- from the state after the walk the flags spread to all that is below the block
  have R₁ : Reflags (· = p) s₁ s' := by
    rw [hs']
    exact (Reflags.setBlockFailureFlags T₁ hmem₁ hfailed).trans (.of_index rfl rfl rfl)
  have R := W.fromTip.trans R₁
  have hbelow : ∀ h, AncestorOf s.pprev p h → s'.failed h = true := by
    intro h hph
    rw [hs']
    exact failed_setBlockFailureFlags T₁ hmem₁ hfailed (show AncestorOf s₁.pprev p h by rwa [hpprev])
  have htip' : s'.m_tip = some t' := by
    rw [hs']
    exact W.tip
  have hcands : s'.setBlockIndexCandidates =
      (addMissingCandidates n.addr t' s₁).setBlockIndexCandidates := by
    rw [hs']
    rfl
  obtain ⟨httx, htfailed, htconnects⟩ := I.tip t ht
  refine ⟨⟨⟨I.blocks.same R.toSameBlocks, I.flags.below R (by simp [hq]) hbelow, ?_, ?_⟩, ?_⟩,
    R.justified⟩
  · intro u hu
    obtain rfl : t' = u := Option.some_inj.mp (htip'.symm.trans hu)
    have hkept : s'.failed t' = s.failed t' := by
      apply R.failed_of_good
      rintro a hat' rfl
      exact hout hat'
    rw [R.haveNumChainTxs, hkept]
    exact ⟨I.blocks.linked_of_ancestor ht' httx, I.flags.unflagged_of_ancestor ht' htfailed,
      R.chainConnects fun a ha => htconnects a (ha.trans ht')⟩
  · intro c hc
    rw [R.haveNumChainTxs]
    rw [hcands] at hc
    rcases List.mem_union_iff.mp hc with hc | hc
    · rw [List.mem_filter, Bool.and_eq_true, Bool.and_eq_true, htx] at hc
      exact hc.2.1.2
    · rcases W.candidates c hc with hc | hc
      · exact I.candidates c hc
      · exact hc
  · intro h hhtx hunflagged hlast
    rw [R₁.haveNumChainTxs] at hhtx
    have hbefore := R₁.unflagged hunflagged
    have hvalid : s₁.isValid h .transactions = true := by
      have hlevel := I₁.valid h (I₁.data h hhtx)
      rw [Chainstate.isValid, hbefore, decide_eq_true hlevel]
      rfl
    have hafter : workComparator n.addr s₁ h t' = false := by
      rw [workComparator_false_iff, ← R₁.sortKey]
      exact hlast t' htip'
    rw [hcands]
    refine List.mem_union_iff.mpr (.inl (List.mem_filter.mpr ⟨?_, ?_⟩))
    · exact (I₁.keys h).mpr (isSome_of_haveNumChainTxs hhtx)
    · rw [hvalid, hhtx, hafter]
      rfl

theorem ChainInv.finishInvalidate {E : Stop → Prop} (I : ChainInv n s) {t' : Uint256}
    {s₁ : Chainstate} (hmem : (s.m_block_index p).isSome) (hq : s.pprev p = some q)
    (ht : s.m_tip = some t)
    (ht' : AncestorOf s.pprev t' t) (hout : ¬ AncestorOf s.pprev p t')
    (W : Walks p { s with m_tip := some t' } s₁) (hfailed : s₁.failed p = true) :
    wp E (invalidChainFound p)
      (fun _ s' => ChainInv n s' ∧ (FlagsJustified s → FlagsJustified s'))
      (addMissingCandidates n.addr t' s₁) := by
  have htip : (addMissingCandidates n.addr t' s₁).m_tip = some t' := W.tip
  apply wp_mono (wp_weaken (invalidChainFound_wp p) fun _ hnone => by simp [htip] at hnone)
  rintro - s' ⟨-, best, worst, hs'⟩
  exact I.invalidated hmem hq ht ht' hout W hfailed hs'

/-- **`InvalidateBlock` keeps the invariant**, and fails only without a tip.
SOURCE: src/src/validation.cpp:4085-4278 -/
theorem invalidateBlock_wp (I : ChainInv n s) (hmem : (s.m_block_index p).isSome) :
    wp (fun _ => s.m_tip = none) (invalidateBlock n.addr p)
      (fun _ s' => ChainInv n s' ∧ (FlagsJustified s → FlagsJustified s')) s := by
  have T := I.blocks.tree
  rw [invalidateBlock, wp_bind, wp_get]
  cases hheight : s.nHeight p with
  | zero => exact ⟨I, id⟩
  | succ k =>
    cases hq : s.pprev p with
    | none =>
      have hroot := T.graded.root p hmem hq
      change s.nHeight p = 0 at hroot
      omega
    | some q =>
      dsimp only
      rw [wp_bind]
      cases htip : s.m_tip with
      | none =>
        -- without a tip nothing is on the chain, and there is nothing to compare with
        have hnot : ∀ s₁ : Chainstate, s₁.m_tip = none → ∀ a, s₁.contains a = false := by
          intro s₁ hs₁ a
          rw [Chainstate.contains, hs₁]
          rfl
        apply invalidateLoop_out _ (hnot s htip p)
        simp only [wp_bind, wp_get, hnot s htip p, Bool.false_eq_true, if_false]
        split
        · simp only [wp_bind, wp_set, wp_get]
          rw [show ((s.modifyStatus p .setFailedValid).eraseCandidate p).m_tip = none from htip]
          trivial
        · rw [wp_bind, wp_get, htip]
          trivial
      | some t =>
        obtain ⟨httx, htfailed, -⟩ := I.tip t htip
        have htmem := isSome_of_haveNumChainTxs httx
        by_cases hin : s.contains p = true
        · have hpt := (contains_iff T htip htmem).mp hin
          have hheaders : ∀ c ∈ highpowOutofchainHeaders n.addr s q,
              ¬ AncestorOf s.pprev c t := by
            intro c hc hct
            rw [highpowOutofchainHeaders, List.mem_insertionSort, List.mem_filter,
              (contains_iff T htip htmem).mpr hct] at hc
            simp at hc
          apply wp_mono (wp_weaken (invalidateLoop_wp _ I.blocks htip httx hq hpt
            (Nat.lt_succ_self _) hheaders) fun _ => False.elim)
          rintro w s₁ ⟨rfl, W, hfailed⟩
          have hqmem := (T.graded.parent w q hmem hq).1
          have hnot : ¬ AncestorOf s.pprev w q := by
            intro hwq
            have := (isSome_of_ancestor T hqmem hwq).2
            have hstep := (parent_of_pprev T hmem hq).2
            omega
          have hout : s₁.contains w = false := by
            rw [← Bool.not_eq_true, contains_iff (W.reflags.tree T) W.tip
              (by rw [W.reflags.isSome]; exact hqmem), W.reflags.pprev]
            exact hnot
          simp only [wp_bind, wp_get, hout, hin, Bool.false_eq_true, if_false, Bool.not_true,
            Bool.false_and, wp_pure, W.tip, wp_set]
          exact I.finishInvalidate hmem hq htip ((AncestorOf.parent hq).trans hpt) hnot W
            hfailed
        · rw [Bool.not_eq_true] at hin
          have hout : ¬ AncestorOf s.pprev p t := by
            rw [← contains_iff T htip htmem, hin]
            exact Bool.false_ne_true
          have hself : { s with m_tip := some t } = s := by rw [← htip]
          apply invalidateLoop_out _ hin
          simp only [wp_bind, wp_get, hin, Bool.false_eq_true, if_false, Bool.not_false,
            Bool.true_and]
          by_cases hfailed : s.failed p = true
          · simp only [hfailed, Bool.not_true, Bool.false_eq_true, if_false, wp_get, htip,
              wp_bind, wp_set]
            exact I.finishInvalidate hmem hq htip (.refl t) hout (hself ▸ .refl p s) hfailed
          · rw [Bool.not_eq_true] at hfailed
            simp only [hfailed, Bool.not_false, if_true, wp_bind, wp_set, wp_get]
            have M := Marks.setFailedValid hmem
            have W : Walks p { s with m_tip := some t }
                ((s.modifyStatus p .setFailedValid).eraseCandidate p) := by
              rw [hself]
              exact ⟨.setFailedValid M, fun c hc => .inl (List.mem_of_mem_filter hc), rfl⟩
            rw [W.tip]
            dsimp only
            simp only [wp_bind, wp_set]
            exact I.finishInvalidate hmem hq htip (.refl t) hout W (M.failed rfl fun _ => rfl)

end Invalidate

/-! ## `ReconsiderBlock` -/

section Reconsider

variable {σ : Type} {n : Node σ} {s s' : Chainstate} {p : Uint256}

theorem cleared_iff (T : TreeInv s.m_block_index) (hp : (s.m_block_index p).isSome) (h : Uint256) :
    s.cleared p h = true ↔
      s.failed h = true ∧ (AncestorOf s.pprev p h ∨ AncestorOf s.pprev h p) := by
  rw [Chainstate.cleared, Bool.and_eq_true]
  refine and_congr_right fun hfailed => ?_
  rw [Bool.or_eq_true, descendsFrom_iff T (isSome_of_failed hfailed), descendsFrom_iff T hp]

/-- What `ResetBlockFailureFlags` changes. -/
structure Clears (n : Node σ) (s s' : Chainstate) (p : Uint256) : Prop where
  same : SameBlocks s s'
  nStatus : ∀ h, s'.nStatus h = if s.cleared p h then (s.nStatus h).clearFailed else s.nStatus h
  tip : s'.m_tip = s.m_tip
  candidates : ∀ c, c ∈ s'.setBlockIndexCandidates ↔ c ∈ s.setBlockIndexCandidates ∨
    (c ∈ s.hashes ∧ s.restored p c = true ∧
      ∃ t, s.m_tip = some t ∧ sortKey n.addr s t < sortKey n.addr s c)
  faultless : s.m_tip = none → ∀ h ∈ s.hashes, s.restored p h = false

/-- **`ResetBlockFailureFlags`** clears marks and puts candidates back.
SOURCE: src/src/validation.cpp:4339-4369 -/
theorem resetBlockFailureFlags_wp :
    wp (fun _ => s.m_tip = none) (resetBlockFailureFlags n.addr p)
      (fun _ s' => Clears n s s' p) s := by
  rw [resetBlockFailureFlags, wp_bind, wp_get]
  split
  · rename_i hfault
    rw [Bool.and_eq_true, Option.isNone_iff_eq_none] at hfault
    exact hfault.1
  · rename_i hfine
    simp only [wp_set]
    generalize hs' : Chainstate.mk _ _ _ _ _ _ _ _ _ _ = s'
    have M : Marks s s' (s.cleared p · = true) .clearFailed := by
      subst hs'
      exact ⟨rfl, fun _ => rfl, rfl, fun h hh => isSome_of_failed (Bool.and_eq_true_iff.mp hh).1⟩
    subst hs'
    refine ⟨M.sameBlocks (fun _ => rfl) (fun _ => rfl), M.nStatus, rfl, ?_, ?_⟩
    · intro c
      refine List.mem_union_iff.trans (or_comm.trans (or_congr_right ?_))
      rw [List.mem_filter, Bool.and_eq_true]
      refine and_congr_right fun _ => and_congr_right fun _ => ?_
      simp only [Option.any_eq_true, workComparator_iff]
    · intro hnone h hh
      rw [hnone, Option.isNone_none, Bool.true_and, List.any_eq_true] at hfine
      by_contra hrestored
      exact hfine ⟨h, hh, Bool.not_eq_false _ ▸ hrestored⟩

namespace Clears

section

variable (C : Clears n s s' p)

include C

theorem failed (h : Uint256) :
    s'.failed h = (s.failed h && !s.cleared p h) := by
  rw [Chainstate.failed, C.nStatus]
  split
  · rename_i hcleared
    rw [hcleared, Bool.not_true, Bool.and_false]
    rfl
  · rename_i hcleared
    rw [Bool.not_eq_true] at hcleared
    rw [hcleared, Bool.not_false, Bool.and_true]
    rfl

theorem failed_iff (T : TreeInv s.m_block_index) (hp : (s.m_block_index p).isSome) (h : Uint256) :
    s'.failed h = true ↔
      s.failed h = true ∧ ¬ AncestorOf s.pprev p h ∧ ¬ AncestorOf s.pprev h p := by
  rw [C.failed, Bool.and_eq_true, Bool.not_eq_true', ← Bool.not_eq_true, cleared_iff T hp]
  refine and_congr_right fun hfailed => ?_
  simp only [hfailed, true_and, not_or]

theorem flagsInv (T : TreeInv s.m_block_index)
    (hp : (s.m_block_index p).isSome) (F : FlagsInv s) : FlagsInv s' where
  closed a h hah ha := by
    rw [C.same.pprev] at hah
    rw [C.failed_iff T hp] at ha ⊢
    obtain ⟨hafailed, hpa, hap⟩ := ha
    have hhfailed := F.closed a h hah hafailed
    refine ⟨hhfailed, fun hph => ?_, fun hhp => hap (hah.trans hhp)⟩
    -- two ancestors of one block lie on one line
    have hmem := isSome_of_descendant hph hp
    rcases le_total (s.nHeight a) (s.nHeight p) with hle | hle
    · exact hap (T.graded.ancestor_of_le hmem hph hah hle)
    · exact hpa (T.graded.ancestor_of_le hmem hah hph hle)
  root h hh := by
    rw [C.same.pprev] at hh
    rw [C.failed, F.root h hh]
    rfl

/-- **Clearing marks keeps the invariant.** -/
theorem chainInv (hp : (s.m_block_index p).isSome) (I : ChainInv n s) :
    ChainInv n s' where
  blocks := I.blocks.same C.same
  flags := C.flagsInv I.blocks.tree hp I.flags
  tip t ht := by
    rw [C.tip] at ht
    obtain ⟨htx, hfailed, hconnects⟩ := I.tip t ht
    rw [C.same.haveNumChainTxs, C.failed, hfailed]
    exact ⟨htx, rfl, C.same.chainConnects hconnects⟩
  candidates c hc := by
    rw [C.same.haveNumChainTxs]
    rcases (C.candidates c).mp hc with hc | ⟨-, hrestored, -⟩
    · exact I.candidates c hc
    · exact (Bool.and_eq_true_iff.mp hrestored).2
  complete h htx hfailed hlast := by
    rw [C.same.haveNumChainTxs] at htx
    rw [C.tip, C.same.sortKey] at hlast
    have hkey := (I.blocks.keys h).mpr (isSome_of_haveNumChainTxs htx)
    rw [C.candidates]
    by_cases hbefore : s.failed h = true
    · -- the mark was cleared, so the block is put back
      right
      rw [C.failed, hbefore, Bool.true_and, Bool.not_eq_false'] at hfailed
      have hrestored : s.restored p h = true := by
        have hlevel := I.blocks.valid h (I.blocks.data h htx)
        rw [Chainstate.restored, hfailed, htx, decide_eq_true hlevel]
        rfl
      refine ⟨hkey, hrestored, ?_⟩
      cases ht : s.m_tip with
      | none =>
        rw [C.faultless ht h hkey] at hrestored
        cases hrestored
      | some t =>
        refine ⟨t, rfl, lt_of_le_of_ne (hlast t ht) fun heq => ?_⟩
        rw [← sortKey_injective n.addr s n.addr_injective heq, (I.tip t ht).2.1] at hbefore
        cases hbefore
    · exact .inl (I.complete h htx (Bool.not_eq_true _ ▸ hbefore) hlast)

/-- **Every mark that stays keeps its reason** when the block is reconsidered whole. -/
theorem flagsJustified (T : TreeInv s.m_block_index) (hp : (s.m_block_index p).isSome)
    (hwhole : ReconsidersWhole s (.reconsiderBlock p : ChainOp σ)) : FlagsJustified s' := by
  intro h hh
  obtain ⟨hfailed, hph, hhp⟩ := (C.failed_iff T hp h).mp hh
  obtain ⟨a, hah, hap, ha⟩ := hwhole h hfailed hhp hph
  refine ⟨a, by rwa [C.same.pprev], ?_⟩
  have hkept : ¬ s.cleared p a = true := by
    rw [cleared_iff T hp]
    rintro ⟨-, hpa | hap'⟩
    · exact hph (hpa.trans hah)
    · exact hap hap'
  rw [C.nStatus, if_neg hkept, ha]

end

end Clears

/-- **`ReconsiderBlock` keeps the invariant.** -/
theorem reconsiderBlock_wp (I : ChainInv n s) (hp : (s.m_block_index p).isSome) (fuel : ℕ) :
    wp (fun _ => True) (reconsiderBlock n.addr n.connectBlock fuel p)
      (fun _ s' => ChainInv n s' ∧
        (ReconsidersWhole s (.reconsiderBlock p : ChainOp σ) → FlagsJustified s')) s := by
  simp only [reconsiderBlock, wp_bind]
  apply wp_mono (wp_weaken resetBlockFailureFlags_wp fun _ _ => trivial)
  intro _ s₁ C
  have I₁ := C.chainInv hp I
  apply wp_mono (wp_weaken recalculateBestHeader_wp fun _ _ => trivial)
  rintro - _ ⟨header, rfl⟩
  have W : Working n { s₁ with best_header := header } :=
    ⟨⟨I₁.blocks.same (.of_index rfl rfl rfl), I₁.flags.of_flags rfl rfl, I₁.tip,
      I₁.candidates⟩, I₁.working.covered⟩
  apply wp_mono (activateBestChain_best fuel W)
  intro _ s₂ best
  refine ⟨best.chainInv, fun hwhole => best.progress.reflags.justified ?_⟩
  exact C.flagsJustified I.blocks.tree hp hwhole

end Reconsider

/-! ## `PreciousBlock` -/

section Precious

variable {σ : Type} {n : Node σ} {s s' : Chainstate} {p t : Uint256}

/-- The block has the sequence id `id` now, and nothing else of the index changes. -/
structure Prefers (s s' : Chainstate) (p : Uint256) (id : ℤ) : Prop where
  hashes : s'.hashes = s.hashes
  entry : ∀ h, s'.m_block_index h = (s.m_block_index h).map fun e =>
    if h = p then { e with nSequenceId := id } else e
  tip : s'.m_tip = s.m_tip
  unlinked : s'.m_blocks_unlinked = s.m_blocks_unlinked

namespace Prefers

variable {id : ℤ}

section

variable (K : Prefers s s' p id)

include K

theorem writes : Writes s s' p fun e => { e with nSequenceId := id } := ⟨K.hashes, K.entry⟩

theorem sameTree : SameTree s s' := K.writes.sameTree fun _ _ => rfl

theorem nStatus : s'.nStatus = s.nStatus := K.writes.nStatus fun _ _ => rfl

theorem failed : s'.failed = s.failed := by
  funext h
  rw [Chainstate.failed, Chainstate.failed, K.nStatus]

theorem haveNumChainTxs : s'.haveNumChainTxs = s.haveNumChainTxs :=
  funext fun h =>
    haveNumChainTxs_of_count (congrFun (K.writes.m_chain_tx_count fun _ _ => rfl) h)

theorem blocksInv (I : BlocksInv n s) : BlocksInv n s' :=
  I.of_fields K.sameTree (fun h => by rw [K.nStatus]) (fun h => by rw [K.nStatus])
    (K.writes.nTx fun _ _ => rfl) K.haveNumChainTxs K.unlinked

theorem sortKey_le (addr : Uint256 → ℕ) (hp : (s.m_block_index p).isSome)
    (hid : id ≤ s.nSequenceId p) : sortKey addr s p ≤ sortKey addr s' p := by
  obtain ⟨e, he⟩ := Option.isSome_iff_exists.mp hp
  have hseq : s'.nSequenceId p = id := by
    rw [Chainstate.nSequenceId, K.writes.entry_self he]
    rfl
  simp only [sortKey, K.sameTree.nChainWork, hseq, Prod.Lex.le_iff, ofLex_toLex, lt_self_iff_false,
    true_and, false_or, le_refl, and_true]
  omega

end

end Prefers

/-- **A new sequence id leaves no usable block uncovered**, unless it puts the tip back
behind others. -/
theorem ChainInv.prefer {id : ℤ} (I : ChainInv n s) (K : Prefers s s' p id) (ht : s.m_tip = some t)
    (hid : t = p → id ≤ s.nSequenceId p)
    (hcands : ∀ c, c ∈ s'.setBlockIndexCandidates ↔ (c ∈ s.setBlockIndexCandidates ∧ c ≠ p) ∨
      (c = p ∧ s.failed p = false ∧ s.haveNumChainTxs p = true)) : Working n s' := by
  obtain ⟨httx, htfailed, htconnects⟩ := I.tip t ht
  have hconnects : ∀ h, ChainConnects n s h → ChainConnects n s' h := by
    intro h hh a ha
    rw [K.sameTree.pprev] at ha
    exact hh a ha
  have htcand : t ∈ s'.setBlockIndexCandidates := by
    rw [hcands]
    by_cases htp : t = p
    · exact .inr ⟨htp, htp ▸ htfailed, htp ▸ httx⟩
    · refine .inl ⟨I.complete t httx htfailed fun u hu => ?_, htp⟩
      rw [Option.some_inj.mp (ht.symm.trans hu)]
  have htkey : sortKey n.addr s t ≤ sortKey n.addr s' t := by
    by_cases htp : t = p
    · subst htp
      exact K.sortKey_le n.addr (isSome_of_haveNumChainTxs httx) (hid rfl)
    · rw [K.writes.sortKey_of_ne n.addr htp]
  refine ⟨⟨K.blocksInv I.blocks, I.flags.of_flags K.sameTree.pprev K.failed, ?_, ?_⟩, ?_⟩
  · intro u hu
    rw [K.tip] at hu
    obtain ⟨hutx, hufailed, huconnects⟩ := I.tip u hu
    rw [K.haveNumChainTxs, K.failed]
    exact ⟨hutx, hufailed, hconnects u huconnects⟩
  · intro c hc
    rw [K.haveNumChainTxs]
    rcases (hcands c).mp hc with ⟨hc, -⟩ | ⟨rfl, -, hctx⟩
    · exact I.candidates c hc
    · exact hctx
  · intro h htx hfailed
    rw [K.haveNumChainTxs] at htx
    rw [K.failed] at hfailed
    by_cases hne : h = p
    · subst hne
      exact .inl ((hcands h).mpr (.inr ⟨rfl, hfailed, htx⟩))
    · -- what sorted before the tip still does
      rcases lt_or_ge (sortKey n.addr s h) (sortKey n.addr s t) with hlt | hge
      · right
        refine ⟨t, htcand, hconnects t htconnects, by rw [K.failed, htfailed], ?_⟩
        rw [K.writes.sortKey_of_ne n.addr hne]
        exact hlt.trans_le htkey
      · refine .inl ((hcands h).mpr (.inl ⟨I.complete h htx hfailed fun u hu => ?_, hne⟩))
        rwa [← Option.some_inj.mp (ht.symm.trans hu)]

/-- **`PreciousBlock` keeps the invariant** when it does not put the tip back.
SOURCE: src/src/validation.cpp:4052-4083 -/
theorem preciousBlock_wp (I : ChainInv n s) (fuel : ℕ)
    (hkeeps : PreciousKeepsTip s (.preciousBlock p : ChainOp σ)) :
    wp (fun _ => True) (preciousBlock n.addr n.connectBlock fuel p)
      (fun _ s' => ChainInv n s') s := by
  simp only [preciousBlock, wp_bind, wp_get]
  cases ht : s.m_tip with
  | none => trivial
  | some t =>
    dsimp only
    split
    · exact I
    · simp only [wp_bind, wp_set, wp_get]
      generalize hid : preciousId s t = id
      generalize hs₁ : ({ (s.eraseCandidate p).modifyEntry p
          (fun e => { e with nSequenceId := id }) with
          nLastPreciousChainwork := s.nChainWork t
          nBlockReverseSequenceId := if INT32_MIN < id then id - 1 else id } : Chainstate) = s₁
      have K : Prefers s s₁ p id := by
        subst hs₁
        exact ⟨rfl, fun _ => rfl, rfl, rfl⟩
      have hcands₁ : s₁.setBlockIndexCandidates = s.setBlockIndexCandidates.filter (· != p) := by
        subst hs₁
        rfl
      have hidle : t = p → id ≤ s.nSequenceId p := by
        rintro rfl
        rw [← hid]
        exact hkeeps ht
      have hvalid : (s₁.isValid p .transactions && s₁.haveNumChainTxs p) = true ↔
          s.failed p = false ∧ s.haveNumChainTxs p = true := by
        rw [Bool.and_eq_true, K.haveNumChainTxs, Chainstate.isValid, K.failed, K.nStatus,
          Bool.and_eq_true, Bool.not_eq_true', decide_eq_true_eq]
        constructor
        · exact fun h => ⟨h.1.1, h.2⟩
        · exact fun h => ⟨⟨h.1, I.blocks.valid p (I.blocks.data p h.2)⟩, h.2⟩
      have hbest : ∀ s₂, Working n s₂ → wp (fun _ => True)
          (activateBestChain n.addr n.connectBlock fuel) (fun _ s' => ChainInv n s') s₂ :=
        fun s₂ W => wp_mono (activateBestChain_best fuel W) fun _ _ best => best.chainInv
      split
      · rename_i hins
        simp only [wp_bind, wp_set]
        have K' : Prefers s (s₁.insertCandidate p) p id :=
          ⟨K.hashes, K.entry, K.tip, K.unlinked⟩
        have W := I.prefer K' ht hidle fun c => by
          refine List.mem_insert_iff.trans (or_comm.trans (or_congr ?_ ?_))
          · rw [hcands₁, List.mem_filter, bne_iff_ne]
          · exact (and_iff_left (hvalid.mp hins)).symm
        apply wp_mono (wp_weaken (pruneBlockIndexCandidates_wp W (K'.tip.trans ht))
          fun _ => False.elim)
        rintro - s₂ ⟨-, -, W₂, -⟩
        exact hbest s₂ W₂
      · rename_i hnot
        refine hbest s₁ (I.prefer K ht hidle fun c => ?_)
        rw [hcands₁, List.mem_filter, bne_iff_ne]
        refine (or_iff_left fun h => hnot (hvalid.mpr h.2)).symm

end Precious

end BitMinti.Analysis
