import BitMinti.Analysis.LastCommonAncestor
import BitMinti.Computation.StateExcept
import BitMinti.Interface.Chainstate
import Mathlib.Data.Prod.Lex

/-!
# What the operations keep of a chainstate

`CBlockIndexWorkComparator` compares keys in a linear order.  The operations that move the tip,
change flags or change the candidates leave the blocks as they are (`SameBlocks`); how flags
spread is said once, by `Reflags`.  `ChainInv` is what holds between two operations.
-/

set_option autoImplicit false

namespace BitMinti.Analysis

open Model Interface Computation.Ancestry Computation.StateExcept

/-! ## The comparator -/

section Comparator

variable (addr : Uint256 → ℕ) (s : Chainstate)

/-- What `CBlockIndexWorkComparator` compares: more work first, then the lower sequence id, then
the lower address. -/
def sortKey (p : Uint256) : ℕ ×ₗ ℤ ×ₗ ℤ :=
  toLex ((s.nChainWork p).toNat, toLex (-s.nSequenceId p, -(addr p : ℤ)))

/-- **The comparator compares keys.**
SOURCE: src/src/node/blockstorage.cpp:166-190 -/
theorem workComparator_iff (a b : Uint256) :
    workComparator addr s a b = true ↔ sortKey addr s a < sortKey addr s b := by
  simp only [workComparator, sortKey, ArithUint256.blt_eq, decide_eq_true_eq, Prod.Lex.lt_iff,
    ofLex_toLex]
  split_ifs <;> simp <;> omega

theorem workComparator_false_iff (a b : Uint256) :
    workComparator addr s a b = false ↔ sortKey addr s b ≤ sortKey addr s a := by
  rw [← Bool.not_eq_true, workComparator_iff, not_lt]

theorem sortKey_injective (haddr : Function.Injective addr) :
    Function.Injective (sortKey addr s) := by
  intro a b h
  have haddrs : (addr a : ℤ) = addr b := neg_inj.mp (Prod.ext_iff.mp (Prod.ext_iff.mp h).2).2
  exact haddr (by exact_mod_cast haddrs)

variable {addr s}

theorem laterCandidate_some (q p : Uint256) :
    ∃ b, laterCandidate addr s (some q) p = some b ∧ (b = q ∨ b = p) ∧
      sortKey addr s q ≤ sortKey addr s b ∧ sortKey addr s p ≤ sortKey addr s b := by
  by_cases hlt : workComparator addr s q p = true
  · exact ⟨p, by rw [laterCandidate, if_pos hlt], .inr rfl,
      ((workComparator_iff addr s q p).mp hlt).le, le_rfl⟩
  · have hle := (workComparator_false_iff addr s q p).mp (Bool.not_eq_true _ ▸ hlt)
    exact ⟨q, by rw [laterCandidate, if_neg hlt], .inl rfl, le_rfl, hle⟩

theorem foldl_laterCandidate (cs : List Uint256) (q : Uint256) :
    ∃ b, cs.foldl (laterCandidate addr s) (some q) = some b ∧ (b = q ∨ b ∈ cs) ∧
      sortKey addr s q ≤ sortKey addr s b ∧ ∀ c ∈ cs, sortKey addr s c ≤ sortKey addr s b := by
  induction cs generalizing q with
  | nil => exact ⟨q, rfl, .inl rfl, le_rfl, nofun⟩
  | cons c cs ih =>
    obtain ⟨b₁, hb₁, hfrom₁, hq, hc⟩ := @laterCandidate_some addr s q c
    obtain ⟨b, hb, hfrom, hle, hall⟩ := ih b₁
    refine ⟨b, by rw [List.foldl_cons, hb₁, hb], ?_, hq.trans hle,
      List.forall_mem_cons.mpr ⟨hc.trans hle, hall⟩⟩
    rcases hfrom with rfl | hmem
    · rcases hfrom₁ with rfl | rfl
      · exact .inl rfl
      · exact .inr List.mem_cons_self
    · exact .inr (List.mem_cons_of_mem _ hmem)

/-- **The last candidate**, if there is one. -/
theorem rbegin_cases :
    (s.setBlockIndexCandidates = [] ∧ rbegin addr s = none) ∨
      ∃ b, rbegin addr s = some b ∧ b ∈ s.setBlockIndexCandidates ∧
        ∀ c ∈ s.setBlockIndexCandidates, sortKey addr s c ≤ sortKey addr s b := by
  unfold rbegin
  cases s.setBlockIndexCandidates with
  | nil => exact .inl ⟨rfl, rfl⟩
  | cons c cs =>
    obtain ⟨b, hb, hfrom, hc, hall⟩ := @foldl_laterCandidate addr s cs c
    exact .inr ⟨b, hb, List.mem_cons.mpr hfrom, List.forall_mem_cons.mpr ⟨hc, hall⟩⟩

end Comparator

/-! ## What most operations leave alone -/

/-- The part of an entry that its header and its place in the tree determine. -/
def treeEntry (e : CBlockIndex) : CBlockIndex :=
  { e with
    nFile := 0
    nDataPos := 0
    nUndoPos := 0
    nTx := 0
    m_chain_tx_count := 0
    nStatus := {}
    nSequenceId := 0 }

/-- A field that is not forgotten can be read afterwards. -/
theorem map_map_of_forget {α : Type} {f : CBlockIndex → α} {forget : CBlockIndex → CBlockIndex}
    (hf : ∀ e, f (forget e) = f e) (o : Option CBlockIndex) : (o.map forget).map f = o.map f := by
  rw [Option.map_map, show f ∘ forget = f from funext hf]

/-- The tree is the same. -/
structure SameTree (s s' : Chainstate) : Prop where
  hashes : s'.hashes = s.hashes
  entries : ∀ h, (s'.m_block_index h).map treeEntry = (s.m_block_index h).map treeEntry

namespace SameTree

variable {s s' s'' : Chainstate}

section

variable (S : SameTree s s')

include S

theorem trans (S' : SameTree s' s'') : SameTree s s'' :=
  ⟨S'.hashes.trans S.hashes, fun h => (S'.entries h).trans (S.entries h)⟩

theorem field {α : Type} (f : CBlockIndex → α) (hf : ∀ e, f (treeEntry e) = f e) (h : Uint256) :
    (s'.m_block_index h).map f = (s.m_block_index h).map f := by
  rw [← map_map_of_forget hf, S.entries h, map_map_of_forget hf]

theorem isSome (h : Uint256) : (s'.m_block_index h).isSome = (s.m_block_index h).isSome := by
  rw [← Option.isSome_map, S.entries h, Option.isSome_map]

theorem pprev : s'.pprev = s.pprev := by
  funext h
  have hjoin : ∀ o : Option CBlockIndex, o.bind (·.pprev) = (o.map (·.pprev)).join := by
    intro o
    cases o <;> rfl
  rw [Chainstate.pprev, Chainstate.pprev, BlockMap.prev, BlockMap.prev, hjoin, hjoin,
    S.field (·.pprev) (fun _ => rfl) h]

theorem nHeight : s'.nHeight = s.nHeight :=
  funext fun h => congrArg (·.getD 0) (S.field (·.nHeight) (fun _ => rfl) h)

theorem nChainWork : s'.nChainWork = s.nChainWork :=
  funext fun h => congrArg (·.getD (.ofUInt64 0)) (S.field (·.nChainWork) (fun _ => rfl) h)

theorem tree (T : TreeInv s.m_block_index) : TreeInv s'.m_block_index := by
  have hentry : ∀ h e', s'.m_block_index h = some e' →
      ∃ e, s.m_block_index h = some e ∧ treeEntry e' = treeEntry e := by
    intro h e' he'
    have htree := S.entries h
    rw [he', Option.map_some] at htree
    obtain ⟨e, he, htree⟩ := Option.map_eq_some_iff.mp htree.symm
    exact ⟨e, he, htree.symm⟩
  have hprev : s'.m_block_index.prev = s.m_block_index.prev := S.pprev
  have hheight : s'.m_block_index.height = s.m_block_index.height := S.nHeight
  refine ⟨?_, ?_, ?_⟩
  · intro h e' he'
    obtain ⟨e, he, htree⟩ := hentry h e' he'
    have hkey : e'.phashBlock = e.phashBlock :=
      show (treeEntry e').phashBlock = (treeEntry e).phashBlock by rw [htree]
    rw [hkey, T.key h e he]
  · rw [hprev, hheight]
    simp only [S.isSome]
    exact T.graded
  · intro h e' he'
    obtain ⟨e, he, htree⟩ := hentry h e' he'
    have hskip : e'.pskip = e.pskip :=
      show (treeEntry e').pskip = (treeEntry e).pskip by rw [htree]
    have hpprev : e'.pprev = e.pprev :=
      show (treeEntry e').pprev = (treeEntry e).pprev by rw [htree]
    have hnHeight : e'.nHeight = e.nHeight :=
      show (treeEntry e').nHeight = (treeEntry e).nHeight by rw [htree]
    rw [hskip, hpprev, hnHeight, hprev]
    exact T.skip h e he

end

end SameTree

/-! ## Writing one entry -/

/-- The entry of `p` is rewritten, and no other. -/
structure Writes (s s' : Chainstate) (p : Uint256) (f : CBlockIndex → CBlockIndex) : Prop where
  hashes : s'.hashes = s.hashes
  entry : ∀ h, s'.m_block_index h = (s.m_block_index h).map fun e => if h = p then f e else e

namespace Writes

variable {s s' : Chainstate} {p h : Uint256} {f : CBlockIndex → CBlockIndex} (W : Writes s s' p f)

include W

theorem entry_self {e : CBlockIndex} (he : s.m_block_index p = some e) :
    s'.m_block_index p = some (f e) := by
  rw [W.entry, he, Option.map_some, if_pos rfl]

theorem entry_of_ne (hne : h ≠ p) : s'.m_block_index h = s.m_block_index h := by
  rw [W.entry]
  simp only [if_neg hne, Option.map_id_fun', id]

/-- A field that is not written is the same everywhere. -/
theorem field {α : Type} (g : CBlockIndex → α)
    (hg : ∀ e, s.m_block_index p = some e → g (f e) = g e) (h : Uint256) :
    (s'.m_block_index h).map g = (s.m_block_index h).map g := by
  rw [W.entry]
  cases he : s.m_block_index h with
  | none => rfl
  | some e =>
    simp only [Option.map_some]
    split
    next heq => rw [hg e (heq ▸ he)]
    next => rfl

theorem sameTree (hg : ∀ e, s.m_block_index p = some e → treeEntry (f e) = treeEntry e) :
    SameTree s s' :=
  ⟨W.hashes, W.field treeEntry hg⟩

theorem nStatus (hg : ∀ e, s.m_block_index p = some e → (f e).nStatus = e.nStatus) :
    s'.nStatus = s.nStatus :=
  funext fun h => congrArg (·.getD {}) (W.field (·.nStatus) hg h)

theorem nTx (hg : ∀ e, s.m_block_index p = some e → (f e).nTx = e.nTx) : s'.nTx = s.nTx :=
  funext fun h => congrArg (·.getD 0) (W.field (·.nTx) hg h)

theorem m_chain_tx_count
    (hg : ∀ e, s.m_block_index p = some e → (f e).m_chain_tx_count = e.m_chain_tx_count) :
    s'.m_chain_tx_count = s.m_chain_tx_count :=
  funext fun h => congrArg (·.getD 0) (W.field (·.m_chain_tx_count) hg h)

theorem m_chain_tx_count_of_ne (hne : h ≠ p) : s'.m_chain_tx_count h = s.m_chain_tx_count h := by
  rw [Chainstate.m_chain_tx_count, Chainstate.m_chain_tx_count, W.entry_of_ne hne]

theorem sortKey_of_ne (addr : Uint256 → ℕ) (hne : h ≠ p) :
    sortKey addr s' h = sortKey addr s h := by
  simp only [sortKey, Chainstate.nChainWork, Chainstate.nSequenceId, W.entry_of_ne hne]

end Writes

theorem haveNumChainTxs_of_count {s s' : Chainstate} {h : Uint256}
    (hcount : s'.m_chain_tx_count h = s.m_chain_tx_count h) :
    s'.haveNumChainTxs h = s.haveNumChainTxs h := by
  rw [Chainstate.haveNumChainTxs, hcount, Chainstate.haveNumChainTxs]

/-- An entry without its flags, its level of validity and its undo data. -/
def bareEntry (e : CBlockIndex) : CBlockIndex :=
  { e with nUndoPos := 0, nStatus := { haveData := e.nStatus.haveData } }

/-- The blocks are the same, up to flags, undo data and higher levels of validity. -/
structure SameBlocks (s s' : Chainstate) : Prop where
  hashes : s'.hashes = s.hashes
  entries : ∀ h, (s'.m_block_index h).map bareEntry = (s.m_block_index h).map bareEntry
  valid : ∀ h, (s.nStatus h).valid.toNat ≤ (s'.nStatus h).valid.toNat
  unlinked : s'.m_blocks_unlinked = s.m_blocks_unlinked

namespace SameBlocks

variable {s s' s'' : Chainstate}

theorem trans (S : SameBlocks s s') (S' : SameBlocks s' s'') : SameBlocks s s'' :=
  ⟨S'.hashes.trans S.hashes, fun h => (S'.entries h).trans (S.entries h),
    fun h => (S.valid h).trans (S'.valid h), S'.unlinked.trans S.unlinked⟩

theorem of_index (hindex : s'.m_block_index = s.m_block_index) (hhashes : s'.hashes = s.hashes)
    (hunlinked : s'.m_blocks_unlinked = s.m_blocks_unlinked) : SameBlocks s s' :=
  ⟨hhashes, fun _ => by rw [hindex], fun h => by rw [Chainstate.nStatus, Chainstate.nStatus, hindex],
    hunlinked⟩

section

variable (S : SameBlocks s s')

include S

theorem field {α : Type} (f : CBlockIndex → α) (hf : ∀ e, f (bareEntry e) = f e) (h : Uint256) :
    (s'.m_block_index h).map f = (s.m_block_index h).map f := by
  rw [← map_map_of_forget hf, S.entries h, map_map_of_forget hf]

theorem sameTree : SameTree s s' :=
  ⟨S.hashes, S.field treeEntry fun _ => rfl⟩

theorem isSome (h : Uint256) :
    (s'.m_block_index h).isSome = (s.m_block_index h).isSome := S.sameTree.isSome h

theorem pprev : s'.pprev = s.pprev := S.sameTree.pprev

theorem nHeight : s'.nHeight = s.nHeight := S.sameTree.nHeight

theorem nChainWork : s'.nChainWork = s.nChainWork := S.sameTree.nChainWork

theorem tree (T : TreeInv s.m_block_index) : TreeInv s'.m_block_index :=
  S.sameTree.tree T

theorem nSequenceId : s'.nSequenceId = s.nSequenceId :=
  funext fun h => congrArg (·.getD 0) (S.field (·.nSequenceId) (fun _ => rfl) h)

theorem nTx : s'.nTx = s.nTx :=
  funext fun h => congrArg (·.getD 0) (S.field (·.nTx) (fun _ => rfl) h)

theorem haveNumChainTxs : s'.haveNumChainTxs = s.haveNumChainTxs := by
  funext h
  simp only [Chainstate.haveNumChainTxs, Chainstate.m_chain_tx_count]
  rw [S.field (·.m_chain_tx_count) (fun _ => rfl) h]

theorem haveData (h : Uint256) : (s'.nStatus h).haveData = (s.nStatus h).haveData := by
  have hdata : ∀ t : Chainstate, (t.nStatus h).haveData =
      ((t.m_block_index h).map (·.nStatus.haveData)).getD false := by
    intro t
    simp only [Chainstate.nStatus]
    cases t.m_block_index h <;> rfl
  rw [hdata, hdata, S.field (·.nStatus.haveData) (fun _ => rfl) h]

theorem sortKey (addr : Uint256 → ℕ) :
    sortKey addr s' = Analysis.sortKey addr s := by
  funext h
  simp only [Analysis.sortKey, S.nChainWork, S.nSequenceId]

end

end SameBlocks

/-! ## Ancestors -/

section Ancestors

variable {s : Chainstate} {a p t : Uint256}

theorem isSome_of_pprev (h : s.pprev t = some p) : (s.m_block_index t).isSome := by
  cases he : s.m_block_index t with
  | none => simp [Chainstate.pprev, BlockMap.prev, he] at h
  | some e => rfl

theorem isSome_of_descendant (h : AncestorOf s.pprev p t) (hp : (s.m_block_index p).isSome) :
    (s.m_block_index t).isSome := by
  rcases h.eq_or_parent with rfl | ⟨q, hq, -⟩
  · exact hp
  · exact isSome_of_pprev hq

variable (T : TreeInv s.m_block_index)

include T

theorem isSome_of_ancestor (hp : (s.m_block_index p).isSome) (h : AncestorOf s.pprev a p) :
    (s.m_block_index a).isSome ∧ s.nHeight a ≤ s.nHeight p :=
  have hup := T.graded.up_of_ancestor hp h
  ⟨hup.1, hup.2.1⟩

theorem parent_of_pprev (ht : (s.m_block_index t).isSome) (hp : s.pprev t = some p) :
    (s.m_block_index p).isSome ∧ s.nHeight t = s.nHeight p + 1 :=
  T.graded.parent t p ht hp

theorem exists_getAncestor (hp : (s.m_block_index p).isSome) {k : ℕ} (hk : k ≤ s.nHeight p) :
    ∃ q, s.getAncestor p k = some q ∧ (s.m_block_index q).isSome ∧
      AncestorOf s.pprev q p ∧ s.nHeight q = k := by
  obtain ⟨e, he⟩ := Option.isSome_iff_exists.mp hp
  rw [Chainstate.nHeight, BlockMap.height_of he] at hk
  obtain ⟨q, eq, hup, hq, hheight, hget⟩ := T.getAncestor_eq he hk
  refine ⟨q, ?_, by simp [hq], ⟨_, hup⟩, (BlockMap.height_of hq).trans hheight⟩
  rw [Chainstate.getAncestor, he, Option.bind_some, hget, Option.map_some, T.key q eq hq]

/-- **Comparing `GetAncestor` with a block tells whether that is an ancestor.** -/
theorem descendsFrom_iff (hp : (s.m_block_index p).isSome) :
    s.descendsFrom p a = true ↔ AncestorOf s.pprev a p := by
  obtain ⟨e, he⟩ := Option.isSome_iff_exists.mp hp
  simp only [Chainstate.descendsFrom, Chainstate.getAncestor, he, Option.bind_some, beq_iff_eq]
  constructor
  · intro hget
    by_cases hle : s.nHeight a ≤ e.nHeight
    · obtain ⟨c, ec, hup, hc, -, hanc⟩ := T.getAncestor_eq he hle
      rw [hanc, Option.map_some, Option.some_inj, T.key c ec hc] at hget
      subst hget
      exact ⟨_, hup⟩
    · rw [TreeInv.getAncestor_none _ _ (by omega)] at hget
      cases hget
  · intro h
    obtain ⟨ea, hea⟩ := Option.isSome_iff_exists.mp (isSome_of_ancestor T hp h).1
    rw [Chainstate.nHeight, BlockMap.height_of hea, T.getAncestor_of_ancestor he hea h,
      Option.map_some, T.key a ea hea]

theorem contains_iff (ht : s.m_tip = some t) (hmem : (s.m_block_index t).isSome) :
    s.contains a = true ↔ AncestorOf s.pprev a t := by
  rw [Chainstate.contains, ht, Option.any_some, descendsFrom_iff T hmem]

end Ancestors

/-! ## Writing entries -/

section Writing

variable {s s' : Chainstate}

theorem SameBlocks.of_entries {f : Uint256 → CBlockIndex → CBlockIndex}
    (hhashes : s'.hashes = s.hashes)
    (hentry : ∀ h, s'.m_block_index h = (s.m_block_index h).map (f h))
    (hunlinked : s'.m_blocks_unlinked = s.m_blocks_unlinked)
    (hcore : ∀ h e, bareEntry (f h e) = bareEntry e)
    (hvalid : ∀ h e, e.nStatus.valid.toNat ≤ (f h e).nStatus.valid.toNat) :
    SameBlocks s s' where
  hashes := hhashes
  entries h := by
    rw [hentry]
    cases s.m_block_index h with
    | none => rfl
    | some e => simp only [Option.map_some, hcore]
  valid h := by
    rw [Chainstate.nStatus, Chainstate.nStatus, hentry]
    cases s.m_block_index h with
    | none => exact le_rfl
    | some e => exact hvalid h e
  unlinked := hunlinked

/-- The status of the blocks in `D` is rewritten. -/
structure Marks (s s' : Chainstate) (D : Uint256 → Prop) [DecidablePred D]
    (f : BlockStatus → BlockStatus) : Prop where
  hashes : s'.hashes = s.hashes
  entry : ∀ h, s'.m_block_index h = (s.m_block_index h).map fun e =>
    if D h then { e with nStatus := f e.nStatus } else e
  unlinked : s'.m_blocks_unlinked = s.m_blocks_unlinked
  known : ∀ h, D h → (s.m_block_index h).isSome

namespace Marks

variable {D : Uint256 → Prop} [DecidablePred D] {f : BlockStatus → BlockStatus}
  (M : Marks s s' D f)

include M

theorem sameBlocks (hdata : ∀ st, (f st).haveData = st.haveData)
    (hvalid : ∀ st, (f st).valid = st.valid) : SameBlocks s s' := by
  refine .of_entries M.hashes M.entry M.unlinked (fun h e => ?_) (fun h e => ?_)
  · split
    · simp only [bareEntry, hdata]
    · rfl
  · split
    · simp only [hvalid, le_refl]
    · exact le_rfl

theorem nStatus (h : Uint256) : s'.nStatus h = if D h then f (s.nStatus h) else s.nStatus h := by
  rw [Chainstate.nStatus, Chainstate.nStatus, M.entry]
  cases he : s.m_block_index h with
  | none => rw [if_neg fun hD => by simpa [he] using M.known h hD, Option.map_none]
  | some e =>
    simp only [Option.map_some, Option.getD_some]
    split <;> rfl

theorem failed {h : Uint256} (hh : D h) (hf : ∀ st, (f st).failed = true) :
    s'.failed h = true := by
  rw [Chainstate.failed, M.nStatus, if_pos hh, hf]

theorem failed_iff (hf : ∀ st, (f st).failed = true) (h : Uint256) :
    s'.failed h = true ↔ D h ∨ s.failed h = true := by
  rw [Chainstate.failed, M.nStatus]
  split
  next hh => simp [hh, hf]
  next hh => simp [hh, Chainstate.failed]

end Marks

end Writing

/-! ## How flags spread -/

/-- Flags are only added, below blocks that are `Bad`, and no flag is left without a reason. -/
structure Reflags (Bad : Uint256 → Prop) (s s' : Chainstate) : Prop extends SameBlocks s s' where
  mono : ∀ h, s.failed h = true → s'.failed h = true
  new : ∀ h, s'.failed h = true → s.failed h = true ∨ ∃ p, AncestorOf s.pprev p h ∧ Bad p
  justified : FlagsJustified s → FlagsJustified s'

namespace Reflags

variable {Bad : Uint256 → Prop} {s s' s'' : Chainstate}

theorem unflagged (R : Reflags Bad s s') {h : Uint256} (hh : s'.failed h = false) :
    s.failed h = false := by
  by_contra hfailed
  rw [R.mono h (Bool.not_eq_false _ ▸ hfailed)] at hh
  cases hh

theorem of_flags (S : SameBlocks s s')
    (h : ∀ h, (s'.nStatus h).failedValid = (s.nStatus h).failedValid ∧ s'.failed h = s.failed h) :
    Reflags Bad s s' where
  toSameBlocks := S
  mono a ha := by rw [(h a).2, ha]
  new a ha := .inl (by rw [← (h a).2, ha])
  justified J a ha := by
    rw [(h a).2] at ha
    obtain ⟨b, hba, hb⟩ := J a ha
    exact ⟨b, S.pprev ▸ hba, by rw [(h b).1, hb]⟩

theorem of_index (hindex : s'.m_block_index = s.m_block_index) (hhashes : s'.hashes = s.hashes)
    (hunlinked : s'.m_blocks_unlinked = s.m_blocks_unlinked) : Reflags Bad s s' := by
  refine of_flags (.of_index hindex hhashes hunlinked) fun h => ?_
  have hst : s'.nStatus h = s.nStatus h := by rw [Chainstate.nStatus, Chainstate.nStatus, hindex]
  exact ⟨by rw [hst], by rw [Chainstate.failed, Chainstate.failed, hst]⟩

theorem refl (s : Chainstate) : Reflags Bad s s := of_index rfl rfl rfl

theorem above {p q : Uint256} (R : Reflags (· = p) s s') (hqp : AncestorOf s.pprev q p)
    (hq : Bad q) : Reflags Bad s s' where
  toSameBlocks := R.toSameBlocks
  mono := R.mono
  new a ha := (R.new a ha).imp_right fun ⟨_, hp, heq⟩ => ⟨q, hqp.trans (heq ▸ hp), hq⟩
  justified := R.justified

theorem trans (R : Reflags Bad s s') (R' : Reflags Bad s' s'') : Reflags Bad s s'' where
  toSameBlocks := R.toSameBlocks.trans R'.toSameBlocks
  mono h hh := R'.mono h (R.mono h hh)
  new h hh := by
    have hnew' := R'.new h hh
    rw [R.pprev] at hnew'
    rcases hnew' with hmid | hbad
    · exact R.new h hmid
    · exact .inr hbad
  justified J := R'.justified (R.justified J)

theorem failed_of_good (R : Reflags Bad s s') {h : Uint256}
    (hgood : ∀ p, AncestorOf s.pprev p h → ¬ Bad p) : s'.failed h = s.failed h := by
  rw [Bool.eq_iff_iff]
  constructor
  · intro hh
    rcases R.new h hh with hold | ⟨p, hp, hbad⟩
    · exact hold
    · exact absurd hbad (hgood p hp)
  · exact R.mono h

/-- **An invalid block is marked.** -/
theorem setFailedValid {p : Uint256} (M : Marks s s' (· = p) .setFailedValid) :
    Reflags (· = p) s s' := by
  have hst := M.nStatus
  have S := M.sameBlocks (fun _ => rfl) (fun _ => rfl)
  have hvalid : ∀ b, (s.nStatus b).failedValid = true → (s'.nStatus b).failedValid = true := by
    intro b hb
    rw [hst]
    split
    · rfl
    · exact hb
  have hcases := M.failed_iff fun _ => rfl
  refine ⟨S, fun h hh => (hcases h).mpr (.inr hh), ?_, ?_⟩
  · intro h hh
    rcases (hcases h).mp hh with rfl | hold
    · exact .inr ⟨h, .refl h, rfl⟩
    · exact .inl hold
  · intro J h hh
    rw [S.pprev]
    rcases (hcases h).mp hh with rfl | hold
    · exact ⟨h, .refl h, by rw [hst, if_pos rfl]; rfl⟩
    · obtain ⟨b, hbh, hb⟩ := J h hold
      exact ⟨b, hbh, hvalid b hb⟩

/-- **Descendants of a failed block are marked**, which hides that some of them were
invalid themselves. -/
theorem setFailedChild (T : TreeInv s.m_block_index) {p : Uint256} {D : Uint256 → Prop}
    [DecidablePred D] (M : Marks s s' D .toFailedChild) (hp : (s.m_block_index p).isSome)
    (hfailed : s.failed p = true) (hD : ∀ h, D h → h ≠ p ∧ AncestorOf s.pprev p h) :
    Reflags (· = p) s s' := by
  have hst := M.nStatus
  have S := M.sameBlocks (fun _ => rfl) (fun _ => rfl)
  have hcases := M.failed_iff fun _ => rfl
  refine ⟨S, fun h hh => (hcases h).mpr (.inr hh), ?_, ?_⟩
  · intro h hh
    exact ((hcases h).mp hh).symm.imp_right fun hDh => ⟨p, (hD h hDh).2, rfl⟩
  · intro J h hh
    rw [S.pprev]
    obtain ⟨b, hbp, hb⟩ := J p hfailed
    -- the reason for the flag of `p` lies above it and is not touched
    have hDb : ¬ D b := fun hDb => (hD b hDb).1 (T.graded.antisymm hp hbp (hD b hDb).2)
    have hb' : (s'.nStatus b).failedValid = true := by rw [hst, if_neg hDb, hb]
    rcases (hcases h).mp hh with hDh | hold
    · exact ⟨b, hbp.trans (hD h hDh).2, hb'⟩
    · obtain ⟨c, hch, hc⟩ := J h hold
      by_cases hDc : D c
      · exact ⟨b, (hbp.trans (hD c hDc).2).trans hch, hb'⟩
      · exact ⟨c, hch, by rw [hst, if_neg hDc, hc]⟩

end Reflags

section Marking

variable {s : Chainstate} {p h : Uint256}

theorem properDescendant_iff (T : TreeInv s.m_block_index) :
    s.properDescendant p h = true ↔
      (s.m_block_index h).isSome ∧ h ≠ p ∧ AncestorOf s.pprev p h := by
  cases he : s.m_block_index h with
  | none => simp [Chainstate.properDescendant, Chainstate.descendsFrom, Chainstate.getAncestor, he]
  | some e =>
    have hmem : (s.m_block_index h).isSome := by rw [he]; rfl
    rw [Chainstate.properDescendant, Bool.and_eq_true, descendsFrom_iff T hmem, bne_iff_ne]
    simp

theorem Marks.setFailedValid (hp : (s.m_block_index p).isSome) :
    Marks s ((s.modifyStatus p .setFailedValid).eraseCandidate p) (· = p) .setFailedValid :=
  ⟨rfl, fun _ => rfl, rfl, fun _ hh => hh ▸ hp⟩

theorem Marks.setBlockFailureFlags (T : TreeInv s.m_block_index) :
    Marks s (setBlockFailureFlags p s) (s.properDescendant p · = true) .toFailedChild :=
  ⟨rfl, fun _ => rfl, rfl, fun _ hh => ((properDescendant_iff T).mp hh).1⟩

theorem Reflags.setBlockFailureFlags (T : TreeInv s.m_block_index)
    (hp : (s.m_block_index p).isSome) (hfailed : s.failed p = true) :
    Reflags (· = p) s (setBlockFailureFlags p s) :=
  .setFailedChild T (.setBlockFailureFlags T) hp hfailed
    fun _ hh => ((properDescendant_iff T).mp hh).2

theorem failed_setBlockFailureFlags (T : TreeInv s.m_block_index)
    (hp : (s.m_block_index p).isSome) (hfailed : s.failed p = true) (hph : AncestorOf s.pprev p h) :
    (setBlockFailureFlags p s).failed h = true := by
  by_cases hne : h = p
  · exact hne ▸ (Reflags.setBlockFailureFlags T hp hfailed).mono p hfailed
  · exact (Marks.setBlockFailureFlags T).failed
      ((properDescendant_iff T).mpr ⟨isSome_of_descendant hph hp, hne, hph⟩) fun _ => rfl

/-- What `InvalidBlockFound` does to flags and candidates. -/
def markInvalid (p : Uint256) (s : Chainstate) : Chainstate :=
  setBlockFailureFlags p ((s.modifyStatus p .setFailedValid).eraseCandidate p)

/-- **`InvalidBlockFound` marks the block and everything below it.** -/
theorem Reflags.markInvalid (T : TreeInv s.m_block_index) (hp : (s.m_block_index p).isSome) :
    Reflags (· = p) s (markInvalid p s) := by
  have M := Marks.setFailedValid hp
  have R := Reflags.setFailedValid M
  exact R.trans (.setBlockFailureFlags (R.tree T) (by rw [R.isSome, hp])
    (M.failed rfl fun _ => rfl))

theorem failed_markInvalid (T : TreeInv s.m_block_index) (hp : (s.m_block_index p).isSome)
    (hph : AncestorOf s.pprev p h) : (markInvalid p s).failed h = true := by
  have M := Marks.setFailedValid hp
  have R := Reflags.setFailedValid M
  exact failed_setBlockFailureFlags (R.tree T) (by rw [R.isSome, hp]) (M.failed rfl fun _ => rfl)
    (by rwa [R.pprev])

end Marking

/-! ## `InvalidChainFound` -/

section InvalidChainFound

variable {s : Chainstate}

theorem betterHeaders_wp (hashes : List Uint256) (q : Uint256) (t : Chainstate) :
    wp (fun _ => False) (hashes.foldlM (betterHeader s) (some q)) (fun _ s' => s' = t) t := by
  induction hashes generalizing q with
  | nil => rfl
  | cons p ps ih =>
    rw [List.foldlM_cons, wp_bind, betterHeader]
    split
    · exact ih q
    · exact ih _

theorem recalculateBestHeader_wp :
    wp (fun _ => s.m_tip = none) recalculateBestHeader
      (fun _ s' => ∃ best, s' = { s with best_header := best }) s := by
  simp only [recalculateBestHeader, wp_bind, wp_get]
  cases htip : s.m_tip with
  | none =>
    unfold wp
    split
    · exact ⟨_, rfl⟩
    · rfl
  | some tip =>
    apply wp_weaken _ fun _ => False.elim
    apply wp_mono (betterHeaders_wp s.hashes tip s)
    rintro best _ rfl
    exact ⟨best, rfl⟩

/-- **`InvalidChainFound` marks what is below the block.**
SOURCE: src/src/validation.cpp:2286-2324 -/
theorem invalidChainFound_wp (p : Uint256) :
    wp (fun _ => s.m_tip = none) (invalidChainFound p)
      (fun _ s' => s.m_tip ≠ none ∧ ∃ best worst, s' =
        { setBlockFailureFlags p s with best_header := best, m_best_invalid := worst }) s := by
  have hassert : ∀ t t' : Chainstate, t.m_tip = s.m_tip → ∀ Q : PUnit → Chainstate → Prop,
      (s.m_tip ≠ none → Q ⟨⟩ t') → wp (fun _ => s.m_tip = none)
        (if t.m_tip.isNone = true then throw (.fault .assertion) else pure () : ChainM PUnit) Q t' := by
    intro t t' ht Q hQ
    split
    · rename_i hnone
      rw [ht, Option.isNone_iff_eq_none] at hnone
      exact hnone
    · rename_i hsome
      rw [ht, Option.isNone_iff_eq_none] at hsome
      exact hQ hsome
  simp only [invalidChainFound, wp_bind, wp_modify, wp_get]
  split
  · simp only [wp_bind]
    apply wp_mono recalculateBestHeader_wp
    rintro - _ ⟨best, rfl⟩
    exact hassert _ _ rfl _ fun htip => ⟨htip, best, worstInvalid s p, rfl⟩
  · exact hassert _ _ rfl _ fun htip => ⟨htip, s.best_header, worstInvalid s p, rfl⟩

/-- **`InvalidBlockFound` marks the block and what is below it**, unless the block was
mutated.
SOURCE: src/src/validation.cpp:2312-2324 -/
theorem invalidBlockFound_wp (p : Uint256) (result : BlockValidationResult) :
    wp (fun _ => s.m_tip = none) (invalidBlockFound p result)
      (fun _ s' => (result = .mutated ∧ s' = s) ∨
        (result ≠ .mutated ∧ s.m_tip ≠ none ∧ ∃ best worst, s' =
          { markInvalid p s with best_header := best, m_best_invalid := worst })) s := by
  unfold invalidBlockFound
  split
  · rename_i hresult
    simp only [wp_bind, wp_modify]
    apply wp_mono (invalidChainFound_wp p)
    rintro - _ ⟨htip, best, worst, rfl⟩
    exact .inr ⟨hresult, htip, best, worst, rfl⟩
  · rename_i hresult
    exact .inl ⟨not_not.mp hresult, rfl⟩

end InvalidChainFound

/-! ## The invariant -/

section Invariant

variable {σ : Type} (n : Node σ) (s : Chainstate)

/-- What holds of the blocks that are stored: the tree has one root, a block counts its
transactions only when it and its parent have theirs, and `m_blocks_unlinked` lists blocks that
wait for their parent. -/
structure StoredInv : Prop where
  tree : TreeInv s.m_block_index
  keys : ∀ h, h ∈ s.hashes ↔ (s.m_block_index h).isSome
  genesis : ∀ h, (s.m_block_index h).isSome → s.pprev h = none → h = n.params.hashGenesisBlock
  level : ∀ h, (s.m_block_index h).isSome →
    BlockValidity.tree.toNat ≤ (s.nStatus h).valid.toNat
  counted : ∀ h, (s.nStatus h).haveData = true → 0 < s.nTx h
  data : ∀ h, s.haveNumChainTxs h = true → (s.nStatus h).haveData = true
  valid : ∀ h, (s.nStatus h).haveData = true →
    BlockValidity.transactions.toNat ≤ (s.nStatus h).valid.toNat
  linked : ∀ h p, s.haveNumChainTxs h = true → s.pprev h = some p → s.haveNumChainTxs p = true
  parked : ∀ p h, (p, h) ∈ s.m_blocks_unlinked →
    s.pprev h = some p ∧ (s.nStatus h).haveData = true ∧ s.haveNumChainTxs p = false
  nodup : s.m_blocks_unlinked.Nodup

/-- What holds of the blocks: also, every block with data counts its transactions or is listed in
`m_blocks_unlinked`. -/
structure BlocksInv : Prop extends StoredInv n s where
  waiting : ∀ h, (s.nStatus h).haveData = true → s.haveNumChainTxs h = false →
    ∃ p, (p, h) ∈ s.m_blocks_unlinked

/-- What holds of the flags: they reach all descendants and never the root. -/
structure FlagsInv : Prop where
  closed : ∀ a h, AncestorOf s.pprev a h → s.failed a = true → s.failed h = true
  root : ∀ h, s.pprev h = none → s.failed h = false

/-- What holds of the tip and the candidates, whatever is going on. -/
structure StateInv : Prop where
  blocks : BlocksInv n s
  flags : FlagsInv s
  tip : ∀ t, s.m_tip = some t →
    s.haveNumChainTxs t = true ∧ s.failed t = false ∧ ChainConnects n s t
  candidates : ∀ c ∈ s.setBlockIndexCandidates, s.haveNumChainTxs c = true

/-- **What holds between two operations**: also that no block is missing from the candidates. -/
structure ChainInv : Prop extends StateInv n s where
  complete : ∀ h, s.haveNumChainTxs h = true → s.failed h = false →
    (∀ t, s.m_tip = some t → sortKey n.addr s t ≤ sortKey n.addr s h) →
    h ∈ s.setBlockIndexCandidates

variable {n s} {s' : Chainstate}

theorem isSome_of_haveNumChainTxs {h : Uint256} (hh : s.haveNumChainTxs h = true) :
    (s.m_block_index h).isSome := by
  cases he : s.m_block_index h with
  | none => simp [Chainstate.haveNumChainTxs, Chainstate.m_chain_tx_count, he] at hh
  | some e => rfl

theorem isSome_of_haveData {h : Uint256} (hh : (s.nStatus h).haveData = true) :
    (s.m_block_index h).isSome := by
  cases he : s.m_block_index h with
  | none => simp [Chainstate.nStatus, he] at hh
  | some e => rfl

theorem isSome_of_failed {h : Uint256} (hh : s.failed h = true) : (s.m_block_index h).isSome := by
  cases he : s.m_block_index h with
  | none => simp [Chainstate.failed, Chainstate.nStatus, he, BlockStatus.failed] at hh
  | some e => rfl

theorem BlocksInv.of_fields (I : BlocksInv n s) (S : SameTree s s')
    (hdata : ∀ h, (s'.nStatus h).haveData = (s.nStatus h).haveData)
    (hvalid : ∀ h, (s.nStatus h).valid.toNat ≤ (s'.nStatus h).valid.toNat) (hnTx : s'.nTx = s.nTx)
    (hcount : s'.haveNumChainTxs = s.haveNumChainTxs)
    (hunlinked : s'.m_blocks_unlinked = s.m_blocks_unlinked) : BlocksInv n s' where
  tree := S.tree I.tree
  keys h := by rw [S.hashes, S.isSome, I.keys]
  genesis h := by
    rw [S.isSome, S.pprev]
    exact I.genesis h
  level h := by
    rw [S.isSome]
    exact fun hh => (I.level h hh).trans (hvalid h)
  counted h := by
    rw [hdata, hnTx]
    exact I.counted h
  data h := by
    rw [hcount, hdata]
    exact I.data h
  valid h := by
    rw [hdata]
    exact fun hh => (I.valid h hh).trans (hvalid h)
  linked h p := by
    rw [hcount, S.pprev]
    exact I.linked h p
  parked p h := by
    rw [hunlinked, S.pprev, hdata, hcount]
    exact I.parked p h
  waiting h := by
    rw [hdata, hcount, hunlinked]
    exact I.waiting h
  nodup := by
    rw [hunlinked]
    exact I.nodup

/-- **Operations that leave the blocks alone keep what holds of them.** -/
theorem BlocksInv.same (I : BlocksInv n s) (S : SameBlocks s s') : BlocksInv n s' :=
  I.of_fields S.sameTree S.haveData S.valid S.nTx S.haveNumChainTxs S.unlinked

theorem BlocksInv.linked_of_ancestor (I : BlocksInv n s) {a h : Uint256}
    (hah : AncestorOf s.pprev a h) (hh : s.haveNumChainTxs h = true) :
    s.haveNumChainTxs a = true :=
  hah.ascend hh fun k p hp hk => I.linked k p hk hp

/-- **A block counts its transactions when its whole ancestry has data.** -/
theorem BlocksInv.haveNumChainTxs_iff (I : BlocksInv n s) (h : Uint256) :
    s.haveNumChainTxs h = true ↔ ChainHasData s h := by
  constructor
  · intro hh
    exact ⟨isSome_of_haveNumChainTxs hh, fun a hah => I.data a (I.linked_of_ancestor hah hh)⟩
  · rintro ⟨hmem, hdata⟩
    -- induction on the height: a block with data waits only for a parent that has none
    induction hk : s.nHeight h using Nat.strong_induction_on generalizing h with
    | _ k ih =>
      by_contra hno
      obtain ⟨p, hp⟩ := I.waiting h (hdata h (.refl h)) (Bool.not_eq_true _ ▸ hno)
      obtain ⟨hprev, -, hnotx⟩ := I.parked p h hp
      obtain ⟨hpmem, hheight⟩ := parent_of_pprev I.tree hmem hprev
      have htx := ih _ (by omega) p hpmem (fun a hap => hdata a (hap.trans (.parent hprev))) rfl
      rw [htx] at hnotx
      cases hnotx

/-- **All blocks have the genesis block above them**, and nothing is above that. -/
theorem BlocksInv.genesis_above (I : BlocksInv n s) {h : Uint256}
    (hmem : (s.m_block_index h).isSome) : AncestorOf s.pprev n.params.hashGenesisBlock h ∧
      s.pprev n.params.hashGenesisBlock = none := by
  obtain ⟨g, hg⟩ := I.tree.graded.exists_up hmem le_rfl
  obtain ⟨hgmem, hheight⟩ := I.tree.graded.of_up hmem hg
  have hroot : s.pprev g = none := by
    cases hp : s.pprev g with
    | none => rfl
    | some p =>
      have := (I.tree.graded.parent g p hgmem hp).2
      omega
  exact I.genesis g hgmem hroot ▸ ⟨⟨_, hg⟩, hroot⟩

theorem FlagsInv.unflagged_of_ancestor (F : FlagsInv s) {a h : Uint256}
    (hah : AncestorOf s.pprev a h) (hh : s.failed h = false) : s.failed a = false := by
  by_contra hfailed
  rw [F.closed a h hah (Bool.not_eq_false _ ▸ hfailed)] at hh
  cases hh

theorem FlagsInv.of_flags (F : FlagsInv s) (hpprev : s'.pprev = s.pprev)
    (hfailed : s'.failed = s.failed) : FlagsInv s' where
  closed := by
    rw [hpprev, hfailed]
    exact F.closed
  root := by
    rw [hpprev, hfailed]
    exact F.root

theorem FlagsInv.below (F : FlagsInv s) {p : Uint256} (R : Reflags (· = p) s s')
    (hroot : s.pprev p ≠ none) (hbelow : ∀ h, AncestorOf s.pprev p h → s'.failed h = true) :
    FlagsInv s' where
  closed a h hah ha := by
    rw [R.pprev] at hah
    rcases R.new a ha with hold | ⟨q, hqa, rfl⟩
    · exact R.mono h (F.closed a h hah hold)
    · exact hbelow h (hqa.trans hah)
  root h hh := by
    rw [R.pprev] at hh
    by_contra hfailed
    rcases R.new h (Bool.not_eq_false _ ▸ hfailed) with hold | ⟨q, hqh, rfl⟩
    · rw [F.root h hh] at hold
      cases hold
    · obtain rfl := hqh.eq_of_root hh
      exact hroot hh

theorem SameBlocks.chainConnects (S : SameBlocks s s') {h : Uint256} (hh : ChainConnects n s h) :
    ChainConnects n s' h := by
  intro a ha
  rw [S.pprev] at ha
  exact hh a ha

end Invariant

end BitMinti.Analysis
