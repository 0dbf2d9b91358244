import BitMinti.Model.Eviction

/-!
# Who is protected from eviction

Each protection erases the last of a sorted list, and what is in front of those has enough
candidates level with it or better.  A candidate that is among the best of all eligible ones is
among the best of those that a protection still sees.

SOURCE: src/src/node/eviction.cpp:76-240
-/

set_option autoImplicit false

namespace BitMinti.Analysis

open Computation.Sorting Model

/-! ## The comparators -/

theorem strictWeak_compareNetGroupKeyed : StrictWeak compareNetGroupKeyed :=
  strictWeak_key NodeEvictionCandidate.nKeyedNetGroup

theorem strictWeak_reverseCompareNodeMinPingTime : StrictWeak reverseCompareNodeMinPingTime :=
  strictWeak_key fun n : NodeEvictionCandidate => OrderDual.toDual n.m_min_ping_time

theorem strictWeak_reverseCompareNodeTimeConnected : StrictWeak reverseCompareNodeTimeConnected :=
  strictWeak_key fun n : NodeEvictionCandidate => OrderDual.toDual n.m_connected

/-- A flag as a key: where two flags differ, the one that is set is last. -/
theorem eq_decide_lt_of_ne {a b : Bool} (h : a ≠ b) : b = decide (a < b) := by
  revert h
  cases a <;> cases b <;> decide

theorem strictWeak_compareNodeBlockTime : StrictWeak compareNodeBlockTime :=
  (strictWeak_reverseCompareNodeTimeConnected.lex NodeEvictionCandidate.fRelevantServices
    fun _ _ h => eq_decide_lt_of_ne h).lex NodeEvictionCandidate.m_last_block_time fun _ _ _ => rfl

theorem strictWeak_compareNodeTXTime : StrictWeak compareNodeTXTime :=
  ((strictWeak_reverseCompareNodeTimeConnected.lex
    (fun n => OrderDual.toDual n.fBloomFilter) fun _ _ h => eq_decide_lt_of_ne (Ne.symm h)).lex
    NodeEvictionCandidate.m_relay_txs fun _ _ h => eq_decide_lt_of_ne h).lex
    NodeEvictionCandidate.m_last_tx_time fun _ _ _ => rfl

/-! ## Erasing the last -/

section Erase

variable (S : Sorter NodeEvictionCandidate) (elements : List NodeEvictionCandidate)
  (comparator : NodeEvictionCandidate → NodeEvictionCandidate → Bool) (k : ℕ)
  (predicate : NodeEvictionCandidate → Bool)

theorem eraseLastKElements_subperm :
    (eraseLastKElements S elements comparator k predicate).Subperm elements := by
  refine List.Subperm.trans ?_ (S.perm comparator elements).subperm
  unfold eraseLastKElements
  dsimp only
  generalize S.sort comparator elements = sorted
  generalize sorted.length - min k sorted.length = keep
  have hsub : (sorted.take keep ++ (sorted.drop keep).filter fun n => !predicate n).Sublist
      (sorted.take keep ++ sorted.drop keep) :=
    (List.Sublist.refl _).append List.filter_sublist
  rw [List.take_append_drop] at hsub
  exact hsub.subperm

/-- What is erased satisfies the predicate, and is not more than `k`. -/
theorem length_eraseLastKElements :
    elements.length ≤ (eraseLastKElements S elements comparator k predicate).length + k ∧
      elements.countP predicate + (eraseLastKElements S elements comparator k predicate).length =
        (eraseLastKElements S elements comparator k predicate).countP predicate +
          elements.length := by
  have hperm := S.perm comparator elements
  unfold eraseLastKElements
  dsimp only
  rw [← hperm.countP_eq, ← hperm.length_eq]
  generalize S.sort comparator elements = sorted
  generalize hkeep : sorted.length - min k sorted.length = keep
  have hdrop : (sorted.drop keep).length ≤ k := by
    rw [List.length_drop]
    omega
  have hlength : sorted.length = (sorted.take keep).length + (sorted.drop keep).length := by
    rw [← List.length_append, List.take_append_drop]
  have hcount : sorted.countP predicate =
      (sorted.take keep).countP predicate + (sorted.drop keep).countP predicate := by
    rw [← List.countP_append, List.take_append_drop]
  have hparts : (sorted.drop keep).length = (sorted.drop keep).countP predicate +
      ((sorted.drop keep).filter fun n => !predicate n).length := by
    rw [List.countP_eq_length_filter]
    exact List.length_eq_length_filter_add _
  have hrest : ((sorted.drop keep).filter fun n => !predicate n).countP predicate = 0 := by
    rw [List.countP_eq_zero]
    intro n hn
    simpa using (List.mem_filter.mp hn).2
  rw [List.length_append, List.countP_append, hrest]
  omega

theorem length_eraseLastKElements_all :
    (eraseLastKElements S elements comparator k fun _ => true).length =
      elements.length - min k elements.length := by
  unfold eraseLastKElements
  simp only [Bool.not_true, List.filter_false, List.append_nil, List.length_take,
    (S.perm comparator elements).length_eq]
  omega

/-- **Who is not erased** has more than `k` candidates level with it or better, itself among
them. -/
theorem countP_of_mem_eraseLastKElements (h : StrictWeak comparator) {c : NodeEvictionCandidate}
    (hc : c ∈ eraseLastKElements S elements comparator k fun _ => true) :
    k < elements.countP fun n => !comparator n c := by
  have hperm := S.perm comparator elements
  have hsorted := S.sorted comparator elements h
  unfold eraseLastKElements at hc
  simp only [Bool.not_true, List.filter_false, List.append_nil] at hc
  rw [← hperm.countP_eq]
  generalize S.sort comparator elements = sorted at hc hsorted
  have hpos : 0 < sorted.length - min k sorted.length := by
    by_contra hzero
    rw [Nat.eq_zero_of_not_pos hzero, List.take_zero] at hc
    exact List.not_mem_nil hc
  have hlast := countP_of_mem_take h hsorted hc
  rw [List.length_drop] at hlast
  omega

end Erase

/-! ## The ratio -/

section Ratio

variable {S : Sorter NodeEvictionCandidate} {max_protect_by_network : ℕ}

/-- The counts of networks are not below what they have. -/
def CountsCover (networks : List Net) (eviction_candidates : List NodeEvictionCandidate) : Prop :=
  ∀ n ∈ networks, eviction_candidates.countP n.has ≤ n.count

theorem CountsCover.of_subperm {networks : List Net} {v v' : List NodeEvictionCandidate}
    (h : CountsCover networks v) (hsub : v'.Subperm v) : CountsCover networks v' :=
  fun n hn => (hsub.countP_le _).trans (h n hn)

variable (max_protect_by_network) in
/-- What a pass over networks does. -/
structure PassDone (s : RatioState) (r : List Net × RatioState) : Prop where
  sub : r.2.eviction_candidates.Subperm s.eviction_candidates
  total : r.2.num_protected + r.2.eviction_candidates.length =
    s.num_protected + s.eviction_candidates.length
  bound : r.2.num_protected ≤ max_protect_by_network
  counts : CountsCover r.1 r.2.eviction_candidates
  progress : r.2.protected_at_least_one = true →
    s.protected_at_least_one = true ∨ s.num_protected < r.2.num_protected

/-- A network in front of a pass. -/
theorem PassDone.cons {s s' : RatioState} {r : List Net × RatioState} {n : Net}
    (h : PassDone max_protect_by_network s' r)
    (hsub : s'.eviction_candidates.Subperm s.eviction_candidates)
    (htotal : s'.num_protected + s'.eviction_candidates.length =
      s.num_protected + s.eviction_candidates.length)
    (hprogress : s'.protected_at_least_one = true →
      s.protected_at_least_one = true ∨ s.num_protected < s'.num_protected)
    (hn : s'.eviction_candidates.countP n.has ≤ n.count) :
    PassDone max_protect_by_network s (n :: r.1, r.2) where
  sub := h.sub.trans hsub
  total := h.total.trans htotal
  bound := h.bound
  counts := List.forall_mem_cons.mpr ⟨(h.sub.countP_le _).trans hn, h.counts⟩
  progress hone := by
    have hle := hsub.length_le
    obtain hone' | hlt := h.progress hone
    · refine (hprogress hone').imp_right fun hlt => ?_
      have hle' := h.sub.length_le
      have htotal' := h.total
      dsimp only
      omega
    · dsimp only at hlt ⊢
      omega

theorem protectNetworks_done (protect_per_network : ℕ) (networks : List Net) (s : RatioState)
    (hcounts : CountsCover networks s.eviction_candidates)
    (hbound : s.num_protected + networks.countP (fun n => decide (n.count ≠ 0)) *
        protect_per_network ≤ max_protect_by_network ∨
      (protect_per_network = 1 ∧ s.num_protected < max_protect_by_network)) :
    ∃ r, protectNetworks S max_protect_by_network protect_per_network networks s = some r ∧
      PassDone max_protect_by_network s r := by
  induction networks generalizing s with
  | nil =>
    refine ⟨([], s), rfl, .refl _, rfl, ?_, hcounts, .inl⟩
    rw [List.countP_nil, Nat.zero_mul] at hbound
    exact hbound.elim id fun h => h.2.le
  | cons n networks ih =>
    have hn := hcounts n List.mem_cons_self
    have hrest : CountsCover networks s.eviction_candidates :=
      fun n' hn' => hcounts n' (List.mem_cons_of_mem _ hn')
    rw [protectNetworks]
    by_cases hzero : n.count = 0
    · rw [if_pos hzero]
      rw [List.countP_cons_of_neg (by simpa using hzero)] at hbound
      obtain ⟨r, hr, hdone⟩ := ih s hrest hbound
      exact ⟨_, by rw [hr]; rfl, hdone.cons (.refl _) rfl .inl hn⟩
    · rw [if_neg hzero]
      rw [List.countP_cons_of_pos (by simpa using hzero), Nat.add_mul, Nat.one_mul] at hbound
      obtain ⟨hfew, hcount⟩ := length_eraseLastKElements S s.eviction_candidates
        (compareNodeNetworkTime n.is_local n.id) protect_per_network n.has
      have hsub := eraseLastKElements_subperm S s.eviction_candidates
        (compareNodeNetworkTime n.is_local n.id) protect_per_network n.has
      generalize eraseLastKElements S s.eviction_candidates
        (compareNodeNetworkTime n.is_local n.id) protect_per_network n.has = after at *
      have hle := hsub.length_le
      dsimp only
      split_ifs with hless hmax hunder
      · -- The last candidate for the networks: the loop stops here.
        refine ⟨_, rfl, hsub, ?_, ?_, hcounts.of_subperm hsub, fun _ => .inr ?_⟩ <;> dsimp only <;>
          omega
      · omega
      · obtain ⟨r, hr, hdone⟩ := ih ⟨after, s.num_protected + (s.eviction_candidates.length -
          after.length), true⟩ (hrest.of_subperm hsub) (by dsimp only; omega)
        refine ⟨_, by rw [hr]; rfl, hdone.cons hsub ?_ (fun _ => .inr ?_) ?_⟩
        · dsimp only
          omega
        · dsimp only
          omega
        · change after.countP n.has ≤ n.count - _
          omega
      · obtain ⟨r, hr, hdone⟩ := ih { s with eviction_candidates := after }
          (hrest.of_subperm hsub) (by dsimp only; omega)
        refine ⟨_, by rw [hr]; rfl, hdone.cons hsub ?_ .inl ((hsub.countP_le _).trans hn)⟩
        dsimp only
        omega

/-- The share of a network: all shares together fit, unless they are one each. -/
theorem perNetwork_bound {num_protected : ℕ} (num_networks : ℕ)
    (hmore : num_protected < max_protect_by_network) :
    num_protected + num_networks *
          max ((max_protect_by_network - num_protected) / num_networks) 1 ≤
        max_protect_by_network ∨
      (max ((max_protect_by_network - num_protected) / num_networks) 1 = 1 ∧
        num_protected < max_protect_by_network) := by
  have hmul := Nat.mul_div_le (max_protect_by_network - num_protected) num_networks
  by_cases hfew : (max_protect_by_network - num_protected) / num_networks ≤ 1
  · exact .inr ⟨max_eq_right hfew, hmore⟩
  · rw [max_eq_left (Nat.le_of_lt (Nat.lt_of_not_le hfew))]
    exact .inl (by omega)

/-- **The passes** end, and protect no more candidates than they may. -/
theorem protectLoop_done (passes : ℕ) (networks : List Net) (v : List NodeEvictionCandidate)
    (num_protected : ℕ) (hcounts : CountsCover networks v)
    (hnum : num_protected ≤ max_protect_by_network)
    (hpasses : max_protect_by_network < passes + num_protected) :
    ∃ v' num,
      protectLoop S max_protect_by_network passes networks v num_protected = some (v', num) ∧
      v'.Subperm v ∧ num + v'.length = num_protected + v.length ∧
      num ≤ max_protect_by_network := by
  induction passes generalizing networks v num_protected with
  | zero => omega
  | succ passes ih =>
    rw [protectLoop]
    dsimp only
    split_ifs with hmore hnone
    · exact ⟨v, num_protected, rfl, .refl _, rfl, hnum⟩
    · obtain ⟨r, hr, hdone⟩ := protectNetworks_done (S := S) _ networks ⟨v, num_protected, false⟩
        hcounts (perNetwork_bound (networks.countP fun n => decide (n.count ≠ 0)) hmore)
      rw [hr]
      dsimp only
      split_ifs with hone
      · have hlt := (hdone.progress hone).resolve_left Bool.false_ne_true
        dsimp only at hlt
        obtain ⟨v', num, hloop, hsub, htotal, hle⟩ := ih r.1 r.2.eviction_candidates
          r.2.num_protected hdone.counts hdone.bound (by omega)
        exact ⟨v', num, hloop, hsub.trans hdone.sub, htotal.trans hdone.total, hle⟩
      · exact ⟨_, _, rfl, hdone.sub, hdone.total, hdone.bound⟩
    · exact ⟨v, num_protected, rfl, .refl _, rfl, hnum⟩

theorem disadvantagedNetworks_cover (v : List NodeEvictionCandidate) :
    CountsCover (disadvantagedNetworks v) v := by
  intro n hn
  rw [disadvantagedNetworks, List.mem_insertionSort] at hn
  obtain ⟨net, -, rfl⟩ := List.mem_map.mp hn
  exact le_rfl

/-- **Half of the candidates are protected by the ratio**, rounded down. -/
theorem protectEvictionCandidatesByRatio_half (v : List NodeEvictionCandidate) :
    ∃ v', protectEvictionCandidatesByRatio S v = some v' ∧ v'.Subperm v ∧
      v'.length + v.length / 2 = v.length := by
  obtain ⟨v₁, num, hloop, hsub, htotal, hnum⟩ : ∃ v₁ num, protectLoop S (v.length / 2 / 2)
      (v.length / 2 / 2 + 1) (disadvantagedNetworks v) v 0 = some (v₁, num) ∧ v₁.Subperm v ∧
      num + v₁.length = 0 + v.length ∧ num ≤ v.length / 2 / 2 :=
    protectLoop_done _ _ v 0 (disadvantagedNetworks_cover v) (Nat.zero_le _) (Nat.lt_succ_self _)
  rw [Nat.zero_add] at htotal
  unfold protectEvictionCandidatesByRatio
  dsimp only
  rw [hloop]
  dsimp only
  rw [if_neg (not_not.mpr htotal), if_neg (by omega)]
  refine ⟨_, rfl, (eraseLastKElements_subperm S v₁ _ _ _).trans hsub, ?_⟩
  rw [length_eraseLastKElements_all]
  omega

end Ratio

/-! ## The choice -/

section Choice

variable {S : Sorter NodeEvictionCandidate}

/-- The candidates that may be evicted at all. -/
def eligible (v : List NodeEvictionCandidate) : List NodeEvictionCandidate :=
  v.filter fun n => decide (n.m_conn_type = .INBOUND) && !n.m_noban

/-- A candidate that is not strictly among the best by any of the first protections. -/
structure NotAmongBest (v : List NodeEvictionCandidate) (c : NodeEvictionCandidate) : Prop where
  netGroup : 4 < v.countP fun n => !compareNetGroupKeyed n c
  ping : 8 < v.countP fun n => !reverseCompareNodeMinPingTime n c
  tx : 4 < v.countP fun n => !compareNodeTXTime n c
  block : 4 < v.countP fun n => !compareNodeBlockTime n c

theorem protect_eq_eligible (v : List NodeEvictionCandidate) :
    protectOutboundConnections (protectNoBanConnections v) = eligible v := by
  rw [protectOutboundConnections, protectNoBanConnections, eligible, List.filter_filter]

/-- A protection in a row of protections: what is left is a part of the eligible candidates, and
what held of it before still does. -/
theorem protection_best (S : Sorter NodeEvictionCandidate) {v w : List NodeEvictionCandidate}
    {comparator : NodeEvictionCandidate → NodeEvictionCandidate → Bool}
    {P : NodeEvictionCandidate → Prop} (hw : w.Subperm v ∧ ∀ c ∈ w, P c)
    (h : StrictWeak comparator) (k : ℕ) :
    (eraseLastKElements S w comparator k fun _ => true).Subperm v ∧
      ∀ c ∈ eraseLastKElements S w comparator k fun _ => true,
        P c ∧ k < v.countP fun n => !comparator n c := by
  have hsub := eraseLastKElements_subperm S w comparator k fun _ => true
  refine ⟨hsub.trans hw.1, fun c hc => ⟨hw.2 c (hsub.subset hc), ?_⟩⟩
  exact (countP_of_mem_eraseLastKElements S w comparator k h hc).trans_le (hw.1.countP_le _)

theorem unprotected_notAmongBest {v v' : List NodeEvictionCandidate}
    (h : unprotected S v = some v') {c : NodeEvictionCandidate} (hc : c ∈ v') :
    c ∈ eligible v ∧ NotAmongBest (eligible v) c := by
  unfold unprotected at h
  rw [protect_eq_eligible] at h
  dsimp only at h
  have hall : (eligible v).Subperm (eligible v) ∧ ∀ c ∈ eligible v, c ∈ eligible v :=
    ⟨.refl _, fun _ => id⟩
  have htx := protection_best S (protection_best S (protection_best S hall
    strictWeak_compareNetGroupKeyed 4) strictWeak_reverseCompareNodeMinPingTime 8)
    strictWeak_compareNodeTXTime 4
  generalize eraseLastKElements S _ compareNodeTXTime 4 _ = w at h htx
  -- The protection of block relay only peers depends on a predicate.
  have hrelay := eraseLastKElements_subperm S w compareNodeBlockRelayOnlyTime 8
    fun n => !n.m_relay_txs && n.fRelevantServices
  have hblock := protection_best S ⟨hrelay.trans htx.1, fun c hc => htx.2 c (hrelay.subset hc)⟩
    strictWeak_compareNodeBlockTime 4
  generalize eraseLastKElements S _ compareNodeBlockTime 4 _ = w' at h hblock
  obtain ⟨v'', hratio, hsub, -⟩ := protectEvictionCandidatesByRatio_half w'
  rw [h, Option.some.injEq] at hratio
  subst hratio
  obtain ⟨⟨⟨⟨hmem, hnet⟩, hping⟩, htime⟩, hlast⟩ := hblock.2 c (hsub.subset hc)
  exact ⟨hmem, hnet, hping, htime, hlast⟩

theorem mem_of_mem_groups (v : List NodeEvictionCandidate) (s : GroupState) (key : ℕ)
    {c : NodeEvictionCandidate} (hc : c ∈ (v.foldl GroupState.add s).mapNetGroupNodes key) :
    c ∈ s.mapNetGroupNodes key ∨ c ∈ v := by
  induction v generalizing s with
  | nil => exact .inl hc
  | cons node v ih =>
    refine (ih (s.add node) hc).elim (fun hc => ?_) fun hc => .inr (List.mem_cons_of_mem _ hc)
    have hmap : (s.add node).mapNetGroupNodes = Function.update s.mapNetGroupNodes
        node.nKeyedNetGroup (s.mapNetGroupNodes node.nKeyedNetGroup ++ [node]) := by
      unfold GroupState.add
      dsimp only
      split_ifs <;> rfl
    rw [hmap] at hc
    by_cases hkey : key = node.nKeyedNetGroup
    · rw [hkey, Function.update_self, List.mem_append, List.mem_singleton] at hc
      rw [hkey]
      exact hc.imp_right fun heq => List.mem_cons.mpr (.inl heq)
    · rw [Function.update_of_ne hkey] at hc
      exact .inl hc

/-- The chosen candidate is one of those that are grouped. -/
theorem mem_of_largestGroup {v : List NodeEvictionCandidate} {key : ℕ} {id : ℤ}
    (h : ((v.foldl GroupState.add {}).mapNetGroupNodes key).head?.map (·.id) = some id) :
    ∃ c ∈ v, c.id = id := by
  obtain ⟨c, hc, hid⟩ := Option.map_eq_some_iff.mp h
  exact ⟨c, (mem_of_mem_groups v {} key (List.mem_of_mem_head? hc)).resolve_left
    List.not_mem_nil, hid⟩

theorem mem_of_selectNodeToEvict {v : List NodeEvictionCandidate} {id : ℤ}
    (h : selectNodeToEvict S v = some (some id)) :
    ∃ v', unprotected S v = some v' ∧ ∃ c ∈ v', c.id = id := by
  obtain ⟨v', hv', hid⟩ := Option.map_eq_some_iff.mp h
  refine ⟨v', hv', ?_⟩
  split_ifs at hid with hnil hprefer
  · obtain ⟨c, hc, hcid⟩ := mem_of_largestGroup hid
    exact ⟨c, List.mem_of_mem_filter hc, hcid⟩
  · exact mem_of_largestGroup hid

end Choice

/-- **Eviction.**  A peer that is evicted is inbound, may be banned, and is not strictly among the
best of the eligible candidates by any of the four measures.  The ratio protects exactly half of the
candidates, rounded down, and fails for none. -/
theorem selectNodeToEvict_protects (S : Sorter NodeEvictionCandidate)
    (v : List NodeEvictionCandidate) :
    (∀ id, selectNodeToEvict S v = some (some id) → ∃ c ∈ v, c.id = id ∧
      c.m_conn_type = .INBOUND ∧ c.m_noban = false ∧ NotAmongBest (eligible v) c) ∧
    ∃ v', protectEvictionCandidatesByRatio S v = some v' ∧ v'.Subperm v ∧
      v'.length + v.length / 2 = v.length := by
  refine ⟨fun id hid => ?_, protectEvictionCandidatesByRatio_half v⟩
  obtain ⟨v', hv', c, hc, hcid⟩ := mem_of_selectNodeToEvict hid
  obtain ⟨hmem, hbest⟩ := unprotected_notAmongBest hv' hc
  obtain ⟨hv, htest⟩ := List.mem_filter.mp hmem
  rw [Bool.and_eq_true, decide_eq_true_eq, Bool.not_eq_true'] at htest
  exact ⟨c, hv, hcid, htest.1, htest.2, hbest⟩

/-- An inbound peer with given numbers. -/
def inboundPeer (n : ℕ) : NodeEvictionCandidate where
  id := n
  m_connected := n
  m_min_ping_time := n
  m_last_block_time := n
  m_last_tx_time := n
  fRelevantServices := true
  m_relay_txs := true
  fBloomFilter := false
  nKeyedNetGroup := n
  prefer_evict := false
  m_is_local := false
  m_network := .NET_IPV4
  m_noban := false
  m_conn_type := .INBOUND

/-- One of twenty-one peers is evicted. -/
theorem selectNodeToEvict_protects_peers :
    ∃ c ∈ (List.range 21).map inboundPeer, c.id = 8 ∧ c.m_conn_type = .INBOUND ∧
      c.m_noban = false ∧ NotAmongBest (eligible ((List.range 21).map inboundPeer)) c :=
  (selectNodeToEvict_protects (insertionSorter NodeEvictionCandidate)
    ((List.range 21).map inboundPeer)).1 8 (by decide +kernel)

end BitMinti.Analysis
