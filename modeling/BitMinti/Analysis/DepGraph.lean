import BitMinti.Interface.ClusterLinearize

/-!
# Closed dependency graphs

Adding and removing transactions and adding dependencies keep the ancestors and descendants closed.
Assigning a fee changes nothing but the fee.

SOURCE: src/src/cluster_linearize.h:120-196
-/

set_option autoImplicit false

namespace BitMinti.Analysis

open Model Interface Relation

variable {g : DepGraph}

theorem mem_descendants_iff (hg : ConsistentGraph g) {i j : ℕ} (hi : i ∈ g.positions)
    (hj : j ∈ g.positions) : i ∈ g.descendants j ↔ j ∈ g.ancestors i :=
  (hg.converse i hi j hj).symm

/-! ## Entries -/

theorem entry_modifyEntries (g : DepGraph) (s : Finset ℕ) (f : DepGraph.Entry → DepGraph.Entry)
    {i : ℕ} (hi : i < g.positionRange) :
    (g.modifyEntries s f).entry i = if i ∈ s then f (g.entry i) else g.entry i := by
  have hlt : i < g.entries.length := hi
  unfold DepGraph.modifyEntries DepGraph.entry
  rw [List.getD_eq_getElem?_getD, List.getD_eq_getElem?_getD, List.getElem?_mapIdx,
    List.getElem?_eq_getElem hlt]
  simp

theorem positionRange_modifyEntries (g : DepGraph) (s : Finset ℕ)
    (f : DepGraph.Entry → DepGraph.Entry) :
    (g.modifyEntries s f).positionRange = g.positionRange := List.length_mapIdx ..

/-! ## Fees -/

section Fees

variable {i j : ℕ} (feerate : FeeFrac)

end Fees

/-! ## The closure of the dependencies -/

/-- The ancestors are those that the dependencies lead to, and the descendants those they come
from. -/
@[mk_iff] structure ClosedGraph (g : DepGraph) (dep : ℕ → ℕ → Prop) : Prop where
  inRange : ∀ i ∈ g.positions, i < g.positionRange
  used : ∀ i j, dep i j → i ∈ g.positions ∧ j ∈ g.positions
  ancestors : ∀ i ∈ g.positions, ∀ j, j ∈ g.ancestors i ↔ ReflTransGen dep i j
  descendants : ∀ i ∈ g.positions, ∀ j, j ∈ g.descendants i ↔ ReflTransGen dep j i

variable {dep : ℕ → ℕ → Prop}

theorem ClosedGraph.closure_unused (C : ClosedGraph g dep) {i j : ℕ}
    (h : i ∉ g.positions ∨ j ∉ g.positions) : ReflTransGen dep i j ↔ i = j := by
  refine ⟨fun hclosure => ?_, fun heq => heq ▸ .refl⟩
  rcases h with hi | hj
  · exact hclosure.cases_head.resolve_right fun ⟨k, hik, _⟩ => hi (C.used i k hik).1
  · exact (hclosure.cases_tail.resolve_right fun ⟨k, _, hkj⟩ => hj (C.used k j hkj).2).symm

theorem ClosedGraph.consistent (C : ClosedGraph g dep) : ConsistentGraph g := by
  have hused : ∀ i ∈ g.positions, g.ancestors i ⊆ g.positions := by
    intro i hi j hj
    by_contra hnot
    exact hnot ((C.closure_unused (.inr hnot)).1 ((C.ancestors i hi j).1 hj) ▸ hi)
  refine ⟨C.inRange, fun i hi => (C.ancestors i hi i).2 .refl, hused, fun i hi j hj => ?_,
    fun i hi j hj => (C.ancestors i hi j).trans (C.descendants j hj i).symm,
    fun i hi j hj k hk => ?_⟩
  · by_contra hnot
    exact hnot ((C.closure_unused (.inl hnot)).1 ((C.descendants i hi j).1 hj) ▸ hi)
  · have hup := (C.ancestors j (hused i hi hj) k).1 hk
    exact (C.ancestors i hi k).2 (((C.ancestors i hi j).1 hj).trans hup)

theorem reflTransGen_of_trans {r : ℕ → ℕ → Prop} (htrans : ∀ i j k, r i j → r j k → r i k)
    {i j : ℕ} : ReflTransGen r i j ↔ j = i ∨ r i j := by
  have : IsTrans ℕ r := ⟨htrans⟩
  rw [reflTransGen_iff_eq_or_transGen, transGen_eq_self]

/-! ## Building graphs -/

theorem closedGraph_empty : ClosedGraph {} fun _ _ => False := by
  constructor <;> simp [DepGraph.positions]

theorem firstFree_spec (hg : ConsistentGraph g) :
    g.firstFree ∉ g.positions ∧ g.firstFree ≤ g.positionRange := by
  unfold DepGraph.firstFree
  cases hfind : (List.range (g.used.card + 1)).find? fun i => i ∉ g.used with
  | none =>
    have hsub : Finset.range (g.used.card + 1) ⊆ g.used := by
      intro i hi
      simpa using List.find?_eq_none.1 hfind i (List.mem_range.2 (Finset.mem_range.1 hi))
    have hcard := Finset.card_le_card hsub
    rw [Finset.card_range] at hcard
    omega
  | some i =>
    obtain ⟨hnot, -, hbefore⟩ := List.find?_range_eq_some.1 hfind
    refine ⟨of_decide_eq_true hnot, ?_⟩
    by_contra hlate
    have hused := hbefore g.positionRange (not_le.1 hlate)
    exact Nat.lt_irrefl _ (hg.inRange _ (show _ ∈ g.used by simpa using hused))

theorem entry_addTransaction (hg : ConsistentGraph g) (feefrac : FeeFrac) (i : ℕ) :
    (g.addTransaction feefrac).2.entry i =
      if i = g.firstFree then ⟨feefrac, {g.firstFree}, {g.firstFree}⟩ else g.entry i := by
  obtain ⟨-, hle⟩ := firstFree_spec hg
  have hle' : g.firstFree ≤ g.entries.length := hle
  unfold DepGraph.addTransaction DepGraph.entry
  dsimp only
  rw [List.getD_eq_getElem?_getD, List.getD_eq_getElem?_getD]
  split
  next hend =>
    rw [hend, List.getElem?_append]
    by_cases hi : i < g.entries.length
    · rw [if_pos hi, if_neg (Nat.ne_of_lt hi)]
    · rw [if_neg hi]
      by_cases heq : i = g.entries.length
      · rw [if_pos heq, heq, Nat.sub_self]
        rfl
      · rw [if_neg heq, List.getElem?_eq_none (by simp; omega), List.getElem?_eq_none (by omega)]
  next hmid =>
    rw [List.getElem?_set]
    by_cases heq : i = g.firstFree
    · rw [if_pos heq.symm, if_pos (by omega), if_pos heq]
      rfl
    · rw [if_neg (Ne.symm heq), if_neg heq]

theorem positionRange_addTransaction (g : DepGraph) (feefrac : FeeFrac) :
    (g.addTransaction feefrac).2.positionRange =
      if g.firstFree = g.positionRange then g.positionRange + 1 else g.positionRange := by
  unfold DepGraph.addTransaction DepGraph.positionRange
  dsimp only
  split
  · rw [List.length_append, List.length_singleton]
  · rw [List.length_set]

/-- **A new transaction is related to nothing but itself.** -/
theorem ClosedGraph.addTransaction (C : ClosedGraph g dep) (feefrac : FeeFrac) :
    ClosedGraph (g.addTransaction feefrac).2 dep := by
  obtain ⟨hfree, hle⟩ := firstFree_spec C.consistent
  have hentry := entry_addTransaction C.consistent feefrac
  refine ⟨fun i hi => ?_, fun i j h => ?_, fun i hi j => ?_, fun i hi j => ?_⟩
  · rw [positionRange_addTransaction]
    rcases Finset.mem_insert.1 hi with rfl | hi
    · split <;> omega
    · have hlt := C.inRange i hi
      split <;> omega
  · obtain ⟨hi, hj⟩ := C.used i j h
    exact ⟨Finset.mem_insert_of_mem hi, Finset.mem_insert_of_mem hj⟩
  · rw [DepGraph.ancestors, hentry]
    split
    next hnew => rw [hnew, C.closure_unused (.inl hfree), Finset.mem_singleton, eq_comm]
    next hnew => exact C.ancestors i ((Finset.mem_insert.1 hi).resolve_left hnew) j
  · rw [DepGraph.descendants, hentry]
    split
    next hnew => rw [hnew, C.closure_unused (.inr hfree), Finset.mem_singleton]
    next hnew => exact C.descendants i ((Finset.mem_insert.1 hi).resolve_left hnew) j

/-! ## Adding dependencies -/

/-- What `AddDependencies` adds above the child: the ancestors of its new parents. -/
def newAncestors (g : DepGraph) (parents : Finset ℕ) (child : ℕ) : Finset ℕ :=
  ((parents \ g.ancestors child).biUnion g.ancestors) \ g.ancestors child

variable {parents : Finset ℕ} {child : ℕ}

/-- `AddDependencies` adds the new ancestors above the child's descendants, and these
below the new ancestors. -/
theorem addDependencies_spec (hg : ConsistentGraph g) (parents : Finset ℕ)
    (hchild : child ∈ g.positions) {i : ℕ} (hi : i ∈ g.positions) (j : ℕ) :
    (j ∈ (g.addDependencies parents child).ancestors i ↔
        j ∈ g.ancestors i ∨ i ∈ g.descendants child ∧ j ∈ newAncestors g parents child) ∧
      (j ∈ (g.addDependencies parents child).descendants i ↔
        j ∈ g.descendants i ∨ i ∈ newAncestors g parents child ∧ j ∈ g.descendants child) := by
  have hlt := hg.inRange i hi
  have hself : child ∉ newAncestors g parents child := fun hmem =>
    (Finset.mem_sdiff.1 hmem).2 (hg.self_mem child hchild)
  unfold newAncestors at hself ⊢
  unfold DepGraph.addDependencies
  generalize (parents \ g.ancestors child).biUnion g.ancestors \ g.ancestors child = new at hself ⊢
  dsimp only
  split
  next hnone => simp [hnone]
  next hsome =>
    set g' := g.modifyEntries new fun entry =>
      { entry with descendants := entry.descendants ∪ g.descendants child }
    have hentry : ∀ k < g.positionRange, g'.entry k = _ := fun k => entry_modifyEntries g _ _
    have hchl : g'.descendants child = g.descendants child := by
      unfold DepGraph.descendants
      rw [hentry child (hg.inRange child hchild), if_neg hself]
    have hrange : i < g'.positionRange := (positionRange_modifyEntries g _ _).symm ▸ hlt
    rw [hchl]
    unfold DepGraph.ancestors DepGraph.descendants
    rw [entry_modifyEntries g' _ _ hrange, hentry i hlt]
    constructor <;> split <;> split <;> simp [*, DepGraph.descendants]

theorem positionRange_addDependencies (g : DepGraph) (parents : Finset ℕ) (child : ℕ) :
    (g.addDependencies parents child).positionRange = g.positionRange := by
  unfold DepGraph.addDependencies
  dsimp only
  split
  · rfl
  · rw [positionRange_modifyEntries, positionRange_modifyEntries]

theorem positions_addDependencies (g : DepGraph) (parents : Finset ℕ) (child : ℕ) :
    (g.addDependencies parents child).positions = g.positions := by
  unfold DepGraph.addDependencies
  dsimp only
  split <;> rfl

/-- What becomes reachable when steps from `c` are added. -/
theorem reflTransGen_or {r : ℕ → ℕ → Prop} {c : ℕ} {s : Finset ℕ} {i j : ℕ} :
    ReflTransGen (fun a b => r a b ∨ a = c ∧ b ∈ s) i j ↔
      ReflTransGen r i j ∨ ReflTransGen r i c ∧ ∃ b ∈ s, ReflTransGen r b j := by
  have hmono {i j} : ReflTransGen r i j → ReflTransGen (fun a b => r a b ∨ a = c ∧ b ∈ s) i j :=
    ReflTransGen.mono (fun _ _ => Or.inl) i j
  constructor
  · intro h
    induction h with
    | refl => exact .inl .refl
    | tail _ hstep ih =>
      rcases hstep with hr | ⟨rfl, hs⟩
      · exact ih.imp (·.tail hr) fun ⟨hc, b, hb, h⟩ => ⟨hc, b, hb, h.tail hr⟩
      · exact .inr ⟨ih.elim id And.left, _, hs, .refl⟩
  · rintro (h | ⟨hc, b, hb, h⟩)
    · exact hmono h
    · exact ((hmono hc).tail (.inr ⟨rfl, hb⟩)).trans (hmono h)

/-- **Adding dependencies adds what they lead to.** -/
theorem ClosedGraph.addDependencies (C : ClosedGraph g dep)
    (hparents : parents ⊆ g.positions) (hchild : child ∈ g.positions) :
    ClosedGraph (g.addDependencies parents child) fun i j =>
      dep i j ∨ i = child ∧ j ∈ parents := by
  have hspec := fun {i} hi => addDependencies_spec (i := i) C.consistent parents hchild hi
  have hnew : ∀ j, j ∈ newAncestors g parents child ↔
      (∃ b ∈ parents, ReflTransGen dep b j) ∧ ¬ ReflTransGen dep child j := by
    intro j
    simp only [newAncestors, Finset.mem_sdiff, Finset.mem_biUnion, C.ancestors child hchild]
    refine and_congr_left fun hnot => ⟨?_, ?_⟩
    · rintro ⟨b, ⟨hb, -⟩, hj⟩
      exact ⟨b, hb, (C.ancestors b (hparents hb) j).1 hj⟩
    · rintro ⟨b, hb, hj⟩
      exact ⟨b, ⟨hb, fun h => hnot (h.trans hj)⟩, (C.ancestors b (hparents hb) j).2 hj⟩
  have hclosure : ∀ i j, ReflTransGen (fun i j => dep i j ∨ i = child ∧ j ∈ parents) i j ↔
      ReflTransGen dep i j ∨ ReflTransGen dep i child ∧ j ∈ newAncestors g parents child := by
    intro i j
    rw [reflTransGen_or, hnew]
    rw [or_iff_not_imp_left, or_iff_not_imp_left]
    refine forall_congr' fun hnot => and_congr_right fun hi => ?_
    exact (and_iff_left fun h => hnot (hi.trans h)).symm
  rw [closedGraph_iff, positions_addDependencies, positionRange_addDependencies]
  refine ⟨C.inRange, ?_, fun i hi j => ?_, fun i hi j => ?_⟩
  · rintro i j (h | ⟨rfl, hj⟩)
    · exact C.used i j h
    · exact ⟨hchild, hparents hj⟩
  · rw [(hspec hi j).1, hclosure, C.ancestors i hi, C.descendants child hchild]
  · rw [(hspec hi j).2, hclosure, C.descendants i hi, C.descendants child hchild, and_comm]

/-! ## Removing transactions -/

/-- The entries in use are kept.  The induction is on the entries from the last one on. -/
theorem getElem?_popUnused {used : Finset ℕ} (entries : List DepGraph.Entry) {i : ℕ}
    (hi : i ∈ used) : (DepGraph.popUnused used entries)[i]? = entries[i]? := by
  induction entries using List.reverseRecOn with
  | nil => rfl
  | append_singleton entries entry ih =>
    unfold DepGraph.popUnused at ih ⊢
    rw [List.zipIdx_append, List.zipIdx_singleton, List.rdropWhile_concat]
    by_cases hlast : entries.length ∈ used
    · simp [hlast]
    · have hne : i ≠ entries.length := ne_of_mem_of_not_mem hi hlast
      simp only [Nat.zero_add, hlast, not_false_eq_true, decide_true, if_true, ih]
      rcases Nat.lt_or_gt_of_ne hne with hlt | hgt
      · rw [List.getElem?_append_left hlt]
      · rw [List.getElem?_eq_none hgt.le, List.getElem?_eq_none (by rwa [List.length_append])]

/-- `RemoveTransactions` takes what is removed out of the relations. -/
theorem removeTransactions_spec (g : DepGraph) (del : Finset ℕ) {i : ℕ}
    (hi : i ∈ (g.removeTransactions del).positions) :
    (g.removeTransactions del).ancestors i =
        g.ancestors i ∩ (g.removeTransactions del).positions ∧
      (g.removeTransactions del).descendants i =
        g.descendants i ∩ (g.removeTransactions del).positions := by
  have hkept := getElem?_popUnused g.entries hi
  unfold DepGraph.ancestors DepGraph.descendants DepGraph.entry
  simp only [List.getD_eq_getElem?_getD, ← hkept]
  unfold DepGraph.removeTransactions DepGraph.positions
  rw [List.getElem?_map]
  cases (DepGraph.popUnused (g.used \ del) g.entries)[i]? <;> simp

/-- **Removing transactions keeps what leads from one to another of those that are left.** -/
theorem ClosedGraph.removeTransactions (C : ClosedGraph g dep) (del : Finset ℕ) :
    ClosedGraph (g.removeTransactions del) fun i j =>
      ReflTransGen dep i j ∧ i ∈ g.positions \ del ∧ j ∈ g.positions \ del := by
  have hclosure : ∀ {i j}, i ∈ g.positions \ del ∨ j ∈ g.positions \ del →
      (ReflTransGen (fun i j => ReflTransGen dep i j ∧ i ∈ g.positions \ del ∧
        j ∈ g.positions \ del) i j ↔
        ReflTransGen dep i j ∧ i ∈ g.positions \ del ∧ j ∈ g.positions \ del) := by
    intro i j h
    rw [reflTransGen_of_trans fun i j k hij hjk => ⟨hij.1.trans hjk.1, hij.2.1, hjk.2.2⟩]
    refine or_iff_right_of_imp fun heq => ?_
    subst heq
    exact ⟨.refl, or_self_iff.1 h, or_self_iff.1 h⟩
  have hsub : (g.removeTransactions del).positions ⊆ g.positions := Finset.sdiff_subset
  refine ⟨fun i hi => ?_, fun i j h => h.2, fun i hi j => ?_, fun i hi j => ?_⟩
  · have hkept := getElem?_popUnused g.entries hi
    rw [List.getElem?_eq_getElem (C.inRange i (hsub hi))] at hkept
    exact (List.getElem?_eq_some_iff.1 hkept).1.trans_eq (List.length_map _).symm
  · rw [(removeTransactions_spec g del hi).1, Finset.mem_inter, C.ancestors i (hsub hi),
      hclosure (.inl hi)]
    exact and_congr_right fun _ => (and_iff_right hi).symm
  · rw [(removeTransactions_spec g del hi).2, Finset.mem_inter, C.descendants i (hsub hi),
      hclosure (.inr hi)]
    exact and_congr_right fun _ => (and_iff_left hi).symm

end BitMinti.Analysis
