import BitMinti.Model.LastCommonAncestor
import BitMinti.Analysis.BlockIndex

/-!
# `LastCommonAncestor` finds the fork of two blocks

Two blocks of the same height go down together, by their skip ancestors while these differ and by
their parents where they agree.  Nothing that they have in common is left out on the way.
-/

set_option autoImplicit false

namespace BitMinti.Model

open Computation.Ancestry

section Ancestor

variable {m : BlockMap} {a b c g : Uint256} {e ea eb : CBlockIndex}

theorem TreeInv.getAncestor_of_ancestor (T : TreeInv m) (hea : m a = some ea)
    (heb : m b = some eb) (h : AncestorOf m.prev b a) : getAncestor m ea eb.nHeight = some eb := by
  obtain ⟨-, hle, hup⟩ := T.graded.up_of_ancestor (by simp [hea]) h
  rw [BlockMap.height_of hea, BlockMap.height_of heb] at hle hup
  obtain ⟨c, ec, hc, hec, -, hget⟩ := T.getAncestor_eq hea hle
  rw [hup, Option.some_inj] at hc
  rw [← hc, heb, Option.some_inj] at hec
  rw [hget, hec]

theorem TreeInv.parent_skip (T : TreeInv m) (he : m e.phashBlock = some e) (hpos : 0 < e.nHeight) :
    (∃ ep, m.pprev e = some ep ∧ m ep.phashBlock = some ep ∧ ep.nHeight + 1 = e.nHeight ∧
      AncestorOf m.prev ep.phashBlock e.phashBlock) ∧
    ∃ es, e.pskip = some es.phashBlock ∧ m es.phashBlock = some es ∧
      es.nHeight = getSkipHeight e.nHeight ∧ AncestorOf m.prev es.phashBlock e.phashBlock := by
  cases hp : e.pprev with
  | none =>
    have hzero := T.root he hp
    omega
  | some p =>
    obtain ⟨ep, hep, hheight⟩ := T.parent he hp
    have hkey := T.key p ep hep
    refine ⟨⟨ep, by simp [BlockMap.pprev, hp, hep], hkey ▸ hep, hheight.symm, .parent ?_⟩, ?_⟩
    · rw [BlockMap.prev_of he, hp, hkey]
    · have hlt := getSkipHeight_lt hpos
      obtain ⟨s, es, hs, hes, hs'⟩ := T.exists_up he
        (show e.nHeight - getSkipHeight e.nHeight ≤ e.nHeight by omega)
      have hskey := T.key s es hes
      refine ⟨es, ?_, hskey ▸ hes, by omega, _, hskey ▸ hs⟩
      rw [T.skip _ e he, hp, Option.bind_some, hs, hskey]

/-- Two ancestors of the same height, one of each block, below which nothing common is left
out. -/
structure Narrowed (m : BlockMap) (a b : Uint256) (ea eb : CBlockIndex) : Prop where
  left : m ea.phashBlock = some ea
  right : m eb.phashBlock = some eb
  above_left : AncestorOf m.prev ea.phashBlock a
  above_right : AncestorOf m.prev eb.phashBlock b
  height : ea.nHeight = eb.nHeight
  low : ∀ c, AncestorOf m.prev c a → AncestorOf m.prev c b → m.height c ≤ ea.nHeight

/-- **The loop of `LastCommonAncestor`**, for two blocks over the same root. -/
theorem TreeInv.lastCommonAncestorLoop_eq (T : TreeInv m) (fuel : ℕ) (ha : (m a).isSome)
    (hb : (m b).isSome) (hga : AncestorOf m.prev g a) (hgb : AncestorOf m.prev g b)
    (N : Narrowed m a b ea eb) (hfuel : ea.nHeight ≤ fuel) :
    ∃ ef, lastCommonAncestorLoop m fuel ea eb = some ef ∧ m ef.phashBlock = some ef ∧
      LastCommon m.prev a b ef.phashBlock := by
  induction fuel using Nat.strong_induction_on generalizing ea eb with
  | _ fuel ih =>
  have hra := BlockMap.height_of N.left
  have hrb := BlockMap.height_of N.right
  have hheight := N.height
  by_cases heq : ea.phashBlock = eb.phashBlock
  · refine ⟨ea, by rw [lastCommonAncestorLoop.eq_def, if_pos heq], N.left, ?_⟩
    exact T.graded.lastCommon_of_rank_le ha N.above_left (heq ▸ N.above_right) (hra ▸ N.low)
  -- two different blocks of the same height have only lower ones in common
  have hapart : ∀ c, AncestorOf m.prev c a → AncestorOf m.prev c b → m.height c < ea.nHeight :=
    fun c hca hcb => hra ▸
      T.graded.rank_lt_of_ne ha hb N.above_left N.above_right (by omega) heq hca hcb
  have hpos := Nat.zero_lt_of_lt (hapart g hga hgb)
  obtain ⟨⟨pa, hpa, hmpa, hhpa, hapa⟩, sa, hsa, hmsa, hhsa, hasa⟩ := T.parent_skip N.left hpos
  obtain ⟨⟨pb, hpb, hmpb, hhpb, hapb⟩, sb, hsb, hmsb, hhsb, hasb⟩ :=
    T.parent_skip N.right (hheight ▸ hpos)
  obtain ⟨fuel, rfl⟩ : ∃ n, fuel = n + 1 := ⟨fuel - 1, by omega⟩
  rw [lastCommonAncestorLoop.eq_def, if_neg heq]
  by_cases hskip : ea.pskip = eb.pskip
  · simp only [ne_eq, hskip, not_true_eq_false, if_false, hpa, hpb]
    refine ih fuel (by omega) ⟨hmpa, hmpb, hapa.trans N.above_left, hapb.trans N.above_right,
      by omega, fun c hca hcb => ?_⟩ (by omega)
    have hlow := hapart c hca hcb
    omega
  · simp only [if_pos (show ea.pskip ≠ eb.pskip from hskip)]
    simp only [hsa, hsb, Option.bind_some, hmsa, hmsb]
    have hlt := getSkipHeight_lt hpos
    have hsame : sa.nHeight = sb.nHeight := by rw [hhsa, hhsb, hheight]
    have hup := hasa.trans N.above_left
    have hup' := hasb.trans N.above_right
    refine ih fuel (by omega) ⟨hmsa, hmsb, hup, hup', hsame, fun c hca hcb => ?_⟩ (by omega)
    have hrsa := BlockMap.height_of hmsa
    have hrsb := BlockMap.height_of hmsb
    have hne : sa.phashBlock ≠ sb.phashBlock := fun h => hskip (by rw [hsa, hsb, h])
    have hlow := T.graded.rank_lt_of_ne ha hb hup hup' (by omega) hne hca hcb
    omega

theorem TreeInv.rewind (T : TreeInv m) (hea : m ea.phashBlock = some ea) (n : ℕ) :
    ∃ ea', (if ea.nHeight > n then getAncestor m ea n else some ea) = some ea' ∧
      m ea'.phashBlock = some ea' ∧ AncestorOf m.prev ea'.phashBlock ea.phashBlock ∧
      ea'.nHeight = min ea.nHeight n := by
  by_cases hgt : ea.nHeight > n
  · obtain ⟨a, ea', hup, hmem, hheight, hget⟩ := T.getAncestor_eq hea hgt.le
    have hkey := T.key a ea' hmem
    refine ⟨ea', by rw [if_pos hgt, hget], hkey ▸ hmem, ⟨_, hkey ▸ hup⟩, by omega⟩
  · exact ⟨ea, if_neg hgt, hea, .refl _, by omega⟩

/-- **`LastCommonAncestor`** finds the last block that two blocks over the same root
have in common. -/
theorem TreeInv.lastCommonAncestor_eq (T : TreeInv m) (hea : m ea.phashBlock = some ea)
    (heb : m eb.phashBlock = some eb) (hga : AncestorOf m.prev g ea.phashBlock)
    (hgb : AncestorOf m.prev g eb.phashBlock) :
    ∃ ef, lastCommonAncestor m ea eb = some ef ∧ m ef.phashBlock = some ef ∧
      LastCommon m.prev ea.phashBlock eb.phashBlock ef.phashBlock := by
  have hda : (m ea.phashBlock).isSome := by simp [hea]
  have hdb : (m eb.phashBlock).isSome := by simp [heb]
  have hra := BlockMap.height_of hea
  have hrb := BlockMap.height_of heb
  obtain ⟨ea', hif, hea', haa, hheight⟩ := T.rewind hea eb.nHeight
  obtain ⟨eb', hif', heb', hbb, hheight'⟩ := T.rewind heb ea.nHeight
  have hlow : ∀ c, AncestorOf m.prev c ea.phashBlock → AncestorOf m.prev c eb.phashBlock →
      m.height c ≤ ea'.nHeight := by
    intro c hca hcb
    have hleA := (T.graded.up_of_ancestor hda hca).2.1
    have hleB := (T.graded.up_of_ancestor hdb hcb).2.1
    omega
  obtain ⟨ef, hef, hmem, hlast⟩ := T.lastCommonAncestorLoop_eq ea'.nHeight hda hdb hga hgb
    ⟨hea', heb', haa, hbb, by omega, hlow⟩ le_rfl
  refine ⟨ef, ?_, hmem, hlast⟩
  simp only [lastCommonAncestor, hif, hif', hef]

end Ancestor

end BitMinti.Model
