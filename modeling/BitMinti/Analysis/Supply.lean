import BitMinti.Analysis.Utxo
import Mathlib.Algebra.Order.BigOperators.Group.Finset

/-!
# No inflation

Every transaction but the coinbase takes at least as much out of the UTXO set as it puts in,
the difference is added to the fees, and the coinbase puts in no more than the fees and the
subsidy.  So a block adds no more than its subsidy to the set (`connectBlock_wp`), and the
subsidies of all heights together stay within `MAX_MONEY` (`sum_subsidy_le`).  The same walk
through the code shows that no addition of amounts overflows.
-/

set_option autoImplicit false

namespace BitMinti.Analysis

open Model Interface Computation.StateExcept

/-! ## The subsidies -/

/-- The subsidy of the halving period `k`. -/
def periodSubsidy (k : ℕ) : ℕ := if k ≥ 64 then 0 else 5000000000 / 2 ^ k

theorem subsidy_eq (h : ℕ) :
    getBlockSubsidy h mainParams = (periodSubsidy (h / 210000) : ℤ) := by
  have hinterval : mainParams.nSubsidyHalvingInterval = 210000 := rfl
  simp only [getBlockSubsidy, hinterval, periodSubsidy]
  by_cases hk : h / 210000 ≥ 64
  · rw [if_pos hk, if_pos hk]
    rfl
  · rw [if_neg hk, if_neg hk, Int.shiftRight_eq_div_pow]
    norm_num [COIN]

theorem subsidy_nonneg (h : ℕ) : 0 ≤ getBlockSubsidy h mainParams := by
  rw [subsidy_eq]
  exact Int.natCast_nonneg _

theorem two_mul_periodSubsidy_le (k : ℕ) : 2 * periodSubsidy (k + 1) ≤ periodSubsidy k := by
  unfold periodSubsidy
  by_cases hlast : k + 1 ≥ 64
  · rw [if_pos hlast]
    omega
  · rw [if_neg hlast, if_neg (by omega), pow_succ, ← Nat.div_div_eq_div_mul]
    omega

/-- The most that is still to be paid out before height `h`: what is left of its halving
period, and one more period of the same subsidy for all that follow. -/
def remaining (h : ℕ) : ℤ :=
  (210000 - (h % 210000 : ℕ)) * getBlockSubsidy h mainParams +
    210000 * getBlockSubsidy h mainParams

theorem subsidy_add_remaining_le (h : ℕ) :
    getBlockSubsidy h mainParams + remaining (h + 1) ≤ remaining h := by
  unfold remaining
  by_cases hlast : (h + 1) % 210000 = 0
  · -- the first block of a halving period
    have hdiv : (h + 1) / 210000 = h / 210000 + 1 := by omega
    have hmod : h % 210000 = 209999 := by omega
    have hhalf : 2 * getBlockSubsidy (h + 1) mainParams ≤ getBlockSubsidy h mainParams := by
      rw [subsidy_eq, subsidy_eq, hdiv]
      exact_mod_cast two_mul_periodSubsidy_le (h / 210000)
    rw [hlast, hmod]
    push_cast
    linarith
  · have hdiv : (h + 1) / 210000 = h / 210000 := by omega
    have hmod : (h + 1) % 210000 = h % 210000 + 1 := by omega
    have hsame : getBlockSubsidy (h + 1) mainParams = getBlockSubsidy h mainParams := by
      rw [subsidy_eq, subsidy_eq, hdiv]
    rw [hsame, hmod]
    push_cast
    linarith

theorem remaining_nonneg (h : ℕ) : 0 ≤ remaining h := by
  have hs := subsidy_nonneg h
  have hm : h % 210000 < 210000 := Nat.mod_lt _ (by omega)
  unfold remaining
  have hleft : (0 : ℤ) ≤ 210000 - (h % 210000 : ℕ) := by omega
  exact add_nonneg (mul_nonneg hleft hs) (mul_nonneg (by omega) hs)

/-- **All subsidies together stay within `MAX_MONEY`.** -/
theorem sum_subsidy_le (H : ℕ) :
    ∑ h ∈ Finset.Icc 1 H, getBlockSubsidy h mainParams ≤ MAX_MONEY := by
  have hrun : ∀ n, ∑ h ∈ Finset.range n, getBlockSubsidy h mainParams + remaining n ≤
      remaining 0 := by
    intro n
    induction n with
    | zero => simp
    | succ n ih =>
      rw [Finset.sum_range_succ]
      have := subsidy_add_remaining_le n
      linarith
  have hsub : Finset.Icc 1 H ⊆ Finset.range (H + 1) := by
    intro h hh
    rw [Finset.mem_Icc] at hh
    exact Finset.mem_range.mpr (by omega)
  have hle := Finset.sum_le_sum_of_subset_of_nonneg hsub fun h _ _ => subsidy_nonneg h
  have hmax : remaining 0 = MAX_MONEY := by decide
  have := hrun (H + 1)
  have := remaining_nonneg (H + 1)
  linarith

/-! ## Reading the set -/

section Spec

variable {cached : UtxoSet → COutPoint → Bool} {u : UtxoSet} {ctx : ConnectContext}

/-- All values are within the money range. -/
def Sane (u : UtxoSet) : Prop := ∀ o coin, u.coin o = some coin → moneyRange coin.out.nValue = true

/-- What some inputs are worth. -/
def sumIn (u : UtxoSet) (vin : List CTxIn) : CAmount :=
  (vin.map fun txin => valueAt u txin.prevout).sum

theorem sumIn_cons (u : UtxoSet) (txin : CTxIn) (vin : List CTxIn) :
    sumIn u (txin :: vin) = valueAt u txin.prevout + sumIn u vin := by
  simp [sumIn]

/-- The inputs are there. -/
def Present (u : UtxoSet) (vin : List CTxIn) : Prop :=
  ∀ txin ∈ vin, (u.coin txin.prevout).isSome = true

variable {E : ValidationFault → Prop}

theorem haveInputsLoop_wp (vin : List CTxIn) :
    wp E (haveInputsLoop (UtxoSet.ops cached) vin) (fun _ u' => u' = u) u := by
  induction vin with
  | nil => simp [haveInputsLoop]
  | cons txin vin ih =>
    simp only [haveInputsLoop, wp_bind, wp_haveCoin]
    split
    · exact ih
    · simp

theorem accessInputs_wp (vin : List CTxIn) :
    wp E (accessInputs (UtxoSet.ops cached) vin) (fun _ u' => u' = u) u := by
  induction vin with
  | nil => simp [accessInputs]
  | cons txin vin ih =>
    simp only [accessInputs, wp_bind, wp_accessCoin]
    exact wp_mono ih fun coins u' hu => by simp [hu]

/-- **The value of the inputs** is added up without an overflow. -/
theorem valueInLoop_wp (S : Sane u) (nSpendHeight : ℕ) (vin : List CTxIn) {n : CAmount}
    (hn : moneyRange n = true) :
    wp NoOverflow (valueInLoop (UtxoSet.ops cached) nSpendHeight vin n)
      (fun r u' => u' = u ∧ ∀ m, r = .ok m →
        m = n + sumIn u vin ∧ moneyRange m = true ∧ Present u vin) u := by
  induction vin generalizing n with
  | nil => simp [valueInLoop, sumIn, hn, Present]
  | cons txin vin ih =>
    simp only [valueInLoop, wp_bind, wp_accessCoin, wp_assert]
    cases hcoin : u.coin txin.prevout with
    | none => simp [NoOverflow]
    | some coin =>
      have hv := S _ _ hcoin
      simp only [Option.getD_some]
      split
      · split
        · simp
        · simp only [wp_bind, wp_ofExcept, toAmount_add hn hv, ends_ok, hv, Bool.not_true,
            Bool.false_or]
          split
          · simp
          · rename_i hsum
            rw [Bool.not_eq_true', Bool.not_eq_false] at hsum
            refine wp_mono (ih hsum) fun r u' h => ⟨h.1, fun m hm => ?_⟩
            obtain ⟨heq, hrange, hpresent⟩ := h.2 m hm
            have hat : valueAt u txin.prevout = coin.out.nValue := by simp [valueAt, hcoin]
            exact ⟨by rw [heq, sumIn_cons, hat, add_assoc], hrange,
              List.forall_mem_cons.mpr ⟨by simp [hcoin], hpresent⟩⟩
      · simp [NoOverflow]

/-- **`CheckTxInputs`**: the fee is what the inputs are worth more than the outputs. -/
theorem checkTxInputs_wp (S : Sane u) (tx : CTransaction) (nSpendHeight : ℕ) :
    wp NoOverflow (checkTxInputs (UtxoSet.ops cached) tx nSpendHeight)
      (fun r u' => u' = u ∧ ∀ fee, r = .ok fee →
        sumIn u tx.vin = sumOut tx.vout + fee ∧ moneyRange fee = true ∧ Present u tx.vin) u := by
  have hhave : wp NoOverflow (haveInputs (UtxoSet.ops cached) tx) (fun _ u' => u' = u) u := by
    simp only [haveInputs]
    split
    · simp
    · exact haveInputsLoop_wp tx.vin
  simp only [checkTxInputs, wp_bind]
  refine wp_mono hhave fun b u' hu => ?_
  subst hu
  split
  · simp only [wp_bind]
    refine wp_mono (valueInLoop_wp S nSpendHeight tx.vin (n := 0) rfl) fun r u' h => ?_
    obtain ⟨rfl, hr⟩ := h
    cases r with
    | error i => simp
    | ok nValueIn =>
      obtain ⟨hin, hrange, hpresent⟩ := hr nValueIn rfl
      simp only [wp_bind, wp_ofExcept]
      refine ends_mono (getValueOut_ends tx) fun value_out hout => ?_
      obtain ⟨rfl, hout⟩ := hout
      split
      · simp
      · rename_i hge
        rw [moneyRange_iff, max_money_eq] at hrange hout
        have hfee : toAmount (nValueIn - sumOut tx.vout) = .ok (nValueIn - sumOut tx.vout) :=
          toAmount_of_range ⟨by linarith [hrange.1, hout.2], by linarith [hrange.2, hout.1]⟩
        simp only [wp_bind, wp_ofExcept, hfee, ends_ok]
        split
        · simp
        · rename_i hmoney
          rw [Bool.not_eq_true', Bool.not_eq_false] at hmoney
          simp only [wp_pure, true_and]
          rintro fee ⟨⟩
          refine ⟨?_, hmoney, hpresent⟩
          rw [zero_add] at hin
          rw [hin]
          ring
  · simp

/-! ## Changing the set -/

/-- **The inputs taken out** of the set, with what they were worth. -/
theorem spendInputs_wp (vin : List CTxIn) (hdistinct : (vin.map (·.prevout)).Nodup) :
    wp NoOverflow (spendInputs (UtxoSet.ops cached) vin)
      (fun _ u' => (∀ o, u'.coin o = if o ∈ vin.map (·.prevout) then none else u.coin o) ∧
        u'.totalValue + sumIn u vin = u.totalValue) u := by
  induction vin generalizing u with
  | nil => simp [spendInputs, sumIn]
  | cons txin vin ih =>
    rw [List.map_cons, List.nodup_cons] at hdistinct
    simp only [spendInputs, wp_bind, wp_spendCoin]
    cases hcoin : u.coin txin.prevout with
    | none => simp [NoOverflow]
    | some coin =>
      -- the other inputs are not touched by this one
      have hsum : sumIn (u.erase txin.prevout) vin = sumIn u vin := by
        refine congrArg List.sum (List.map_congr_left fun t ht => valueAt_erase_of_ne fun heq => ?_)
        exact hdistinct.1 (heq ▸ List.mem_map_of_mem ht)
      simp only [wp_bind, wp_pure]
      refine wp_mono (ih hdistinct.2) fun coins u' h => ?_
      obtain ⟨hmap, htotal⟩ := h
      refine ⟨fun o => ?_, ?_⟩
      · rw [hmap, coin_erase, List.map_cons]
        by_cases ho : o = txin.prevout
        · subst ho
          simp
        · simp [ho]
      · have herase := totalValue_erase u txin.prevout
        rw [hsum] at htotal
        rw [sumIn_cons]
        linarith

theorem Sane.of_coin {u' : UtxoSet} (S : Sane u)
    (h : ∀ o coin, u'.coin o = some coin → u.coin o = some coin) : Sane u' :=
  fun o coin hc => S o coin (h o coin hc)

theorem Sane.valueAt_nonneg (S : Sane u) (o : COutPoint) : 0 ≤ valueAt u o := by
  cases h : u.coin o with
  | none => simp [valueAt, h]
  | some coin => simpa [valueAt, h] using (moneyRange_iff.mp (S o coin h)).1

/-- **The outputs put into the set** add no more than their value. -/
theorem addCoinsLoop_wp (S : Sane u) (txid : Uint256) (nHeight : ℕ) (fCoinbase : Bool) (i : ℕ)
    {vout : List CTxOut} (hvalue : ∀ txout ∈ vout, moneyRange txout.nValue = true) :
    wp NoOverflow (addCoinsLoop (UtxoSet.ops cached) txid nHeight fCoinbase i vout)
      (fun _ u' => Sane u' ∧ u'.totalValue ≤ u.totalValue + sumOut vout) u := by
  induction vout generalizing u i with
  | nil => simp [addCoinsLoop, sumOut, S]
  | cons txout vout ih =>
    have hv := hvalue txout (by simp)
    have hpos := (moneyRange_iff.mp hv).1
    have hrest := fun t ht => hvalue t (List.mem_cons_of_mem _ ht)
    simp only [addCoinsLoop, wp_bind]
    refine wp_addCoin fCoinbase (fun e => by simp [NoOverflow]) (fun _ => ?_) fun _ _ _ => ?_
    · refine wp_mono (ih S (i + 1) hrest) fun _ u' h => ⟨h.1, ?_⟩
      rw [sumOut_cons]
      linarith [h.2]
    · have hinsert := totalValue_insert u ⟨txid, BitVec.ofNat 32 i⟩
        { out := txout, fCoinBase := fCoinbase, nHeight := BitVec.ofNat 31 nHeight }
      have hold := S.valueAt_nonneg ⟨txid, BitVec.ofNat 32 i⟩
      have S' : Sane (u.insert ⟨txid, BitVec.ofNat 32 i⟩
          { out := txout, fCoinBase := fCoinbase, nHeight := BitVec.ofNat 31 nHeight }) := by
        intro o coin hc
        rw [coin_insert] at hc
        by_cases ho : o = ⟨txid, BitVec.ofNat 32 i⟩
        · subst ho
          rw [Function.update_self, Option.some_inj] at hc
          exact hc ▸ hv
        · rw [Function.update_of_ne ho] at hc
          exact S o coin hc
      refine wp_mono (ih S' (i + 1) hrest) fun _ u' h => ⟨h.1, ?_⟩
      rw [sumOut_cons]
      simp only at hinsert
      linarith [h.2]

/-- What a transaction takes out of the set: nothing for the coinbase. -/
def takenOut (u : UtxoSet) (tx : CTransaction) : CAmount :=
  if tx.isCoinBase then 0 else sumIn u tx.vin

/-- **`UpdateCoins`** takes the inputs out and puts the outputs in. -/
theorem updateCoins_wp (S : Sane u) {tx : CTransaction} (C : TxChecked tx) (nHeight : ℕ) :
    wp NoOverflow (updateCoins (UtxoSet.ops cached) ctx tx nHeight)
      (fun _ u' => Sane u' ∧ u'.totalValue + takenOut u tx ≤ u.totalValue + sumOut tx.vout) u := by
  simp only [updateCoins, wp_bind]
  have hspend : wp NoOverflow (spendTxInputs (UtxoSet.ops cached) tx)
      (fun _ u' => Sane u' ∧ u'.totalValue + takenOut u tx = u.totalValue) u := by
    unfold takenOut spendTxInputs
    split
    · simp [S]
    · refine wp_mono (spendInputs_wp tx.vin C.inputs) fun coins u' h => ?_
      refine ⟨S.of_coin fun o coin hc => ?_, h.2⟩
      rw [h.1] at hc
      split at hc
      · cases hc
      · exact hc
  refine wp_mono hspend fun coins u₁ h₁ => ?_
  refine wp_mono (addCoinsLoop_wp h₁.1 _ nHeight tx.isCoinBase 0 C.value) fun _ u₂ h₂ => ?_
  exact ⟨h₂.1, by linarith [h₂.2, h₁.2]⟩

/-! ## The loop of `ConnectBlock` -/

/-- What the loop knows of the fees even when it stops at an invalid transaction. -/
def FeesBounded (st : ConnectState) : Prop := 0 ≤ st.nFees ∧ st.nFees ≤ 2 * MAX_MONEY

variable {st : ConnectState}

theorem feesBounded_of_range (h : moneyRange st.nFees = true) :
    FeesBounded st := by
  rw [moneyRange_iff, max_money_eq] at h
  exact ⟨h.1, by rw [max_money_eq]; linarith [h.2]⟩

/-- **The fee of a transaction** is added to the fees of the block. -/
theorem connectInputs_wp (S : Sane u) (pindex : CBlockIndex) (tx : CTransaction)
    (hfees : moneyRange st.nFees = true) :
    wp NoOverflow (connectInputs (UtxoSet.ops cached) ctx pindex tx st)
      (fun st' u' => u' = u ∧ FeesBounded st' ∧ (st'.state = none →
        st'.nFees + sumOut tx.vout = st.nFees + sumIn u tx.vin ∧ moneyRange st'.nFees = true ∧
          Present u tx.vin)) u := by
  simp only [connectInputs, wp_bind]
  refine wp_mono (checkTxInputs_wp S tx pindex.nHeight) fun r u' h => ?_
  obtain ⟨rfl, hr⟩ := h
  cases r with
  | error i => exact ⟨rfl, feesBounded_of_range hfees, by simp [ConnectState.invalid]⟩
  | ok txfee =>
    obtain ⟨hin, hfee, hpresent⟩ := hr txfee rfl
    have hbound : FeesBounded { st with nFees := st.nFees + txfee } := by
      rw [moneyRange_iff, max_money_eq] at hfees hfee
      exact ⟨by simp only; linarith, by simp only [max_money_eq]; linarith⟩
    simp only [wp_bind, wp_ofExcept, toAmount_add hfees hfee, ends_ok]
    split
    · exact ⟨rfl, hbound, by simp [ConnectState.invalid]⟩
    · rename_i hmoney
      rw [Bool.not_eq_true', Bool.not_eq_false] at hmoney
      simp only [wp_bind]
      refine wp_mono (accessInputs_wp tx.vin) fun coins u' hu => ?_
      subst hu
      split
      · exact ⟨rfl, hbound, by simp [ConnectState.invalid]⟩
      · refine ⟨rfl, hbound, fun _ => ⟨?_, hmoney, hpresent⟩⟩
        simp only
        linarith

/-- What a transaction brings into circulation besides what it has taken out. -/
def minted (tx : CTransaction) : CAmount := if tx.isCoinBase then sumOut tx.vout else 0

theorem connectTxInputs_wp (S : Sane u) (pindex : CBlockIndex) (tx : CTransaction)
    (hfees : moneyRange st.nFees = true) :
    wp NoOverflow (connectTxInputs (UtxoSet.ops cached) ctx pindex tx st)
      (fun st' u' => u' = u ∧ FeesBounded st' ∧ (st'.state = none →
        st'.nFees + sumOut tx.vout = st.nFees + takenOut u tx + minted tx ∧
          moneyRange st'.nFees = true)) u := by
  unfold connectTxInputs takenOut minted
  split
  · exact ⟨rfl, feesBounded_of_range hfees, fun _ => ⟨by linarith, hfees⟩⟩
  · refine wp_mono (connectInputs_wp S pindex tx hfees) fun st' u' h => ⟨h.1, h.2.1, fun hst => ?_⟩
    obtain ⟨hsum, hmoney, -⟩ := h.2.2 hst
    exact ⟨by linarith, hmoney⟩

theorem accessTxInputs_wp (tx : CTransaction) :
    wp E (accessTxInputs (UtxoSet.ops cached) tx) (fun _ u' => u' = u) u := by
  unfold accessTxInputs
  split
  · rfl
  · exact accessInputs_wp tx.vin

/-- **One pass of the loop** keeps the value of the set and the fees together, up to
what the coinbase mints. -/
theorem connectTx_wp (S : Sane u) (pindex : CBlockIndex) (i : ℕ) {tx : CTransaction}
    (C : TxChecked tx) (hfees : moneyRange st.nFees = true) :
    wp NoOverflow (connectTx (UtxoSet.ops cached) ctx pindex i tx st)
      (fun st' u' => FeesBounded st' ∧ (st'.state = none → Sane u' ∧ moneyRange st'.nFees = true ∧
        u'.totalValue + st'.nFees ≤ u.totalValue + st.nFees + minted tx)) u := by
  simp only [connectTx, wp_bind]
  refine wp_mono (connectTxInputs_wp S pindex tx hfees) fun st₁ u₁ h₁ => ?_
  obtain ⟨rfl, hbound, hst₁⟩ := h₁
  split
  · rename_i hsome
    exact ⟨hbound, fun hnone => by simp [hnone] at hsome⟩
  · rename_i hnone
    have hnone' : st₁.state = none := by simpa using hnone
    obtain ⟨hsum, hmoney⟩ := hst₁ hnone'
    simp only [wp_bind]
    refine wp_mono (accessTxInputs_wp tx) fun coins u₂ h₂ => ?_
    subst h₂
    split
    · exact ⟨hbound, by simp [ConnectState.invalid]⟩
    · split
      · exact ⟨hbound, by simp [ConnectState.invalid]⟩
      · simp only [wp_bind, wp_pure]
        refine wp_mono (updateCoins_wp S C pindex.nHeight) fun undo u₃ h₃ => ?_
        have hresult : FeesBounded st₁ ∧ (st₁.state = none → Sane u₃ ∧
            moneyRange st₁.nFees = true ∧
            u₃.totalValue + st₁.nFees ≤ u₂.totalValue + st.nFees + minted tx) :=
          ⟨hbound, fun _ => ⟨h₃.1, hmoney, by linarith [h₃.2]⟩⟩
        split
        · exact hresult
        · exact hresult

theorem connectTxs_of_invalid {V : Type} (ops : CoinsViewOps V) (pindex : CBlockIndex) (i : ℕ)
    (txs : List CTransaction) {inv : Invalid} (hst : st.state = some inv) :
    connectTxs ops ctx pindex i txs st = pure st := by
  cases txs with
  | nil => rfl
  | cons tx txs => simp [connectTxs, hst]

/-- **The whole loop**, by induction over the transactions. -/
theorem connectTxs_wp (S : Sane u) (pindex : CBlockIndex) (i : ℕ) {txs : List CTransaction}
    (C : ∀ tx ∈ txs, TxChecked tx) (hfees : moneyRange st.nFees = true) :
    wp NoOverflow (connectTxs (UtxoSet.ops cached) ctx pindex i txs st)
      (fun st' u' => FeesBounded st' ∧ (st'.state = none → Sane u' ∧
        u'.totalValue + st'.nFees ≤ u.totalValue + st.nFees + (txs.map minted).sum)) u := by
  induction txs generalizing u i st with
  | nil => simp [connectTxs, S, feesBounded_of_range hfees]
  | cons tx txs ih =>
    simp only [connectTxs]
    split
    · rename_i hsome
      exact ⟨feesBounded_of_range hfees, fun hnone => by simp [hnone] at hsome⟩
    · simp only [wp_bind]
      refine wp_mono (connectTx_wp S pindex i (C tx (by simp)) hfees) fun st₁ u₁ h₁ => ?_
      cases hst : st₁.state with
      | some inv =>
        rw [connectTxs_of_invalid _ pindex (i + 1) txs hst]
        exact ⟨h₁.1, by simp [hst]⟩
      | none =>
        obtain ⟨S₁, hmoney, htotal⟩ := h₁.2 hst
        refine wp_mono (ih S₁ (i + 1) (fun t ht => C t (List.mem_cons_of_mem _ ht)) hmoney)
          fun st' u' h => ⟨h.1, fun hnone => ?_⟩
        obtain ⟨S', hrest⟩ := h.2 hnone
        refine ⟨S', ?_⟩
        rw [List.map_cons, List.sum_cons]
        linarith

/-! ## `ConnectBlock` -/

theorem subsidy_bounds (nHeight : ℕ) (params : ConsensusParams) :
    0 ≤ getBlockSubsidy nHeight params ∧ getBlockSubsidy nHeight params ≤ 5000000000 := by
  simp only [getBlockSubsidy]
  split
  · exact ⟨le_refl _, by norm_num⟩
  · rw [Int.shiftRight_eq_div_pow]
    have hcoin : 50 * COIN = 5000000000 := rfl
    rw [hcoin]
    exact ⟨Int.ediv_nonneg (by norm_num) (by positivity),
      Int.ediv_le_self _ (by norm_num)⟩

theorem checkBIP30_wp (outs : List COutPoint) (st : ConnectState) :
    wp E (checkBIP30 (UtxoSet.ops cached) outs st)
      (fun st' u' => u' = u ∧ st'.nFees = st.nFees) u := by
  induction outs generalizing st with
  | nil => simp [checkBIP30]
  | cons o outs ih =>
    simp only [checkBIP30, wp_bind, wp_haveCoin]
    split
    · exact ih _
    · exact ih st

theorem checkReward_state {coinbase reward : CAmount}
    (h : (st.checkReward coinbase reward).state = none) :
    st.state = none ∧ coinbase ≤ reward ∧ st.checkReward coinbase reward = st := by
  unfold ConnectState.checkReward at h ⊢
  split at h
  · simp [ConnectState.invalid] at h
  · rename_i hok
    rw [if_neg hok]
    exact ⟨h, not_lt.mp fun hgt => hok ⟨hgt, h⟩, rfl⟩

variable {block : CBlock}

theorem completeScripts_state {pindex : CBlockIndex}
    (h : (st.completeScripts ctx block pindex).state = none) :
    st.completeScripts ctx block pindex = st := by
  unfold ConnectState.completeScripts at h ⊢
  split at h
  · rename_i hthreads
    rw [if_pos hthreads]
    split at h
    · simp [ConnectState.invalid] at h
    · rfl
  · rename_i hthreads
    rw [if_neg hthreads]

/-- **After the loop**: a connected block had a valid state, and its coinbase pays
out no more than the fees and the subsidy. -/
theorem finishConnect_wp {cb : CTransaction} {rest : List CTransaction}
    (hvtx : block.vtx = cb :: rest) (pindex : CBlockIndex) (fJustCheck : Bool)
    (hfees : FeesBounded st) :
    wp NoOverflow (finishConnect (UtxoSet.ops cached) ctx block pindex fJustCheck st)
      (fun r u' => u'.coins = u.coins ∧ ∀ undo entry, r = .connected undo entry →
        st.state = none ∧
        sumOut cb.vout ≤ st.nFees + getBlockSubsidy pindex.nHeight ctx.params ∧
        (fJustCheck = false → u'.bestBlock = pindex.phashBlock)) u := by
  have hsub := subsidy_bounds pindex.nHeight ctx.params
  have hreward : toAmount (st.nFees + getBlockSubsidy pindex.nHeight ctx.params) =
      .ok (st.nFees + getBlockSubsidy pindex.nHeight ctx.params) := by
    rw [FeesBounded, max_money_eq] at hfees
    exact toAmount_of_range ⟨by linarith [hfees.1], by linarith [hfees.2]⟩
  simp only [finishConnect, wp_bind, wp_ofExcept, hreward, ends_ok, hvtx, List.head?_cons,
    Option.elim_some]
  refine ends_mono (getValueOut_ends cb) fun coinbase hcb => ?_
  obtain ⟨rfl, -⟩ := hcb
  split
  · exact ⟨rfl, by simp⟩
  · rename_i hnone
    have hscripts := completeScripts_state hnone
    rw [hscripts] at hnone ⊢
    obtain ⟨hst, hpaid, hsame⟩ := checkReward_state hnone
    rw [hsame]
    split
    · rename_i hjust
      refine ⟨rfl, ?_⟩
      rintro undo entry ⟨⟩
      exact ⟨hst, hpaid, fun hj => by simp [hj] at hjust⟩
    · split
      · exact ⟨rfl, by rintro undo entry ⟨⟩⟩
      · simp only [wp_bind, wp_setBestBlock, wp_pure]
        refine ⟨trivial, ?_⟩
        rintro undo entry ⟨⟩
        exact ⟨hst, hpaid, fun _ => rfl⟩

theorem startConnect_wp (block : CBlock) (pindex pprev : CBlockIndex) :
    wp E (startConnect (UtxoSet.ops cached) ctx block pindex pprev)
      (fun st u' => u' = u ∧ st.nFees = 0) u := by
  unfold startConnect
  split
  · exact checkBIP30_wp _ {}
  · exact ⟨rfl, rfl⟩

theorem sum_minted {cb : CTransaction} {rest : List CTransaction} (hcb : cb.isCoinBase = true)
    (hrest : ∀ tx ∈ rest, tx.isCoinBase = false) :
    ((cb :: rest).map minted).sum = sumOut cb.vout := by
  have hzero : (rest.map minted).sum = 0 :=
    List.sum_eq_zero fun n hn => by
      obtain ⟨tx, htx, rfl⟩ := List.mem_map.mp hn
      simp [minted, hrest tx htx]
  rw [List.map_cons, List.sum_cons, hzero, minted, if_pos hcb, add_zero]

theorem connectTransactions_wp (S : Sane u) (B : BlockChecked block)
    (pindex : CBlockIndex) (fJustCheck : Bool) :
    wp NoOverflow (connectTransactions (UtxoSet.ops cached) ctx block pindex fJustCheck)
      (fun r u' => ∀ undo entry, r = .connected undo entry →
        Sane u' ∧ (fJustCheck = false → u'.bestBlock = pindex.phashBlock) ∧
        (ctx.m_block_index.pprev pindex).isSome = true ∧
        u'.totalValue ≤ u.totalValue + getBlockSubsidy pindex.nHeight ctx.params) u := by
  obtain ⟨htxs, cb, rest, hvtx, hcb, hrest⟩ := B
  unfold connectTransactions
  split
  · simp [NoOverflow]
  · rename_i pprev hpprev
    simp only [wp_bind]
    refine wp_mono (startConnect_wp block pindex pprev) fun st u₁ h₁ => ?_
    obtain ⟨rfl, hfees⟩ := h₁
    have hrange : moneyRange st.nFees = true := by
      rw [hfees]
      rfl
    refine wp_mono (connectTxs_wp S pindex 0 htxs hrange) fun st₂ u₂ h₂ => ?_
    refine wp_mono (finishConnect_wp hvtx pindex fJustCheck h₂.1) fun r u₃ h₃ undo entry hr => ?_
    obtain ⟨hst, hpaid, hbest⟩ := h₃.2 undo entry hr
    obtain ⟨S₂, htotal⟩ := h₂.2 hst
    have hsame : u₃.totalValue = u₂.totalValue := by simp only [UtxoSet.totalValue, h₃.1]
    rw [hfees, hvtx, sum_minted hcb hrest] at htotal
    refine ⟨S₂.of_coin fun o coin hc => ?_, hbest, by simp [hpprev], by linarith⟩
    rwa [UtxoSet.coin, h₃.1] at hc

/-- **`ConnectBlock`** adds no more to the set than the subsidy, and never overflows. -/
theorem connectBlock_wp (S : Sane u) (block : CBlock) (pindex : CBlockIndex) (fJustCheck : Bool) :
    wp NoOverflow (connectBlock (UtxoSet.ops cached) ctx block pindex fJustCheck)
      (fun r u' => ∀ undo entry, r = .connected undo entry →
        Sane u' ∧ (fJustCheck = false → u'.bestBlock = pindex.phashBlock) ∧
        (u'.coins = u.coins ∨ (ctx.m_block_index.pprev pindex).isSome = true ∧
          u'.totalValue ≤ u.totalValue + getBlockSubsidy pindex.nHeight ctx.params)) u := by
  simp only [connectBlock, wp_bind, wp_assert]
  split
  · simp only [wp_ofExcept]
    refine ends_mono (checkBlock_ends ctx block (!fJustCheck)) fun r hr => ?_
    cases r with
    | error i =>
      simp only
      split
      · simp
      · simp
    | ok x =>
      simp only [wp_bind, wp_getBestBlock, wp_assert]
      split
      · split
        · split
          · rename_i hjust
            rintro undo entry -
            exact ⟨S, fun hj => by simp [hj] at hjust, .inl rfl⟩
          · rintro undo entry -
            exact ⟨S, fun _ => rfl, .inl rfl⟩
        · refine wp_mono (connectTransactions_wp S (hr x rfl) pindex fJustCheck)
            fun r u' h undo entry hr => ?_
          obtain ⟨S', hbest, hpprev, htotal⟩ := h undo entry hr
          exact ⟨S', hbest, .inr ⟨hpprev, htotal⟩⟩
      · simp [NoOverflow]
  · simp [NoOverflow]

/-! ## Chains of blocks -/

theorem sane_empty : Sane {} := fun o coin h => by cases h

theorem Connected.supply (T : TreeInv ctx.m_block_index) (hparams : ctx.params = mainParams)
    {tip : CBlockIndex} (h : Interface.Connected ctx cached tip u) :
    Sane u ∧ ctx.m_block_index tip.phashBlock = some tip ∧ u.bestBlock = tip.phashBlock ∧
      u.totalValue ≤ ∑ h ∈ Finset.Icc 1 tip.nHeight, getBlockSubsidy h mainParams := by
  induction h with
  | @genesis block pindex entry undo u hmem hroot hconnect =>
    obtain ⟨S, hbest, hvalue⟩ := wp_ok (connectBlock_wp sane_empty block pindex false) hconnect
      undo entry rfl
    refine ⟨S, hmem, hbest rfl, ?_⟩
    rcases hvalue with hcoins | ⟨hprev, -⟩
    · rw [T.root hmem hroot]
      simp [UtxoSet.totalValue, hcoins, BitMinti.Computation.AssocList.total]
    · simp [BlockMap.pprev, hroot] at hprev
  | @next tip v u block pindex entry undo hv hmem hprev hconnect ih =>
    obtain ⟨Sv, htip, -, hvalue⟩ := ih
    obtain ⟨S, hbest, hstep⟩ := wp_ok (connectBlock_wp Sv block pindex false) hconnect
      undo entry rfl
    obtain ⟨ep, hep, hheight⟩ := T.parent hmem hprev
    rw [htip, Option.some_inj] at hep
    subst hep
    refine ⟨S, hmem, hbest rfl, ?_⟩
    rw [hheight, Finset.sum_Icc_succ_top (by omega)]
    have hnonneg := subsidy_nonneg (tip.nHeight + 1)
    rcases hstep with hcoins | ⟨-, htotal⟩
    · have hsame : u.totalValue = v.totalValue := by simp only [UtxoSet.totalValue, hcoins]
      linarith
    · rw [hparams, hheight] at htotal
      linarith

end Spec

/-- **No inflation.**  However the blocks of a chain are chosen, the UTXO set that
`ConnectBlock` leaves at height `H` is worth no more than the subsidies of the heights `1` to
`H`, these never exceed `MAX_MONEY`, and no block that is offered on the way makes an addition
of amounts overflow. -/
theorem utxo_value_le_subsidies (ctx : ConnectContext) (cached : UtxoSet → COutPoint → Bool)
    (T : TreeInv ctx.m_block_index) (hparams : ctx.params = mainParams) :
    (∀ tip u, Interface.Connected ctx cached tip u →
      u.totalValue ≤ ∑ h ∈ Finset.Icc 1 tip.nHeight, getBlockSubsidy h mainParams) ∧
    (∀ H, ∑ h ∈ Finset.Icc 1 H, getBlockSubsidy h mainParams ≤ MAX_MONEY) ∧
    ∀ u, (u = {} ∨ ∃ tip, Interface.Connected ctx cached tip u) → ∀ block pindex fJustCheck,
      connectBlock (UtxoSet.ops cached) ctx block pindex fJustCheck u ≠ .error .overflow := by
  refine ⟨fun tip u h => (Connected.supply T hparams h).2.2.2, sum_subsidy_le, ?_⟩
  intro u hu block pindex fJustCheck hover
  have S : Sane u := by
    rcases hu with rfl | ⟨tip, h⟩
    · exact sane_empty
    · exact (Connected.supply T hparams h).1
  exact wp_error (connectBlock_wp S block pindex fJustCheck) hover rfl

/-! ## A chain of two blocks -/

/-- The index entry of a genesis block. -/
def rootEntry : CBlockIndex where
  phashBlock := mainParams.hashGenesisBlock
  nVersion := 1
  hashMerkleRoot := 0#256
  nTime := 0#32
  nBits := 0#32
  nNonce := 0#32

/-- The index entry of a first block on top of it. -/
def firstEntry : CBlockIndex where
  phashBlock := 1#256
  pprev := some mainParams.hashGenesisBlock
  pskip := some mainParams.hashGenesisBlock
  nHeight := 1
  nVersion := 1
  hashMerkleRoot := 0#256
  nTime := 0#32
  nBits := 0#32
  nNonce := 1#32

/-- A context in which the two entries make up the index and every check outside the amounts
passes; blocks are hashed to their nonce, transactions to their lock time. -/
def firstContext : ConnectContext where
  getHash block := if block.nNonce = 0#32 then mainParams.hashGenesisBlock
    else BitVec.setWidth 256 block.nNonce
  getTxHash tx := BitVec.setWidth 256 tx.nLockTime
  params := mainParams
  m_block_index := (BlockMap.insert (fun _ => none) rootEntry.phashBlock rootEntry).insert
    firstEntry.phashBlock firstEntry
  checkMerkleRoot _ := .ok ()
  getLegacySigOpCount _ := 0
  getTransactionSigOpCost _ _ _ := 0
  sequenceLocks _ _ _ _ := true
  fScriptChecks _ := true
  hasThreads := false
  checkInputScripts _ _ _ := .ok ()
  completeScripts _ _ := .ok ()
  writeBlockUndo _ _ := .ok ()

/-- A coinbase that pays the first subsidy to one output. -/
def firstCoinbase : CTransaction where
  vin := [{ prevout := ⟨0#256, BitVec.allOnes 32⟩, scriptSig := [1#8, 1#8] }]
  vout := [{ nValue := 5000000000, scriptPubKey := [0x51#8] }]
  version := 1#32
  nLockTime := 7#32

/-- A block that holds only the coinbase. -/
def coinbaseBlock (nNonce : BitVec 32) : CBlock where
  nVersion := 1
  hashPrevBlock := 0#256
  hashMerkleRoot := 0#256
  nTime := 0#32
  nBits := 0#32
  nNonce := nNonce
  vtx := [firstCoinbase]

theorem firstContext_treeInv : TreeInv firstContext.m_block_index := by
  have T := TreeInv.empty.insert (h := rootEntry.phashBlock) (e := rootEntry) rfl rfl
    (.inl ⟨rfl, rfl, rfl⟩)
  refine T.insert ?_ rfl (.inr ⟨mainParams.hashGenesisBlock, rootEntry, rfl, ?_, rfl, ?_⟩)
  · decide
  · exact BlockMap.insert_self _ _ _
  · rfl

theorem exists_connected_first : ∃ u,
    Interface.Connected firstContext (fun _ _ => true) firstEntry u ∧ u.totalValue = 5000000000 := by
  have hroot : Interface.Connected firstContext (fun _ _ => true) rootEntry
      { bestBlock := mainParams.hashGenesisBlock } :=
    @Interface.Connected.genesis _ _ (coinbaseBlock 0#32) _ _ _ _ rfl rfl rfl
  exact ⟨_, @Interface.Connected.next _ _ _ _ _ (coinbaseBlock 1#32) _ _ _ hroot rfl rfl rfl, rfl⟩

theorem utxo_value_le_subsidies_first : ∃ u,
    Interface.Connected firstContext (fun _ _ => true) firstEntry u ∧ u.totalValue = 5000000000 ∧
    u.totalValue ≤ ∑ h ∈ Finset.Icc 1 1, getBlockSubsidy h mainParams := by
  obtain ⟨u, hu, htotal⟩ := exists_connected_first
  have h := utxo_value_le_subsidies firstContext (fun _ _ => true) firstContext_treeInv rfl
  exact ⟨u, hu, htotal, h.1 firstEntry u hu⟩

end BitMinti.Analysis
