import BitMinti.Interface.Utxo
import BitMinti.Computation.StateExcept
import BitMinti.Analysis.BlockIndex

/-!
# The UTXO set under the coins calls

Lookups and the total value after one call, the weakest preconditions of the calls, and what a
block that passes `CheckBlock` is known to satisfy.
-/

set_option autoImplicit false

namespace BitMinti.Analysis

open Model Interface Computation.AssocList Computation.StateExcept

variable {cached : UtxoSet → COutPoint → Bool} {u : UtxoSet} {o : COutPoint} {coin : Coin}

/-! ## Lookups and sums -/

@[simp] theorem coin_insert (u : UtxoSet) (o : COutPoint) (coin : Coin) :
    (u.insert o coin).coin = Function.update u.coin o (some coin) := by
  funext p
  by_cases hp : p = o
  · subst hp
    simp [UtxoSet.coin, UtxoSet.insert]
  · simp [UtxoSet.coin, UtxoSet.insert, hp, AList.lookup_insert_ne hp]

@[simp] theorem coin_erase (u : UtxoSet) (o : COutPoint) :
    (u.erase o).coin = Function.update u.coin o none := by
  funext p
  by_cases hp : p = o
  · subst hp
    simp [UtxoSet.coin, UtxoSet.erase]
  · simp [UtxoSet.coin, UtxoSet.erase, hp, AList.lookup_erase_ne hp]

/-- The value at an outpoint. -/
def valueAt (u : UtxoSet) (o : COutPoint) : CAmount := (u.coin o).elim 0 (·.out.nValue)

theorem totalValue_insert (u : UtxoSet) (o : COutPoint) (coin : Coin) :
    (u.insert o coin).totalValue + valueAt u o = u.totalValue + coin.out.nValue :=
  total_insert _ o coin u.coins

theorem totalValue_erase (u : UtxoSet) (o : COutPoint) :
    (u.erase o).totalValue + valueAt u o = u.totalValue :=
  total_erase _ o u.coins

theorem valueAt_erase_of_ne {p : COutPoint} (hp : p ≠ o) : valueAt (u.erase o) p = valueAt u p := by
  simp [valueAt, hp]

/-! ## The calls -/

section Calls

variable {E : ValidationFault → Prop} {α : Type}

@[simp] theorem wp_haveCoin {Q : Bool → UtxoSet → Prop} :
    wp E (ViewM.haveCoin (UtxoSet.ops cached) o) Q u ↔ Q (u.coin o).isSome u := Iff.rfl

@[simp] theorem wp_accessCoin {Q : Coin → UtxoSet → Prop} :
    wp E (ViewM.accessCoin (UtxoSet.ops cached) o) Q u ↔ Q ((u.coin o).getD coinEmpty) u := Iff.rfl

@[simp] theorem wp_spendCoin {Q : Option Coin → UtxoSet → Prop} :
    wp E (ViewM.spendCoin (UtxoSet.ops cached) o) Q u ↔ Q (u.coin o) (u.erase o) := Iff.rfl

@[simp] theorem wp_getBestBlock {Q : Uint256 → UtxoSet → Prop} :
    wp E (ViewM.getBestBlock (UtxoSet.ops cached)) Q u ↔ Q u.bestBlock u := Iff.rfl

@[simp] theorem wp_setBestBlock (hash : Uint256) {Q : Unit → UtxoSet → Prop} :
    wp E (ViewM.setBestBlock (UtxoSet.ops cached) hash) Q u ↔
      Q () { u with bestBlock := hash } := Iff.rfl

@[simp] theorem wp_assert {V : Type} {v : V} (b : Bool) {Q : Unit → V → Prop} :
    wp E (ViewM.assert b) Q v ↔ if b then Q () v else E .assertion := by
  cases b <;> rfl

@[simp] theorem wp_ofExcept {V : Type} {v : V} (x : Except ValidationFault α) {Q : α → V → Prop} :
    wp E (ViewM.ofExcept x) Q v ↔ Ends E x fun a => Q a v := by
  cases x <;> rfl

theorem wp_addCoin (possible_overwrite : Bool) {Q : Unit → UtxoSet → Prop}
    (hE : ∀ e, E (.coins e)) (hskip : coin.out.scriptPubKey.isUnspendable = true → Q () u)
    (hadd : coin.isSpent = false → coin.out.scriptPubKey.isUnspendable = false →
      (possible_overwrite = false → (u.coin o).isSome = true → cached u o = false) →
      Q () (u.insert o coin)) :
    wp E (ViewM.addCoin (UtxoSet.ops cached) o coin possible_overwrite) Q u := by
  unfold wp
  simp only [ViewM.addCoin, UtxoSet.ops, UtxoSet.addCoin]
  cases hspent : coin.isSpent with
  | true => exact hE _
  | false =>
    cases hscript : coin.out.scriptPubKey.isUnspendable with
    | true => exact hskip hscript
    | false =>
      simp only [Bool.false_eq_true, if_false]
      by_cases hnoticed : (!possible_overwrite && (u.coin o).isSome && cached u o) = true
      · rw [if_pos hnoticed]
        exact hE _
      · rw [if_neg hnoticed]
        refine hadd hspent hscript fun hp hs => ?_
        simpa [hp, hs] using hnoticed

end Calls

/-! ## Amounts -/

theorem toAmount_of_range {n : ℤ} (h : -2 ^ 63 ≤ n ∧ n < 2 ^ 63) : toAmount n = .ok n := if_pos h

theorem moneyRange_iff {n : CAmount} : moneyRange n = true ↔ 0 ≤ n ∧ n ≤ MAX_MONEY := by
  simp [moneyRange]

theorem not_spent_of_moneyRange {coin : Coin} (h : moneyRange coin.out.nValue = true) :
    coin.isSpent = false := by
  have hv := (moneyRange_iff.mp h).1
  have hne : coin.out.nValue ≠ -1 := by
    intro heq
    rw [heq] at hv
    exact absurd hv (by decide)
  simp [Coin.isSpent, CTxOut.isNull, hne]

theorem max_money_eq : MAX_MONEY = 2100000000000000 := rfl

theorem toAmount_add {a b : CAmount} (ha : moneyRange a = true) (hb : moneyRange b = true) :
    toAmount (a + b) = .ok (a + b) := by
  rw [moneyRange_iff, max_money_eq] at ha hb
  exact toAmount_of_range ⟨by linarith, by linarith⟩

/-- What the outputs of a transaction add up to. -/
def sumOut (vout : List CTxOut) : CAmount := (vout.map (·.nValue)).sum

theorem sumOut_cons (txout : CTxOut) (vout : List CTxOut) :
    sumOut (txout :: vout) = txout.nValue + sumOut vout := by
  simp [sumOut]

/-- Any way to end but an overflow. -/
def NoOverflow (e : ValidationFault) : Prop := e ≠ .overflow

/-- **`GetValueOut`** adds the outputs up, without an overflow. -/
theorem valueOutLoop_ends (vout : List CTxOut) {n : CAmount} (hn : moneyRange n = true) :
    Ends NoOverflow (valueOutLoop vout n) fun m => m = n + sumOut vout ∧ moneyRange m = true := by
  induction vout generalizing n with
  | nil => simp [valueOutLoop, sumOut, hn]
  | cons txout vout ih =>
    simp only [valueOutLoop]
    split
    · simp [NoOverflow]
    · rename_i hv
      rw [Bool.not_eq_true', Bool.not_eq_false] at hv
      simp only [toAmount_add hn hv, ends_bind, ends_ok]
      split
      · simp [NoOverflow]
      · rename_i hsum
        rw [Bool.not_eq_true', Bool.not_eq_false] at hsum
        rw [sumOut_cons, ← add_assoc]
        exact ih hsum

theorem getValueOut_ends (tx : CTransaction) :
    Ends NoOverflow tx.getValueOut fun m => m = sumOut tx.vout ∧ moneyRange m = true := by
  have hloop := valueOutLoop_ends tx.vout (n := 0) rfl
  simp only [CTransaction.getValueOut, ends_bind]
  refine ends_mono hloop fun m hm => ?_
  rw [zero_add] at hm
  rw [if_pos hm.2]
  exact hm

/-! ## Blocks that pass `CheckBlock` -/

/-- What `CheckTransaction` makes sure of. -/
structure TxChecked (tx : CTransaction) : Prop where
  value : ∀ txout ∈ tx.vout, moneyRange txout.nValue = true
  inputs : (tx.vin.map (·.prevout)).Nodup
  outputs : tx.vout.length < 2 ^ 32

theorem checkOutputs_ends (vout : List CTxOut) {n : CAmount} (hn : moneyRange n = true) :
    Ends NoOverflow (checkOutputs vout n) fun r =>
      ∀ x, r = .ok x → ∀ txout ∈ vout, moneyRange txout.nValue = true := by
  induction vout generalizing n with
  | nil => simp [checkOutputs]
  | cons txout vout ih =>
    simp only [checkOutputs]
    split
    · simp
    rename_i hneg
    split
    · simp
    rename_i hbig
    have hv : moneyRange txout.nValue = true :=
      moneyRange_iff.mpr ⟨not_lt.mp hneg, not_lt.mp hbig⟩
    simp only [toAmount_add hn hv, ends_bind, ends_ok]
    split
    · simp
    rename_i hsum
    rw [Bool.not_eq_true', Bool.not_eq_false] at hsum
    exact ends_mono (ih hsum) fun r hr x hx => List.forall_mem_cons.mpr ⟨hv, hr x hx⟩

theorem length_mul_le_sum {α : Type} (k : ℕ) (f : α → ℕ) (l : List α) (h : ∀ a ∈ l, k ≤ f a) :
    k * l.length ≤ (l.map f).sum := by
  induction l with
  | nil => simp
  | cons a l ih =>
    have ha := h a (by simp)
    have := ih fun b hb => h b (List.mem_cons_of_mem _ hb)
    rw [List.length_cons, List.map_cons, List.sum_cons, Nat.mul_add, Nat.mul_one]
    omega

theorem outputs_le_serializeSize (tx : CTransaction) : 8 * tx.vout.length ≤ tx.serializeSize := by
  have := length_mul_le_sum 8 (fun txout => 8 + CScript.serializeSize txout.scriptPubKey) tx.vout
    (fun _ _ => by omega)
  unfold CTransaction.serializeSize
  omega

/-- **`CheckTransaction`** never overflows, and a transaction that passes is well
formed. -/
theorem checkTransaction_ends (tx : CTransaction) :
    Ends NoOverflow (checkTransaction tx) fun r => ∀ x, r = .ok x → TxChecked tx := by
  simp only [checkTransaction]
  split
  · simp
  split
  · simp
  split
  · simp
  rename_i hsize
  simp only [ends_bind]
  refine ends_mono (checkOutputs_ends tx.vout (n := 0) rfl) fun r hr => ?_
  cases r with
  | error i => simp
  | ok x =>
    have hlen := outputs_le_serializeSize tx
    simp only [ends_ok, checkInputs]
    by_cases hdup : (tx.vin.map (·.prevout)).Nodup
    · intro _ _
      refine ⟨hr x rfl, hdup, ?_⟩
      simp only [WITNESS_SCALE_FACTOR, MAX_BLOCK_WEIGHT] at hsize
      omega
    · simp [hdup]

theorem checkTransactions_ends (ctx : ConnectContext) (vtx : List CTransaction) :
    Ends NoOverflow (checkTransactions ctx vtx) fun r =>
      ∀ x, r = .ok x → ∀ tx ∈ vtx, TxChecked tx := by
  induction vtx with
  | nil => simp [checkTransactions]
  | cons tx vtx ih =>
    simp only [checkTransactions, ends_bind]
    refine ends_mono (checkTransaction_ends tx) fun r hr => ?_
    cases r with
    | error i => simp
    | ok x =>
      exact ends_mono ih fun r' hr' y hy => List.forall_mem_cons.mpr ⟨hr x rfl, hr' y hy⟩

/-- What `CheckBlock` makes sure of. -/
structure BlockChecked (block : CBlock) : Prop where
  txs : ∀ tx ∈ block.vtx, TxChecked tx
  coinbase : ∃ cb rest, block.vtx = cb :: rest ∧ cb.isCoinBase = true ∧
    ∀ tx ∈ rest, tx.isCoinBase = false

/-- **`CheckBlock`** never overflows, and a block that passes is well formed. -/
theorem checkBlock_ends (ctx : ConnectContext) (block : CBlock) (fCheckMerkleRoot : Bool) :
    Ends NoOverflow (checkBlock ctx block fCheckMerkleRoot) fun r =>
      ∀ x, r = .ok x → BlockChecked block := by
  simp only [checkBlock, checkBlockHeader]
  cases (if fCheckMerkleRoot then ctx.checkMerkleRoot block else .ok ()) with
  | error i => simp
  | ok x =>
    simp only
    split
    · simp
    split
    · simp
    rename_i hfirst
    split
    · simp
    rename_i hrest
    simp only [ends_bind]
    refine ends_mono (checkTransactions_ends ctx block.vtx) fun r hr => ?_
    cases r with
    | error i => simp
    | ok y =>
      have hcoinbase : ∃ cb rest, block.vtx = cb :: rest ∧ cb.isCoinBase = true ∧
          ∀ tx ∈ rest, tx.isCoinBase = false := by
        cases hv : block.vtx with
        | nil => simp [hv] at hfirst
        | cons cb rest =>
          rw [hv] at hfirst hrest
          refine ⟨cb, rest, rfl, by simpa using hfirst, fun tx htx => ?_⟩
          by_contra hcb
          exact hrest (List.any_eq_true.mpr ⟨tx, htx, by simpa using hcb⟩)
      simp only
      split
      · simp
      · exact fun _ _ => ⟨hr y rfl, hcoinbase⟩

end BitMinti.Analysis
