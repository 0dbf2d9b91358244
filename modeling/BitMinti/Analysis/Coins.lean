import BitMinti.Model.Coins

/-!
# What `SpendCoin` returns

`FetchCoin` finds an entry where the coin was spent and not flushed yet, so that `SpendCoin` takes
it for a coin.  Nothing is assumed of the layers here, flags included.
-/

set_option autoImplicit false

namespace BitMinti.Analysis

open Model Model.CCoinsViewCache

/-- A map from outpoints to coins. -/
abbrev CoinMap : Type := COutPoint → Option Coin

/-- A map that shows no spent coins. -/
def Unspent (v : CoinMap) : Prop := ∀ o coin, v o = some coin → coin.isSpent = false

variable {o : COutPoint} {c : CCoinsViewCache}

/-! ## Entries -/

@[simp] theorem find_store (c : CCoinsViewCache) (o : COutPoint) (e : CCoinsCacheEntry) :
    (c.store o e).find = Function.update c.find o (some e) := by
  funext p
  by_cases hp : p = o
  · subst hp
    simp [find, store]
  · simp [find, store, hp, AList.lookup_insert_ne hp]

@[simp] theorem find_addUsage (c : CCoinsViewCache) (u : BitVec 64) :
    (c.addUsage u).find = c.find := rfl

theorem find_insertFetched (mem : CoinMemory) {coin : Coin} (hcoin : coin.isSpent = false) :
    (c.insertFetched mem o coin).find =
      Function.update c.find o (some { coin := coin, usage := mem.fetched coin }) := by
  simp [insertFetched, hcoin]

theorem not_spent_of_unspent {coin coin' : Coin} (h : coin.unspent = some coin') :
    coin'.isSpent = false := by
  cases hs : coin.isSpent with
  | true => simp [Coin.unspent_of_spent hs] at h
  | false =>
    rw [Coin.unspent_of_not_spent hs, Option.some_inj] at h
    exact h ▸ hs

/-! ## Spending -/

/-- The topmost layer has an entry for a coin that is spent. -/
def HoldsSpent (s : CoinsStack) (o : COutPoint) : Prop :=
  ∃ c below e, s.layers = c :: below ∧ c.find o = some e ∧ e.coin.isSpent = true

/-- `SpendCoin` moves out the coin that the view shows, which is unspent; where it shows
none it returns false and nothing changes. -/
structure SpendsWhatIsShown (mem : CoinMemory) (s : CoinsStack) (o : COutPoint) : Prop where
  shown : (s.haveCoin mem o).1 = true → ∃ coin, (s.spendCoin mem o).1 = some coin ∧
    coin.isSpent = false ∧ (s.getCoin mem o).1 = some coin
  notShown : (s.haveCoin mem o).1 = false → (s.spendCoin mem o).1 = none ∧
    ∀ o', ((s.spendCoin mem o).2.getCoin mem o').1 = (s.getCoin mem o').1

theorem unspent_shown {s : CoinsStack} (U : Unspent s.base.coins) {coin : Coin}
    (h : s.shown o = some coin) : coin.isSpent = false := by
  unfold CoinsStack.shown at h
  split at h
  · exact U o coin h
  · obtain ⟨e, -, he⟩ := Option.bind_eq_some_iff.mp h
    exact not_spent_of_unspent he

theorem fetchLayers_of_shown_none (mem : CoinMemory) (base : CoinsBase)
    {layers : List CCoinsViewCache}
    (h : (CoinsStack.mk base (CoinsStack.fetchLayers mem base o layers)).shown o = none)
    (U : Unspent base.coins) : CoinsStack.fetchLayers mem base o layers = layers := by
  induction layers with
  | nil => rfl
  | cons c below ih =>
    cases hc : c.find o with
    | some e => simp only [CoinsStack.fetchLayers, hc]
    | none =>
      simp only [CoinsStack.fetchLayers, hc] at h ⊢
      cases hshown : (CoinsStack.mk base
          (CoinsStack.fetchLayers mem base o below)).shown o with
      | none => rw [ih hshown]
      | some coin =>
        -- A coin that was fetched is shown.
        have hunspent := unspent_shown U hshown
        rw [hshown] at h
        simp [CoinsStack.shown, find_insertFetched mem hunspent,
          Coin.unspent_of_not_spent hunspent] at h

/-- What `FetchCoin` finds in the topmost layer: what was there, or a coin of the layers below. -/
theorem fetchCoin_find (mem : CoinMemory) {base : CoinsBase} (U : Unspent base.coins)
    (c : CCoinsViewCache) (below : List CCoinsViewCache) (o : COutPoint) :
    ∃ c' below', (CoinsStack.mk base (c :: below)).fetchCoin mem o = ⟨base, c' :: below'⟩ ∧
      (c'.find o = c.find o ∨
        c.find o = none ∧ ∃ e, c'.find o = some e ∧ e.coin.isSpent = false) := by
  cases hc : c.find o with
  | some e =>
    refine ⟨c, below, ?_, .inl hc⟩
    simp only [CoinsStack.fetchCoin, CoinsStack.fetchLayers, hc]
  | none =>
    cases hshown : (CoinsStack.mk base (CoinsStack.fetchLayers mem base o below)).shown o with
    | none =>
      refine ⟨c, CoinsStack.fetchLayers mem base o below, ?_, .inl hc⟩
      simp only [CoinsStack.fetchCoin, CoinsStack.fetchLayers, hc, hshown]
    | some coin =>
      have hunspent := unspent_shown U hshown
      refine ⟨c.insertFetched mem o coin, CoinsStack.fetchLayers mem base o below, ?_,
        .inr ⟨rfl, { coin := coin, usage := mem.fetched coin }, ?_, hunspent⟩⟩
      · simp only [CoinsStack.fetchCoin, CoinsStack.fetchLayers, hc, hshown]
      · rw [find_insertFetched mem hunspent, Function.update_self]

/-- **`SpendCoin` returns true exactly for coins that are shown, unless the cache holds a spent
entry.**  For every cache over any layers and a base that shows no spent coins: `SpendCoin` moves
out the unspent coin that `GetCoin` shows where there is one, and otherwise returns false and
changes nothing, if and only if the cache has no entry for a spent coin at the outpoint.

SOURCE: src/src/coins.cpp:133-153, src/src/coins.h:431-436 -/
theorem spendCoin_faithful_iff (mem : CoinMemory) (base : CoinsBase) (U : Unspent base.coins)
    (c : CCoinsViewCache) (below : List CCoinsViewCache) (o : COutPoint) :
    SpendsWhatIsShown mem ⟨base, c :: below⟩ o ↔ ¬ HoldsSpent ⟨base, c :: below⟩ o := by
  obtain ⟨c', below', hfetch, hfound⟩ := fetchCoin_find mem U c below o
  have hhave : ((CoinsStack.mk base (c :: below)).haveCoin mem o).1 =
      ((c'.find o).bind (·.coin.unspent)).isSome := by
    simp only [CoinsStack.haveCoin, hfetch, CoinsStack.shown]
  have hget : ((CoinsStack.mk base (c :: below)).getCoin mem o).1 =
      (c'.find o).bind (·.coin.unspent) := by
    simp only [CoinsStack.getCoin, hfetch, CoinsStack.shown]
  have hspend : ((CoinsStack.mk base (c :: below)).spendCoin mem o).1 =
      (c'.find o).map (·.coin) := by
    simp only [CoinsStack.spendCoin, hfetch]
    cases c'.find o <;> rfl
  have hspent : HoldsSpent ⟨base, c :: below⟩ o ↔
      ∃ e, c'.find o = some e ∧ e.coin.isSpent = true := by
    constructor
    · rintro ⟨d, below'', e, hlayers, he, hs⟩
      obtain ⟨rfl, rfl⟩ := List.cons.inj hlayers
      rcases hfound with hsame | ⟨hnone, -⟩
      · exact ⟨e, hsame.trans he, hs⟩
      · cases hnone.symm.trans he
    · rintro ⟨e, he, hs⟩
      rcases hfound with hsame | ⟨-, e', he', hs'⟩
      · exact ⟨c, below, e, rfl, hsame.symm.trans he, hs⟩
      · cases he'.symm.trans he
        cases hs'.symm.trans hs
  rw [hspent]
  cases hfind : c'.find o with
  | none =>
    rw [hfind] at hhave hspend
    refine iff_of_true ⟨fun htrue => ?_, fun _ => ⟨hspend, fun o' => ?_⟩⟩ (by simp)
    · cases hhave.symm.trans htrue
    · -- Nothing was found, so nothing was fetched either.
      have hsame : CoinsStack.fetchLayers mem base o (c :: below) = c :: below := by
        refine fetchLayers_of_shown_none mem base ?_ U
        have hlayers : CoinsStack.fetchLayers mem base o (c :: below) = c' :: below' :=
          congrArg CoinsStack.layers hfetch
        rw [hlayers]
        simp [CoinsStack.shown, hfind]
      have hstate : ((CoinsStack.mk base (c :: below)).spendCoin mem o).2 =
          ⟨base, c :: below⟩ := by
        simp only [CoinsStack.spendCoin, hfetch, hfind]
        rw [← hfetch, CoinsStack.fetchCoin, hsame]
      rw [hstate]
  | some e =>
    rw [hfind] at hhave hget hspend
    cases hs : e.coin.isSpent with
    | true =>
      refine iff_of_false (fun H => ?_) (by simpa using hs)
      simp only [Option.bind_some, Coin.unspent_of_spent hs] at hhave
      cases hspend.symm.trans (H.notShown hhave).1
    | false =>
      simp only [Option.bind_some, Coin.unspent_of_not_spent hs] at hhave hget
      refine iff_of_true ⟨fun _ => ⟨e.coin, hspend, hs, hget⟩, fun hfalse => ?_⟩ (by simp [hs])
      cases hhave.symm.trans hfalse

/-- A base with one coin, and the memory of coins left aside. -/
def oneCoinBase : CoinsBase where
  coins := fun o => if o = ⟨1#256, 0#32⟩ then some { out := { nValue := 5 }, nHeight := 1#31 }
    else none

theorem oneCoinBase_unspent : Unspent oneCoinBase.coins := by
  intro o coin h
  simp only [oneCoinBase] at h
  split at h
  · cases h
    rfl
  · cases h

theorem spendCoin_faithful_new :
    SpendsWhatIsShown ⟨fun _ => 0#64, fun usage _ => usage⟩ ⟨oneCoinBase, [{}]⟩ ⟨1#256, 0#32⟩ := by
  refine (spendCoin_faithful_iff _ oneCoinBase oneCoinBase_unspent {} [] _).mpr ?_
  rintro ⟨c, below, e, hlayers, hfind, -⟩
  obtain ⟨rfl, rfl⟩ := List.cons.inj hlayers
  cases hfind

/-- A coin that was spent and not flushed is spent once more: `HaveCoin` says that there is no
coin, and `SpendCoin` returns true and moves out an empty one. -/
theorem spendCoin_twice :
    let mem : CoinMemory := ⟨fun _ => 0#64, fun usage _ => usage⟩
    let s := ((CoinsStack.fresh oneCoinBase 1).spendCoin mem ⟨1#256, 0#32⟩).2
    (s.haveCoin mem ⟨1#256, 0#32⟩).1 = false ∧
      (s.spendCoin mem ⟨1#256, 0#32⟩).1 = some coinEmpty := by
  decide +kernel

end BitMinti.Analysis
