import BitMinti.Model.Prioritise

/-!
# When modified fees agree with the recorded deltas

The recorded delta and the modified fee are two running sums, each saturated on its own.  A call
keeps them in step unless one of them is saturated where the other would not be.

SOURCE: src/src/txmempool.cpp:613-638, 988-1010
-/

set_option autoImplicit false

namespace BitMinti.Analysis

open Model

/-- Saturated at the limits of `int64_t`. -/
def clamp (x : ℤ) : ℤ :=
  if x < INT64_MIN then INT64_MIN else if INT64_MAX < x then INT64_MAX else x

/-- An `int64_t`. -/
def InInt64 (x : ℤ) : Prop := INT64_MIN ≤ x ∧ x ≤ INT64_MAX

/-- **The fees agree**: the modified fee of every entry, and its fee in the graph, is the
base fee with the recorded delta. -/
def FeesAgree (s : FeePool) : Prop :=
  ∀ hash e, s.mapTx hash = some e →
    e.m_modified_fee = clamp (e.nFee + s.applyDelta hash) ∧ s.graphFee hash = some e.m_modified_fee

/-- A call with the difference `d` does not saturate one sum alone, for an entry with the
fee `fee` and the recorded delta `delta`. -/
structure InStep (fee delta d : ℤ) : Prop where
  fee_upper : INT64_MAX < fee + delta → 0 ≤ d
  fee_lower : fee + delta < INT64_MIN → d ≤ 0
  delta_upper : INT64_MAX < delta + d → 0 ≤ fee
  delta_lower : delta + d < INT64_MIN → fee ≤ 0

section Sums

variable {fee delta d : ℤ}

theorem clamp_inInt64 (x : ℤ) : InInt64 (clamp x) := by
  unfold InInt64 clamp INT64_MIN INT64_MAX
  split_ifs <;> omega

theorem clamp_of_inInt64 {x : ℤ} (h : InInt64 x) : clamp x = x := by
  rw [clamp, if_neg (not_lt.2 h.1), if_neg (not_lt.2 h.2)]

theorem saturatingAdd_eq {i j : ℤ} (hi : InInt64 i) (hj : InInt64 j) :
    saturatingAdd i j = clamp (i + j) := by
  unfold InInt64 at hi hj
  unfold saturatingAdd clamp
  unfold INT64_MIN INT64_MAX at *
  split_ifs <;> omega

/-- **The two sums stay in step exactly when neither is saturated alone.** -/
theorem clamp_clamp_iff (hfee : InInt64 fee) (hdelta : InInt64 delta) (hd : InInt64 d) :
    clamp (clamp (fee + delta) + d) = clamp (fee + clamp (delta + d)) ↔ InStep fee delta d := by
  have hsteps : InStep fee delta d ↔ (INT64_MAX < fee + delta → 0 ≤ d) ∧
      (fee + delta < INT64_MIN → d ≤ 0) ∧ (INT64_MAX < delta + d → 0 ≤ fee) ∧
      (delta + d < INT64_MIN → fee ≤ 0) :=
    ⟨fun h => ⟨h.1, h.2, h.3, h.4⟩, fun h => ⟨h.1, h.2.1, h.2.2.1, h.2.2.2⟩⟩
  rw [hsteps]
  unfold InInt64 at hfee hdelta hd
  unfold clamp
  unfold INT64_MIN INT64_MAX at *
  split_ifs <;> omega

end Sums

/-! ## Calls -/

/-- Amounts in the state are of type `int64_t`. -/
structure AmountsFit (s : FeePool) : Prop where
  deltas : ∀ hash, InInt64 (s.applyDelta hash)
  fees : ∀ hash e, s.mapTx hash = some e → InInt64 e.nFee ∧ InInt64 e.m_modified_fee

/-- What a call must not do to an entry. -/
def CallInStep (s : FeePool) : FeeCall → Prop
  | .prioritise hash nFeeDelta =>
    ∀ e, s.mapTx hash = some e → InStep e.nFee (s.applyDelta hash) nFeeDelta
  | .add _ _ => True

section Calls

variable {s : FeePool} {hash h : Uint256} {d fee : ℤ}

theorem applyDelta_prioritise (hs : AmountsFit s) (hd : InInt64 d) (h : Uint256) :
    (s.prioritiseTransaction hash d).applyDelta h =
      if h = hash then clamp (s.applyDelta hash + d) else s.applyDelta h := by
  have hkeep : (s.prioritiseTransaction hash d).mapDeltas h = if h = hash then
      if clamp (s.applyDelta hash + d) = 0 then none else some (clamp (s.applyDelta hash + d))
      else s.mapDeltas h := by
    rw [← saturatingAdd_eq (hs.deltas hash) hd]
    unfold FeePool.prioritiseTransaction
    cases s.mapTx hash <;> rfl
  rw [FeePool.applyDelta, hkeep]
  split_ifs with heq hzero
  · exact hzero.symm
  · rfl
  · rfl

/-- The entry of a prioritised transaction. -/
theorem mapTx_prioritise (hs : AmountsFit s) (hd : InInt64 d) (h : Uint256) :
    (s.prioritiseTransaction hash d).mapTx h = if h = hash then (s.mapTx hash).map fun e =>
      { e with m_modified_fee := clamp (e.m_modified_fee + d) } else s.mapTx h := by
  unfold FeePool.prioritiseTransaction
  cases he : s.mapTx hash with
  | none =>
    split_ifs with heq
    · exact heq ▸ he
    · rfl
  | some e =>
    rw [Option.map_some, ← saturatingAdd_eq (hs.fees hash e he).2 hd]
    rfl

theorem graphFee_prioritise (h : Uint256) :
    (s.prioritiseTransaction hash d).graphFee h = if h = hash ∧ (s.mapTx hash).isSome then
      ((s.prioritiseTransaction hash d).mapTx hash).map (·.m_modified_fee) else s.graphFee h := by
  unfold FeePool.prioritiseTransaction
  cases he : s.mapTx hash with
  | none => simp
  | some e => simp [FeePool.setEntry]

theorem mapTx_add (hs : AmountsFit s) (hfee : InInt64 fee) (hnew : s.mapTx hash = none) :
    s.addTransaction hash fee = s.setEntry hash ⟨fee, clamp (fee + s.applyDelta hash)⟩ := by
  simp only [FeePool.addTransaction, hnew, Option.isSome_none, Bool.false_eq_true, if_false]
  split
  · rw [FeeEntry.updateModifiedFee, saturatingAdd_eq hfee (hs.deltas hash)]
  next hzero => rw [not_not.1 hzero, Int.add_zero, clamp_of_inInt64 hfee]

theorem AmountsFit.call (hs : AmountsFit s) {c : FeeCall} (hc : InInt64 c.amount) :
    AmountsFit (s.call c) := by
  cases c with
  | prioritise hash d =>
    change InInt64 d at hc
    refine ⟨fun h => ?_, fun h e he => ?_⟩
    · rw [FeePool.call, applyDelta_prioritise hs hc]
      split
      · exact clamp_inInt64 _
      · exact hs.deltas h
    · rw [FeePool.call, mapTx_prioritise hs hc] at he
      split at he
      · obtain ⟨e', he', rfl⟩ := Option.map_eq_some_iff.1 he
        exact ⟨(hs.fees hash e' he').1, clamp_inInt64 _⟩
      · exact hs.fees h e he
  | add hash fee =>
    change InInt64 fee at hc
    cases hnew : s.mapTx hash with
    | some e =>
      have hsame : s.addTransaction hash fee = s := by rw [FeePool.addTransaction, hnew]; rfl
      rw [FeePool.call, hsame]
      exact hs
    | none =>
      rw [FeePool.call, mapTx_add hs hc hnew]
      refine ⟨hs.deltas, fun h e he => ?_⟩
      simp only [FeePool.setEntry] at he
      split at he
      · cases he
        exact ⟨hc, clamp_inInt64 _⟩
      · exact hs.fees h e he

/-- **One call keeps the fees in agreement exactly when it is in step.** -/
theorem feesAgree_call_iff (hs : AmountsFit s) (hagree : FeesAgree s) {c : FeeCall}
    (hc : InInt64 c.amount) : FeesAgree (s.call c) ↔ CallInStep s c := by
  cases c with
  | prioritise hash d =>
    change InInt64 d at hc
    have hentry : ∀ e, s.mapTx hash = some e →
        (clamp (e.m_modified_fee + d) = clamp (e.nFee + clamp (s.applyDelta hash + d)) ↔
          InStep e.nFee (s.applyDelta hash) d) := fun e he => by
      rw [(hagree hash e he).1]
      exact clamp_clamp_iff (hs.fees hash e he).1 (hs.deltas hash) hc
    constructor
    · intro hafter e he
      have hfound : (s.prioritiseTransaction hash d).mapTx hash =
          some { e with m_modified_fee := clamp (e.m_modified_fee + d) } := by
        rw [mapTx_prioritise hs hc, if_pos rfl, he, Option.map_some]
      have hfee := (hafter hash _ hfound).1
      rw [FeePool.call, applyDelta_prioritise hs hc, if_pos rfl] at hfee
      exact (hentry e he).1 hfee
    · intro hstep h e he
      have he' := he
      rw [FeePool.call, mapTx_prioritise hs hc] at he
      rw [FeePool.call, applyDelta_prioritise hs hc, graphFee_prioritise]
      by_cases heq : h = hash
      · subst heq
        rw [if_pos rfl] at he
        obtain ⟨e', hold, rfl⟩ := Option.map_eq_some_iff.1 he
        rw [FeePool.call] at he'
        rw [if_pos rfl, if_pos ⟨rfl, by rw [hold]; rfl⟩, he', Option.map_some]
        exact ⟨(hentry e' hold).2 (hstep e' hold), rfl⟩
      · rw [if_neg heq] at he
        rw [if_neg heq, if_neg fun hboth => heq hboth.1]
        exact hagree h e he
  | add hash fee =>
    change InInt64 fee at hc
    refine ⟨fun _ => trivial, fun _ => ?_⟩
    cases hnew : s.mapTx hash with
    | some e =>
      have hsame : s.addTransaction hash fee = s := by rw [FeePool.addTransaction, hnew]; rfl
      rw [FeePool.call, hsame]
      exact hagree
    | none =>
      rw [FeePool.call, mapTx_add hs hc hnew]
      intro h e he
      simp only [FeePool.setEntry] at he ⊢
      split at he
      next heq =>
        cases he
        rw [if_pos heq, heq]
        exact ⟨rfl, rfl⟩
      next hne =>
        rw [if_neg hne]
        exact hagree h e he

end Calls

/-! ## Runs -/

theorem run_take_succ {calls : List FeeCall} {n : ℕ} {c : FeeCall} (hc : calls[n]? = some c) :
    FeePool.run (calls.take (n + 1)) = (FeePool.run (calls.take n)).call c := by
  rw [List.take_add_one, hc, FeePool.run, List.foldl_append]
  rfl

theorem amountsFit_run {calls : List FeeCall} (hcalls : ∀ c ∈ calls, InInt64 c.amount) :
    AmountsFit (FeePool.run calls) := by
  have hzero : InInt64 0 := ⟨by decide, by decide⟩
  have hstart : AmountsFit {} := ⟨fun _ => hzero, fun _ _ he => by cases he⟩
  unfold FeePool.run
  generalize ({} : FeePool) = s at hstart
  induction calls generalizing s with
  | nil => exact hstart
  | cons c calls ih =>
    exact ih (fun c' hc' => hcalls c' (List.mem_cons_of_mem c hc')) _
      (hstart.call (hcalls c List.mem_cons_self))

/-- **Modified fees and recorded deltas agree exactly in runs whose calls are in step.** Then a
transaction whose recorded delta is back at zero has its base fee.
SOURCE: src/src/txmempool.cpp:613-638, 988-1010 -/
theorem feesAgree_run_iff (calls : List FeeCall) (hcalls : ∀ c ∈ calls, InInt64 c.amount) :
    ((∀ n, FeesAgree (FeePool.run (calls.take n))) ↔
      ∀ n c, calls[n]? = some c → CallInStep (FeePool.run (calls.take n)) c) ∧
    (FeesAgree (FeePool.run calls) → ∀ hash e, (FeePool.run calls).mapTx hash = some e →
      (FeePool.run calls).mapDeltas hash = none → e.m_modified_fee = e.nFee) := by
  have hfit : ∀ n, AmountsFit (FeePool.run (calls.take n)) := fun n =>
    amountsFit_run fun c hc => hcalls c (List.mem_of_mem_take hc)
  constructor
  · constructor
    · intro hagree n c hc
      refine (feesAgree_call_iff (hfit n) (hagree n) (hcalls c (List.mem_of_getElem? hc))).1 ?_
      rw [← run_take_succ hc]
      exact hagree (n + 1)
    · intro hsteps n
      induction n with
      | zero => exact fun _ _ he => by cases he
      | succ n ih =>
        cases hc : calls[n]? with
        | none =>
          rw [List.take_of_length_le (by have := List.getElem?_eq_none_iff.1 hc; omega)]
          rwa [List.take_of_length_le (List.getElem?_eq_none_iff.1 hc)] at ih
        | some c =>
          rw [run_take_succ hc]
          exact (feesAgree_call_iff (hfit n) ih (hcalls c (List.mem_of_getElem? hc))).2
            (hsteps n c hc)
  · intro hagree hash e he hnone
    have hfee := (hagree hash e he).1
    rw [FeePool.applyDelta, hnone, Option.getD_none, Int.add_zero] at hfee
    rw [hfee, clamp_of_inInt64 ((amountsFit_run hcalls).fees hash e he).1]

/-- A transaction with a fee of 1 is raised by 5 and lowered by 5. -/
theorem feesAgree_run_iff_small :
    FeesAgree (FeePool.run [.add 7 1, .prioritise 7 5, .prioritise 7 (-5)]) ∧
      ((FeePool.run [.add 7 1, .prioritise 7 5, .prioritise 7 (-5)]).mapTx 7).map
        (·.m_modified_fee) = some 1 := by
  have hfit : ∀ c ∈ [FeeCall.add 7 1, .prioritise 7 5, .prioritise 7 (-5)], InInt64 c.amount := by
    simp [FeeCall.amount, InInt64, INT64_MIN, INT64_MAX]
  have hstep : ∀ {calls : List FeeCall} {e : FeeEntry} {delta d : ℤ},
      (FeePool.run calls).mapTx 7 = some e → (FeePool.run calls).applyDelta 7 = delta →
      InStep e.nFee delta d → CallInStep (FeePool.run calls) (.prioritise 7 d) := by
    intro calls e delta d he hdelta hstep e' he'
    cases he.symm.trans he'
    rwa [hdelta]
  refine ⟨(feesAgree_run_iff _ hfit).1.2 (fun n c hc => ?_) 3, by decide⟩
  match n, hc with
  | 0, hc =>
    cases hc
    exact trivial
  | 1, hc | 2, hc =>
    cases hc
    exact hstep rfl rfl ⟨by decide, by decide, by decide, by decide⟩

/-- A transaction with a fee of 1 is raised by the largest amount and lowered by it: no
delta is recorded any more, and its modified fee is 0. -/
theorem not_feesAgree_largest :
    let calls : List FeeCall := [.add 7 1, .prioritise 7 INT64_MAX, .prioritise 7 (-INT64_MAX)]
    (∀ c ∈ calls, InInt64 c.amount) ∧ (FeePool.run calls).mapDeltas 7 = none ∧
      (FeePool.run calls).mapTx 7 = some ⟨1, 0⟩ ∧ ¬FeesAgree (FeePool.run calls) := by
  refine ⟨by simp [FeeCall.amount, InInt64, INT64_MIN, INT64_MAX], by decide, by decide, ?_⟩
  intro hagree
  exact absurd (hagree 7 ⟨1, 0⟩ (by decide)).1 (by decide)

end BitMinti.Analysis
