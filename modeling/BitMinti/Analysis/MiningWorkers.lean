import BitMinti.Computation.Threads
import BitMinti.Interface.Mining
import Mathlib.Algebra.Order.Interval.Finset.SuccPred
import Mathlib.Data.Nat.Count
import Mathlib.Data.Nat.SuccPred

/-!
# The nonces of the workers

A nonce is drawn by `next_nonce.fetch_add`, and every draw is accounted for: it is counted in
`tries_done` or in the hands of a worker.  The worker that draws the last nonce and every worker
that draws a solution draw no more, and the budget bounds the draws by the tries and the workers.
When the counter wraps depends on these three counts.

SOURCE: src/src/rpc/mining.cpp:189-242
-/

set_option autoImplicit false

namespace BitMinti.Analysis

open Model Interface Computation.Threads Relation

/-! ## Draws -/

/-- How often a nonce is among the first `n` draws. -/
def draws (start nonce : BitVec 32) (n : ℕ) : ℕ :=
  Nat.count (fun j => start + BitVec.ofNat 32 j = nonce) n

theorem draws_zero (start nonce : BitVec 32) : draws start nonce 0 = 0 := Nat.count_zero _

theorem draws_succ (start nonce : BitVec 32) (n : ℕ) :
    draws start nonce (n + 1) =
      draws start nonce n + (start + BitVec.ofNat 32 n == nonce).toNat := by
  rw [draws, draws, Nat.count_succ]
  by_cases h : start + BitVec.ofNat 32 n = nonce
  · simp [h]
  · simp [h]

variable (start : BitVec 32)

theorem toNat_draw (n : ℕ) : (start + BitVec.ofNat 32 n).toNat = (start.toNat + n) % 2 ^ 32 := by
  simp

theorem draw_zero : start + BitVec.ofNat 32 0 = start := BitVec.add_zero start

theorem draw_succ (n : ℕ) :
    start + BitVec.ofNat 32 (n + 1) = start + 1 + BitVec.ofNat 32 n := by
  rw [Nat.add_comm n 1, BitVec.ofNat_add, BitVec.add_assoc]
  rfl

theorem draws_of_le {start nonce : BitVec 32} {n : ℕ} (h : start.toNat + n ≤ 2 ^ 32) :
    draws start nonce n =
      if start.toNat ≤ nonce.toNat ∧ nonce.toNat < start.toNat + n then 1 else 0 := by
  induction n with
  | zero =>
    rw [draws_zero, if_neg (by omega)]
  | succ n ih =>
    have hdraw : start + BitVec.ofNat 32 n = nonce ↔ nonce.toNat = start.toNat + n := by
      rw [← BitVec.toNat_inj, toNat_draw, Nat.mod_eq_of_lt (by omega)]
      exact eq_comm
    rw [draws_succ, ih (by omega)]
    by_cases heq : nonce.toNat = start.toNat + n
    · rw [hdraw.mpr heq, if_neg (by omega), if_pos (by omega)]
      simp
    · have hne : (start + BitVec.ofNat 32 n == nonce) = false := by
        rw [beq_eq_false_iff_ne, ne_eq, hdraw]
        exact heq
      rw [hne]
      split_ifs <;> first | rfl | omega

theorem draws_lastNonce (n : ℕ) :
    draws start lastNonce n = (start.toNat + n) / 2 ^ 32 := by
  induction n with
  | zero =>
    rw [draws_zero, Nat.add_zero, Nat.div_eq_of_lt start.isLt]
  | succ n ih =>
    have hdraw : start + BitVec.ofNat 32 n = lastNonce ↔
        (start.toNat + n) % 2 ^ 32 = 2 ^ 32 - 1 := by
      rw [← BitVec.toNat_inj, toNat_draw]
      rfl
    rw [draws_succ, ih]
    by_cases hlast : (start.toNat + n) % 2 ^ 32 = 2 ^ 32 - 1
    · rw [hdraw.mpr hlast, beq_self_eq_true, Bool.toNat_true]
      omega
    · have hne : (start + BitVec.ofNat 32 n == lastNonce) = false := by
        rw [beq_eq_false_iff_ne, ne_eq, hdraw]
        exact hlast
      rw [hne, Bool.toNat_false]
      omega

theorem draws_pos (start nonce : BitVec 32) {n : ℕ} (h : 2 ^ 32 ≤ n) :
    0 < draws start nonce n := by
  have hdraw : start + BitVec.ofNat 32 (nonce - start).toNat = nonce := by
    rw [BitVec.ofNat_toNat, BitVec.setWidth_eq, BitVec.add_comm, BitVec.sub_add_cancel]
  have hlt : (nonce - start).toNat < n := by
    have := (nonce - start).isLt
    omega
  have hmono : draws start nonce ((nonce - start).toNat + 1) ≤ draws start nonce n :=
    Nat.count_monotone _ hlt
  rw [draws_succ, hdraw, beq_self_eq_true, Bool.toNat_true] at hmono
  omega

/-! ## The invariant -/

section Invariant

variable {ι : Type} [Fintype ι] [DecidableEq ι] {powOk : BitVec 32 → Bool} {max_tries : ℕ}
  {start : BitVec 32} {s s' : MiningSystem ι}

/-- Whether a worker holds a nonce. -/
def held (w : Worker) : Bool := w.nonce.isSome

/-- Whether a worker holds this nonce. -/
def holds (x : BitVec 32) (w : Worker) : Bool := w.nonce == some x

/-- The number of draws: those that are counted and those that a worker holds. -/
def drawn (s : MiningSystem ι) : ℕ := s.shared.tries_done + count held s.workers

/-- What holds of a worker: where it is says what it has found out. -/
def WorkerOk (powOk : BitVec 32 → Bool) (max_tries : ℕ) (g : MiningShared) : Worker → Prop
  | .publish nonce => nonce ≠ lastNonce ∧ powOk nonce = true
  | .count nonce => nonce ≠ lastNonce ∧ powOk nonce = false
  | .ended (some nonce) => nonce = lastNonce ∨ powOk nonce = true ∧ g.found = true
  | .ended none => g.found = true ∨ g.m_interrupt = true ∨ max_tries ≤ g.tries_done
  | _ => True

/-- The invariant of the workers. -/
structure WorkersInv (powOk : BitVec 32 → Bool) (max_tries : ℕ) (start : BitVec 32)
    (s : MiningSystem ι) : Prop where
  next : s.shared.next_nonce = start + BitVec.ofNat 32 (drawn s)
  hashed : ∀ x, s.shared.hashed.count x + count (· == .test x) s.workers ≤ draws start x (drawn s)
  kept : ∀ x, x = lastNonce ∨ powOk x = true →
    count (holds x) s.workers = draws start x (drawn s)
  budget : drawn s + count (· == .fetchAdd) s.workers = 0 ∨
    0 < max_tries ∧ drawn s + count (· == .fetchAdd) s.workers < max_tries + Fintype.card ι
  passes : drawn s = 0 ∨ start.toNat + drawn s ≤ Fintype.card ι * 2 ^ 32
  workers : ∀ i, WorkerOk powOk max_tries s.shared (s.workers i)
  winner : s.shared.found = true →
    s.shared.winning_nonce ≠ lastNonce ∧ powOk s.shared.winning_nonce = true
  noWinner : s.shared.found = false → s.shared.winning_nonce = 0#32

/-- **What a turn can do**, in terms of the nonces: look at what is shared, draw a nonce, test it,
publish a solution, count a failure, or nothing at all. -/
inductive WorkerMove (powOk : BitVec 32 → Bool) (max_tries : ℕ) (g : MiningShared) :
    Worker → Worker → MiningShared → Prop
  | look {w w' : Worker} (hw : w.nonce = none) (hw' : w'.nonce = none) (hfetch : w ≠ .fetchAdd)
      (hok : WorkerOk powOk max_tries g w') (htries : w' = .fetchAdd → g.tries_done < max_tries) :
      WorkerMove powOk max_tries g w w' g
  | draw : WorkerMove powOk max_tries g .fetchAdd (.test g.next_nonce)
      { g with next_nonce := g.next_nonce + 1 }
  | last : WorkerMove powOk max_tries g (.test lastNonce) (.ended (some lastNonce)) g
  | solve {x : BitVec 32} (hlast : x ≠ lastNonce) (hpow : powOk x = true) :
      WorkerMove powOk max_tries g (.test x) (.publish x) { g with hashed := g.hashed ++ [x] }
  | fail {x : BitVec 32} (hlast : x ≠ lastNonce) (hpow : powOk x = false) :
      WorkerMove powOk max_tries g (.test x) (.count x) { g with hashed := g.hashed ++ [x] }
  | publish {x : BitVec 32} :
      WorkerMove powOk max_tries g (.publish x) (.ended (some x))
        (if !g.found then { g with winning_nonce := x, found := true } else g)
  | count {x : BitVec 32} :
      WorkerMove powOk max_tries g (.count x) .loadFound { g with tries_done := g.tries_done + 1 }
  | stay {x : Option (BitVec 32)} : WorkerMove powOk max_tries g (.ended x) (.ended x) g

theorem turn_move (g : MiningShared) (w : Worker) :
    WorkerMove powOk max_tries g w (w.turn powOk max_tries g).1 (w.turn powOk max_tries g).2 := by
  cases w with
  | loadFound =>
    simp only [Worker.turn]
    split
    · rename_i hfound
      exact .look rfl rfl (by simp) (.inl hfound) (by simp)
    · exact .look rfl rfl (by simp) trivial (by simp)
  | loadInterrupt =>
    simp only [Worker.turn]
    split
    · rename_i hinterrupt
      exact .look rfl rfl (by simp) (.inr (.inl hinterrupt)) (by simp)
    · exact .look rfl rfl (by simp) trivial (by simp)
  | loadTries =>
    simp only [Worker.turn]
    split
    · rename_i htries
      exact .look rfl rfl (by simp) trivial fun _ => htries
    · rename_i htries
      exact .look rfl rfl (by simp) (.inr (.inr (Nat.le_of_not_lt htries))) (by simp)
  | fetchAdd => exact .draw
  | test nonce =>
    simp only [Worker.turn]
    split
    · rename_i hlast
      subst hlast
      exact .last
    · rename_i hlast
      split
      · rename_i hpow
        exact .solve hlast hpow
      · rename_i hpow
        exact .fail hlast (Bool.not_eq_true _ ▸ hpow)
  | publish nonce => exact .publish
  | count nonce => exact .count
  | ended nonce => exact .stay

omit [Fintype ι] in
theorem miningStep_cases (h : MiningStep powOk max_tries s s') :
    (∃ i w g, WorkerMove powOk max_tries s.shared (s.workers i) w g ∧
      s' = ⟨g, Function.update s.workers i w⟩) ∨
    s' = { s with shared := { s.shared with m_interrupt := true } } := by
  cases h with
  | turn i => exact .inl ⟨i, _, _, turn_move _ _, rfl⟩
  | interrupt => exact .inr rfl

section Moves

variable {g g' : MiningShared} {w w' : Worker}

theorem WorkerMove.shared_mono (M : WorkerMove powOk max_tries g w w' g') :
    (g.found = true → g'.found = true) ∧ g'.m_interrupt = g.m_interrupt ∧
      g.tries_done ≤ g'.tries_done := by
  cases M with
  | publish => split <;> simp_all
  | count => exact ⟨id, rfl, Nat.le_succ _⟩
  | _ => exact ⟨id, rfl, Nat.le_refl _⟩

theorem WorkerOk.mono (W : WorkerOk powOk max_tries g w)
    (hfound : g.found = true → g'.found = true)
    (hinterrupt : g.m_interrupt = true → g'.m_interrupt = true)
    (htries : g.tries_done ≤ g'.tries_done) : WorkerOk powOk max_tries g' w := by
  cases w with
  | ended nonce =>
    cases nonce with
    | none =>
      rcases W with h | h | h
      · exact .inl (hfound h)
      · exact .inr (.inl (hinterrupt h))
      · exact .inr (.inr (h.trans htries))
    | some nonce => exact W.imp_right fun h => ⟨h.1, hfound h.2⟩
  | _ => exact W

section

variable (M : WorkerMove powOk max_tries g w w' g')

include M

theorem WorkerMove.workerOk
    (W : WorkerOk powOk max_tries g w) : WorkerOk powOk max_tries g' w' := by
  cases M with
  | look _ _ _ hok => exact hok
  | draw => trivial
  | last => exact .inl rfl
  | solve hlast hpow | fail hlast hpow => exact ⟨hlast, hpow⟩
  | publish =>
    refine .inr ⟨W.2, ?_⟩
    split <;> simp_all
  | count => trivial
  | stay => exact W

theorem WorkerMove.winner (W : WorkerOk powOk max_tries g w)
    (V : g.found = true → g.winning_nonce ≠ lastNonce ∧ powOk g.winning_nonce = true) :
    g'.found = true → g'.winning_nonce ≠ lastNonce ∧ powOk g'.winning_nonce = true := by
  cases M with
  | publish =>
    split
    · exact fun _ => W
    · exact V
  | _ => exact V

theorem WorkerMove.noWinner (V : g.found = false → g.winning_nonce = 0#32) :
    g'.found = false → g'.winning_nonce = 0#32 := by
  cases M with
  | publish =>
    split
    · exact fun h => by cases h
    · exact V
  | _ => exact V

theorem WorkerMove.next :
    g'.next_nonce = g.next_nonce + BitVec.ofNat 32 (w == .fetchAdd).toNat := by
  cases M with
  | look _ _ hfetch =>
    rw [beq_false_of_ne hfetch]
    exact (BitVec.add_zero _).symm
  | draw => rfl
  | publish => split <;> exact (BitVec.add_zero _).symm
  | _ => exact (BitVec.add_zero _).symm

end

end Moves

/-! ### Counts -/

section Moves

variable {i : ι} {w w' : Worker} {g : MiningShared} (hw : s.workers i = w)
  (M : WorkerMove powOk max_tries s.shared w w' g)

include hw in
theorem count_move (p : Worker → Bool) (w' : Worker) :
    count p (Function.update s.workers i w') + (p w).toNat = count p s.workers + (p w').toNat := by
  rw [← hw]
  exact count_update p s.workers i w'

include hw in
theorem count_move_eq (p : Worker → Bool) (w' : Worker) (h : p w' = p w) :
    count p (Function.update s.workers i w') = count p s.workers := by
  have hmove := count_move hw p w'
  rw [h] at hmove
  omega

theorem holds_of_none {w : Worker} (h : w.nonce = none) (x : BitVec 32) : holds x w = false := by
  rw [holds, h]
  rfl

theorem test_of_none {w : Worker} (h : w.nonce = none) (x : BitVec 32) :
    (w == .test x) = false := by
  apply beq_false_of_ne
  rintro rfl
  cases h

include hw M in
/-- **Only `fetch_add` draws.**  Every other move leaves the number of draws. -/
theorem drawn_move :
    drawn ⟨g, Function.update s.workers i w'⟩ = drawn s + (w == .fetchAdd).toNat := by
  change g.tries_done + count held (Function.update s.workers i w') =
    s.shared.tries_done + count held s.workers + (w == .fetchAdd).toNat
  cases M with
  | look hnone hnone' hfetch =>
    rw [beq_false_of_ne hfetch, count_move_eq hw held w' (by rw [held, held, hnone, hnone'])]
    rfl
  | draw =>
    have hheld := count_move hw held (.test s.shared.next_nonce)
    change _ + 0 = _ + 1 at hheld
    change s.shared.tries_done + _ = _ + 1
    omega
  | count =>
    have hheld := count_move hw held .loadFound
    change _ + 1 = _ + 0 at hheld
    change s.shared.tries_done + 1 + _ = _ + 0
    omega
  | @publish y =>
    rw [count_move_eq hw held (.ended (some y)) rfl]
    split <;> rfl
  | last | solve | fail | stay => exact congrArg _ (count_move_eq hw held _ rfl)

theorem count_concat (l : List (BitVec 32)) (y x : BitVec 32) :
    (l ++ [y]).count x = l.count x + (y == x).toNat := by
  rw [List.count_append, List.count_singleton]
  cases y == x <;> rfl

include hw M in
theorem hashed_move (x : BitVec 32) :
    g.hashed.count x + count (· == .test x) (Function.update s.workers i w') ≤
      s.shared.hashed.count x + count (· == .test x) s.workers +
        (w == .fetchAdd && s.shared.next_nonce == x).toNat := by
  have hmove := count_move hw (· == .test x) w'
  have htest : ∀ y, (Worker.test y == .test x) = (y == x) := by
    intro y
    rw [Bool.eq_iff_iff, beq_iff_eq, beq_iff_eq, Worker.test.injEq]
  cases M with
  | look hnone hnone' =>
    rw [test_of_none hnone, test_of_none hnone'] at hmove
    omega
  | draw =>
    rw [test_of_none rfl, htest] at hmove
    rw [beq_self_eq_true, Bool.true_and]
    change s.shared.hashed.count x + _ ≤ _
    change _ + 0 = _ at hmove
    omega
  | last =>
    have hstays : (Worker.ended (some lastNonce) == .test x) = false := rfl
    rw [hstays] at hmove
    change _ + _ = _ + 0 at hmove
    omega
  | solve | fail =>
    rw [htest] at hmove
    change _ + _ = _ + 0 at hmove
    rw [count_concat]
    omega
  | @publish y =>
    have hsame : (if !s.shared.found then { s.shared with winning_nonce := y, found := true }
        else s.shared).hashed = s.shared.hashed := by split <;> rfl
    rw [hsame]
    change _ + 0 = _ + 0 at hmove
    omega
  | count => exact Nat.le_of_eq (congrArg _ hmove)
  | stay => omega

include hw M in
/-- **The last nonce and the solutions stay with the workers that drew them.** -/
theorem kept_move (W : WorkerOk powOk max_tries s.shared w) {x : BitVec 32}
    (hx : x = lastNonce ∨ powOk x = true) :
    count (holds x) (Function.update s.workers i w') =
      count (holds x) s.workers + (w == .fetchAdd && s.shared.next_nonce == x).toNat := by
  cases M with
  | look hnone hnone' hfetch =>
    rw [count_move_eq hw (holds x) w' (by rw [holds_of_none hnone, holds_of_none hnone']),
      beq_false_of_ne hfetch]
    rfl
  | draw =>
    have hmove := count_move hw (holds x) (.test s.shared.next_nonce)
    change _ + 0 = _ + (some s.shared.next_nonce == some x).toNat at hmove
    rw [beq_self_eq_true, Bool.true_and]
    simpa using hmove
  | @count y =>
    have hne : holds x (.count y) = false := by
      apply beq_false_of_ne
      rintro hxy
      obtain rfl : y = x := Option.some.inj hxy
      rcases hx with hlast | hpow
      · exact W.1 hlast
      · rw [W.2] at hpow
        cases hpow
    rw [count_move_eq hw (holds x) .loadFound (by rw [hne, holds_of_none rfl])]
    rfl
  | last | solve | fail | publish | stay => exact count_move_eq hw (holds x) _ rfl

theorem fetchAdd_not_held (w : Worker) (h : held w = true) : (w == .fetchAdd) = false := by
  apply beq_false_of_ne
  rintro rfl
  cases h

include hw M in
theorem budget_move (B : drawn s + count (· == .fetchAdd) s.workers = 0 ∨
    0 < max_tries ∧ drawn s + count (· == .fetchAdd) s.workers < max_tries + Fintype.card ι) :
    let s' : MiningSystem ι := ⟨g, Function.update s.workers i w'⟩
    drawn s' + count (· == .fetchAdd) s'.workers = 0 ∨
      0 < max_tries ∧ drawn s' + count (· == .fetchAdd) s'.workers <
        max_tries + Fintype.card ι := by
  intro s'
  have hmove := count_move hw (· == .fetchAdd) w'
  have hdrawn : drawn s' = drawn s + (w == .fetchAdd).toNat := drawn_move hw M
  by_cases hfetch : w' = .fetchAdd
  · subst hfetch
    -- the worker has just read `tries_done`, and the other draws are in the hands of workers
    have hread : s'.shared.tries_done < max_tries := by
      cases M with
      | look _ _ _ _ htries => exact htries rfl
    have hcard : count held s'.workers + count (· == .fetchAdd) s'.workers ≤ Fintype.card ι :=
      count_add_le fetchAdd_not_held s'.workers
    have hsplit : drawn s' = s'.shared.tries_done + count held s'.workers := rfl
    omega
  · rw [beq_false_of_ne hfetch] at hmove
    change count (· == .fetchAdd) s'.workers + _ = _ + 0 at hmove
    rw [hdrawn, Nat.add_right_comm]
    omega

include hw M in
theorem passes_move (P : drawn s = 0 ∨ start.toNat + drawn s ≤ Fintype.card ι * 2 ^ 32)
    (K : count (holds lastNonce) s.workers = draws start lastNonce (drawn s)) :
    let s' : MiningSystem ι := ⟨g, Function.update s.workers i w'⟩
    drawn s' = 0 ∨ start.toNat + drawn s' ≤ Fintype.card ι * 2 ^ 32 := by
  intro s'
  have hdrawn : drawn s' = drawn s + (w == .fetchAdd).toNat := drawn_move hw M
  by_cases hfetch : w = .fetchAdd
  · have hfree : holds lastNonce (s.workers i) = false := by
      rw [hw, hfetch]
      rfl
    have hlt := count_lt_card hfree
    rw [K, draws_lastNonce, Nat.div_lt_iff_lt_mul (by decide)] at hlt
    rw [hfetch, beq_self_eq_true, Bool.toNat_true] at hdrawn
    omega
  · rw [beq_false_of_ne hfetch] at hdrawn
    rw [hdrawn]
    exact P

end Moves

/-! ### Steps and runs -/

/-- **A move of a worker keeps the invariant.** -/
theorem WorkersInv.move (I : WorkersInv powOk max_tries start s) {i : ι} {w : Worker}
    {g : MiningShared} (M : WorkerMove powOk max_tries s.shared (s.workers i) w g) :
    WorkersInv powOk max_tries start ⟨g, Function.update s.workers i w⟩ := by
  have hdrawn := drawn_move rfl M
  have hdraws : ∀ x, draws start x (drawn s) +
      (s.workers i == .fetchAdd && s.shared.next_nonce == x).toNat =
      draws start x (drawn ⟨g, Function.update s.workers i w⟩) := by
    intro x
    rw [hdrawn]
    cases s.workers i == .fetchAdd with
    | false => rfl
    | true => rw [Bool.toNat_true, draws_succ, ← I.next, Bool.true_and]
  refine ⟨?_, ?_, ?_, ?_, ?_, ?_, ?_, ?_⟩
  · rw [hdrawn, BitVec.ofNat_add, ← BitVec.add_assoc, ← I.next]
    exact M.next
  · intro x
    have hmove := hashed_move rfl M x
    have hbefore := I.hashed x
    rw [← hdraws x]
    exact hmove.trans (Nat.add_le_add_right hbefore _)
  · intro x hx
    rw [← hdraws x, ← I.kept x hx]
    exact kept_move rfl M (I.workers i) hx
  · exact budget_move rfl M I.budget
  · exact passes_move rfl M I.passes (I.kept lastNonce (.inl rfl))
  · obtain ⟨hfound, hinterrupt, htries⟩ := M.shared_mono
    exact (Function.forall_update_iff s.workers fun _ => WorkerOk _ _ _).2
      ⟨M.workerOk (I.workers i), fun j _ =>
        (I.workers j).mono hfound (fun h => hinterrupt.trans h) htries⟩
  · exact M.winner (I.workers i) I.winner
  · exact M.noWinner I.noWinner

omit [DecidableEq ι] in
theorem WorkersInv.interrupt (I : WorkersInv powOk max_tries start s) :
    WorkersInv powOk max_tries start
      { s with shared := { s.shared with m_interrupt := true } } where
  next := I.next
  hashed := I.hashed
  kept := I.kept
  budget := I.budget
  passes := I.passes
  workers i := (I.workers i).mono id (fun _ => rfl) (Nat.le_refl _)
  winner := I.winner
  noWinner := I.noWinner

variable (ι start) in
omit [DecidableEq ι] in
theorem drawn_init : drawn (.init ι start) = 0 :=
  (Nat.zero_add _).trans (count_const held .loadFound rfl)

omit [DecidableEq ι] in
theorem WorkersInv.init : WorkersInv powOk max_tries start (.init ι start) := by
  have hnone : ∀ p : Worker → Bool, p .loadFound = false →
      count p (MiningSystem.init ι start).workers = 0 := fun p => count_const p .loadFound
  have hdrawn := drawn_init ι start
  refine ⟨?_, ?_, ?_, ?_, ?_, fun _ => trivial, ?_, fun _ => rfl⟩
  · rw [hdrawn]
    exact (BitVec.add_zero start).symm
  · intro x
    rw [hnone _ rfl]
    exact Nat.zero_le _
  · intro x _
    rw [hdrawn, draws_zero]
    exact hnone _ rfl
  · exact .inl (by rw [hdrawn, hnone _ rfl])
  · exact .inl hdrawn
  · intro h
    cases h

/-- **The invariant holds in every state of the workers.** -/
theorem workersInv_of_reaches (h : MiningReaches powOk max_tries start s) :
    WorkersInv powOk max_tries start s := by
  induction h with
  | refl => exact .init
  | tail _ hstep ih =>
    rcases miningStep_cases hstep with ⟨i, w, g, M, rfl⟩ | rfl
    · exact ih.move M
    · exact ih.interrupt

/-! ## When all workers have ended -/

section Ended

omit [DecidableEq ι]

section

variable (I : WorkersInv powOk max_tries start s)

include I

theorem WorkersInv.last_le_held : (start.toNat + drawn s) / 2 ^ 32 ≤ count held s.workers := by
  rw [← draws_lastNonce, ← I.kept lastNonce (.inl rfl)]
  apply count_mono
  intro w hw
  rw [holds, beq_iff_eq] at hw
  rw [held, hw]
  rfl

theorem WorkersInv.tries_le :
    s.shared.tries_done ≤ searchSpace (Fintype.card ι) start := by
  have hlast := I.last_le_held
  have hpasses := I.passes
  have hdrawn : drawn s = s.shared.tries_done + count held s.workers := rfl
  unfold searchSpace
  omega

/-- Workers that end without a solution, an interrupt or the last try have all drawn the
last nonce. -/
theorem WorkersInv.ended_last
    (hended : ∀ i, ∃ nonce, s.workers i = .ended nonce) (hfound : s.shared.found = false)
    (hinterrupt : s.shared.m_interrupt = false) (htries : s.shared.tries_done < max_tries) (i : ι) :
    s.workers i = .ended (some lastNonce) := by
  obtain ⟨nonce, hw⟩ := hended i
  have W := I.workers i
  rw [hw] at W ⊢
  cases nonce with
  | none =>
    rcases W with h | h | h
    · rw [hfound] at h
      cases h
    · rw [hinterrupt] at h
      cases h
    · omega
  | some nonce =>
    rcases W with rfl | ⟨-, h⟩
    · rfl
    · rw [hfound] at h
      cases h

/-- **Workers that have all drawn the last nonce have searched all nonces**, each of
them in vain. -/
theorem WorkersInv.exhausted (hcard : 1 < Fintype.card ι)
    (hlast : ∀ i, s.workers i = .ended (some lastNonce)) :
    s.shared.tries_done = searchSpace (Fintype.card ι) start ∧
      ∀ x, x ≠ lastNonce → powOk x = false := by
  have hall : ∀ p : Worker → Bool, p (.ended (some lastNonce)) = true →
      count p s.workers = Fintype.card ι := fun p hp => count_eq_card fun i => by rw [hlast i, hp]
  have hkept := I.kept lastNonce (.inl rfl)
  rw [hall (holds lastNonce) rfl, draws_lastNonce] at hkept
  have hdrawn : drawn s = s.shared.tries_done + Fintype.card ι := by
    rw [drawn, hall held rfl]
  have hpasses := I.passes
  have hstart := start.isLt
  constructor
  · unfold searchSpace
    omega
  · intro x hx
    by_contra hpow
    have hpos := draws_pos start x (show 2 ^ 32 ≤ drawn s by omega)
    rw [← I.kept x (.inr (by simpa using hpow))] at hpos
    obtain ⟨i, hi⟩ := exists_of_count_pos hpos
    rw [hlast i, holds, beq_iff_eq] at hi
    exact hx (Option.some.inj hi).symm

end

end Ended

/-! ## Fresh nonces -/

omit [DecidableEq ι] in
theorem WorkersInv.fresh (I : WorkersInv powOk max_tries start s)
    (hwrap : start.toNat + drawn s ≤ 2 ^ 32) : FreshNonces start s.shared.hashed := by
  have hcount : ∀ x, s.shared.hashed.count x ≤
      if start.toNat ≤ x.toNat ∧ x.toNat < start.toNat + drawn s then 1 else 0 := by
    intro x
    rw [← draws_of_le hwrap]
    exact (Nat.le_add_right _ _).trans (I.hashed x)
  refine ⟨List.nodup_iff_count_le_one.mpr fun x => ?_, fun x hx => ?_⟩
  · have h := hcount x
    split_ifs at h <;> omega
  · have h := hcount x
    have hpos := List.count_pos_iff.mpr hx
    split_ifs at h with hrange
    · exact BitVec.le_def.mpr hrange.1
    · omega

/-- The last nonce and the solutions from a nonce on. -/
def keptNonces (powOk : BitVec 32 → Bool) (start : BitVec 32) : Finset (BitVec 32) :=
  insert lastNonce (((Finset.Ico start.toNat (2 ^ 32 - 1)).filter fun x =>
    powOk (BitVec.ofNat 32 x) = true).image (BitVec.ofNat 32))

theorem card_keptNonces : (keptNonces powOk start).card = solutionsFrom powOk start.toNat + 1 := by
  unfold keptNonces solutionsFrom
  have hvalue : ∀ x ∈ Finset.Ico start.toNat (2 ^ 32 - 1), (BitVec.ofNat 32 x).toNat = x := by
    intro x hx
    have hlt := (Finset.mem_Ico.mp hx).2
    exact Nat.mod_eq_of_lt (by omega)
  rw [Finset.card_insert_of_notMem, Finset.card_image_of_injOn]
  · intro x hx y hy hxy
    rw [← hvalue x (Finset.mem_filter.mp hx).1, ← hvalue y (Finset.mem_filter.mp hy).1, hxy]
  · intro hlast
    obtain ⟨x, hx, hxl⟩ := Finset.mem_image.mp hlast
    have hlt := (Finset.mem_Ico.mp (Finset.mem_filter.mp hx).1).2
    have hxv := hvalue x (Finset.mem_filter.mp hx).1
    rw [hxl] at hxv
    exact absurd hlt (by rw [← hxv]; decide)

theorem mem_keptNonces {x : BitVec 32} (h : x ∈ keptNonces powOk start) :
    (x = lastNonce ∨ powOk x = true) ∧ start.toNat ≤ x.toNat := by
  rcases Finset.mem_insert.mp h with rfl | h
  · exact ⟨.inl rfl, Nat.le_of_lt_succ start.isLt⟩
  · obtain ⟨y, hy, rfl⟩ := Finset.mem_image.mp h
    obtain ⟨hrange, hpow⟩ := Finset.mem_filter.mp hy
    obtain ⟨hstart, hlt⟩ := Finset.mem_Ico.mp hrange
    rw [BitVec.toNat_ofNat, Nat.mod_eq_of_lt (by omega)]
    exact ⟨.inr hpow, hstart⟩

omit [DecidableEq ι] in
/-- When a pass is complete, the last nonce and the solutions are all in the hands of
workers, and none of these is about to draw. -/
theorem WorkersInv.card_of_full (I : WorkersInv powOk max_tries start s)
    (hfull : start.toNat + drawn s = 2 ^ 32) {i : ι} (hi : s.workers i = .fetchAdd) :
    solutionsFrom powOk start.toNat + 1 < Fintype.card ι := by
  have hone : ∀ x ∈ keptNonces powOk start, count (holds x) s.workers = 1 := by
    intro x hx
    obtain ⟨hkept, hle⟩ := mem_keptNonces hx
    rw [I.kept x hkept, draws_of_le hfull.le, if_pos]
    exact ⟨hle, by have := x.isLt; omega⟩
  have hsum : (keptNonces powOk start).card ≤ count held s.workers := by
    have h : ∑ x ∈ keptNonces powOk start, count (holds x) s.workers ≤ count held s.workers :=
      sum_count_le Worker.nonce (keptNonces powOk start) s.workers
    rw [Finset.sum_congr rfl hone, ← Finset.card_eq_sum_ones] at h
    exact h
  have hfree : held (s.workers i) = false := by
    rw [hi]
    rfl
  rw [← card_keptNonces]
  exact hsum.trans_lt (count_lt_card hfree)

/-- **The counter does not wrap** when the workers cannot make it. -/
theorem drawn_le_of_cannotWrap (C : CannotWrap powOk max_tries (Fintype.card ι) start)
    (h : MiningReaches powOk max_tries start s) : start.toNat + drawn s ≤ 2 ^ 32 := by
  have hstart := start.isLt
  induction h with
  | refl =>
    rw [drawn_init]
    omega
  | tail hreach hstep ih =>
    have I := workersInv_of_reaches hreach
    have I' := workersInv_of_reaches (hreach.tail hstep)
    rcases C with htries | hbudget | hsolutions
    · have := I'.budget
      omega
    · have := I'.budget
      omega
    · rcases miningStep_cases hstep with ⟨i, w, g, M, rfl⟩ | rfl
      · have hdrawn := drawn_move rfl M
        rw [hdrawn]
        cases hfetch : (_ : Worker) == .fetchAdd with
        | false => exact ih
        | true =>
          -- a draw beyond the last nonce needs a worker that holds no solution
          have hfull := fun h => I.card_of_full h (beq_iff_eq.mp hfetch)
          rw [Bool.toNat_true]
          omega
      · exact ih

end Invariant

/-! ## A run that wraps the counter -/

section Wrapping

variable {ι : Type} [DecidableEq ι] {powOk : BitVec 32 → Bool} {max_tries : ℕ}
  {s : MiningSystem ι}

/-- One worker takes its turns while the others wait. -/
def Alone (powOk : BitVec 32 → Bool) (max_tries : ℕ) (a b : Worker × MiningShared) : Prop :=
  b = a.1.turn powOk max_tries a.2

theorem reaches_of_alone {i : ι} {w : Worker} {a : Worker × MiningShared} (hi : s.workers i = w)
    (h : ReflTransGen (Alone powOk max_tries) (w, s.shared) a) :
    ReflTransGen (MiningStep powOk max_tries) s
      ⟨a.2, Function.update s.workers i a.1⟩ := by
  induction h with
  | refl =>
    rw [← hi, Function.update_eq_self]
  | @tail a b _ hb ih =>
    have hturn : MiningSystem.turn powOk max_tries ⟨a.2, Function.update s.workers i a.1⟩ i =
        ⟨b.2, Function.update s.workers i b.1⟩ := by
      rw [hb]
      unfold MiningSystem.turn
      dsimp only
      rw [Function.update_self, Function.update_idem]
    exact ih.tail (hturn ▸ .turn _ i)

section Alone

variable (powOk) {g : MiningShared} (hfound : g.found = false)
  (hinterrupt : g.m_interrupt = false) (htries : g.tries_done < max_tries)

include hfound hinterrupt htries

theorem alone_draw :
    ReflTransGen (Alone powOk max_tries) (.loadFound, g)
      (.test g.next_nonce, { g with next_nonce := g.next_nonce + 1 }) := by
  have h₁ : Alone powOk max_tries (.loadFound, g) (.loadInterrupt, g) := by
    simp [Alone, Worker.turn, hfound]
  have h₂ : Alone powOk max_tries (.loadInterrupt, g) (.loadTries, g) := by
    simp [Alone, Worker.turn, hinterrupt]
  have h₃ : Alone powOk max_tries (.loadTries, g) (.fetchAdd, g) := by
    simp [Alone, Worker.turn, htries]
  exact (((ReflTransGen.single h₁).tail h₂).tail h₃).tail rfl

/-- It hashes the nonce unless it is the last one, and then stands before its next
access to what is shared. -/
theorem alone_hash (hlast : g.next_nonce ≠ lastNonce) :
    ReflTransGen (Alone powOk max_tries) (.loadFound, g)
      (if powOk g.next_nonce then .publish g.next_nonce else .count g.next_nonce,
        { g with next_nonce := g.next_nonce + 1, hashed := g.hashed ++ [g.next_nonce] }) := by
  refine (alone_draw powOk hfound hinterrupt htries).tail ?_
  cases hpow : powOk g.next_nonce <;> simp [Alone, Worker.turn, hlast, hpow]

theorem alone_count (hlast : g.next_nonce ≠ lastNonce) (hpow : powOk g.next_nonce = false) :
    ReflTransGen (Alone powOk max_tries) (.loadFound, g)
      (.loadFound, { g with
        next_nonce := g.next_nonce + 1
        hashed := g.hashed ++ [g.next_nonce]
        tries_done := g.tries_done + 1 }) := by
  have hhash := alone_hash powOk hfound hinterrupt htries hlast
  rw [hpow] at hhash
  exact hhash.tail rfl

end Alone

variable (powOk) in
theorem solutionsFrom_step {x : ℕ} (hx : x < 2 ^ 32 - 1) :
    solutionsFrom powOk x = solutionsFrom powOk (x + 1) + (powOk (BitVec.ofNat 32 x)).toNat := by
  unfold solutionsFrom
  rw [← Finset.insert_Ico_add_one_left_eq_Ico hx, Finset.filter_insert]
  cases hpow : powOk (BitVec.ofNat 32 x) with
  | false => rfl
  | true =>
    rw [if_pos rfl, Finset.card_insert_of_notMem (by simp)]
    rfl

variable (powOk) in
theorem solutionsFrom_le (x : ℕ) : solutionsFrom powOk x ≤ 2 ^ 32 - 1 - x := by
  have h := Finset.card_filter_le (Finset.Ico x (2 ^ 32 - 1))
    fun x => powOk (BitVec.ofNat 32 x) = true
  rw [Nat.card_Ico] at h
  exact h

/-- The workers of `F` wait at the top of the loop, with `r` nonces left from `x` on before the
last.  Of the workers `p` may keep what they draw, as many as there are solutions or more, and
the tries are enough for what they do not keep. -/
structure Frontier (powOk : BitVec 32 → Bool) (max_tries x r p : ℕ) (F : Finset ι)
    (s : MiningSystem ι) : Prop where
  left : x + r = 2 ^ 32 - 1
  next : s.shared.next_nonce = BitVec.ofNat 32 x
  found : s.shared.found = false
  interrupt : s.shared.m_interrupt = false
  idle : ∀ i ∈ F, s.workers i = .loadFound
  crew : p + 2 ≤ F.card
  solutions : solutionsFrom powOk x ≤ p
  budget : s.shared.tries_done + (r - p) < max_tries

variable {x r p : ℕ} {F : Finset ι}

omit [DecidableEq ι] in
theorem Frontier.next_ne_last (H : Frontier powOk max_tries x (r + 1) p F s) :
    s.shared.next_nonce ≠ lastNonce := by
  have hleft := H.left
  rw [H.next]
  intro hlast
  have hvalue := congrArg BitVec.toNat hlast
  rw [BitVec.toNat_ofNat, Nat.mod_eq_of_lt (by omega), lastNonce, BitVec.toNat_ofNat] at hvalue
  omega

/-- **At the last nonce two workers wrap the counter**: one draws the last nonce, the
other goes on with nonce zero. -/
theorem Frontier.wrap (H : Frontier powOk max_tries x 0 p F s) :
    ∃ s', ReflTransGen (MiningStep powOk max_tries) s s' ∧
      s'.shared.hashed = s.shared.hashed ++ [0#32] := by
  have hcrew := H.crew
  obtain ⟨i, hi, j, hj, hij⟩ := Finset.one_lt_card.mp (show 1 < F.card by omega)
  have htries : s.shared.tries_done < max_tries := by
    have := H.budget
    omega
  have hnext : s.shared.next_nonce + 1 = 0#32 := by
    rw [H.next, show x = 2 ^ 32 - 1 from H.left]
    rfl
  have hdraw := reaches_of_alone (H.idle i hi)
    (alone_draw powOk H.found H.interrupt htries)
  have hother : Function.update s.workers i (.test s.shared.next_nonce) j = .loadFound := by
    rw [Function.update_of_ne (Ne.symm hij)]
    exact H.idle j hj
  rw [hnext] at hdraw
  have hhash := alone_hash powOk (g := { s.shared with next_nonce := 0#32 }) H.found
    H.interrupt htries (show (0#32 : BitVec 32) ≠ lastNonce by decide)
  exact ⟨_, hdraw.trans (reaches_of_alone hother hhash), rfl⟩

/-- **A worker that keeps its nonce** leaves the tries as they are. -/
theorem Frontier.keep (H : Frontier powOk max_tries x (r + 1) (p + 1) F s)
    (hsolutions : solutionsFrom powOk (x + 1) ≤ p) :
    ∃ F' s', ReflTransGen (MiningStep powOk max_tries) s s' ∧
      s'.shared.hashed = s.shared.hashed ++ [BitVec.ofNat 32 x] ∧
      Frontier powOk max_tries (x + 1) r p F' s' := by
  have hcrew := H.crew
  have hbudget := H.budget
  obtain ⟨i, hi⟩ := Finset.card_pos.mp (show 0 < F.card by omega)
  have hrun := alone_hash powOk H.found H.interrupt (show _ < max_tries by omega)
    H.next_ne_last
  refine ⟨F.erase i, _, reaches_of_alone (H.idle i hi) hrun, by rw [H.next], ?_⟩
  refine ⟨?_, ?_, H.found, H.interrupt, ?_, ?_, hsolutions, ?_⟩
  · have := H.left
    omega
  · rw [BitVec.ofNat_add, ← H.next]
    rfl
  · intro j hj
    change Function.update _ _ _ j = _
    rw [Function.update_of_ne (Finset.ne_of_mem_erase hj)]
    exact H.idle j (Finset.mem_of_mem_erase hj)
  · rw [Finset.card_erase_of_mem hi]
    omega
  · dsimp only
    omega

/-- **A worker that counts its nonce** is back at the top of the loop. -/
theorem Frontier.count (H : Frontier powOk max_tries x (r + 1) p F s)
    (hpow : powOk (BitVec.ofNat 32 x) = false) (hp : p ≤ r) :
    ∃ s', ReflTransGen (MiningStep powOk max_tries) s s' ∧
      s'.shared.hashed = s.shared.hashed ++ [BitVec.ofNat 32 x] ∧
      Frontier powOk max_tries (x + 1) r p F s' := by
  have hcrew := H.crew
  have hbudget := H.budget
  have hleft := H.left
  obtain ⟨i, hi⟩ := Finset.card_pos.mp (show 0 < F.card by omega)
  have hrun := alone_count powOk H.found H.interrupt (show _ < max_tries by omega)
    H.next_ne_last (by rw [H.next]; exact hpow)
  refine ⟨_, reaches_of_alone (H.idle i hi) hrun, by rw [H.next], ?_⟩
  refine ⟨by omega, ?_, H.found, H.interrupt, ?_, H.crew, ?_, ?_⟩
  · rw [BitVec.ofNat_add, ← H.next]
    rfl
  · intro j hj
    change Function.update _ _ _ j = _
    rw [← H.idle i hi, Function.update_eq_self]
    exact (H.idle j hj).trans (H.idle i hi).symm
  · have hstep := solutionsFrom_step powOk (show x < 2 ^ 32 - 1 by omega)
    have hsolutions := H.solutions
    omega
  · dsimp only
    omega

/-- **From a frontier the workers wrap the counter.**  Induction on the nonces that are
left: a worker keeps its nonce if it is a solution or more workers may keep theirs than there are
solutions, and counts it otherwise. -/
theorem Frontier.exists_wrap (H : Frontier powOk max_tries x r p F s) :
    ∃ s', ReflTransGen (MiningStep powOk max_tries) s s' ∧
      s'.shared.hashed = s.shared.hashed ++ (List.range' x r).map (BitVec.ofNat 32) ++ [0#32] := by
  induction r generalizing x p F s with
  | zero =>
    obtain ⟨s', hrun, hhashed⟩ := H.wrap
    exact ⟨s', hrun, by rw [hhashed, List.range'_zero, List.map_nil, List.append_nil]⟩
  | succ r ih =>
    have hleft := H.left
    have hstep := solutionsFrom_step powOk (show x < 2 ^ 32 - 1 by omega)
    have hsolutions := H.solutions
    have hgoal : ∀ {F' : Finset ι} {p' : ℕ} {s₁ : MiningSystem ι},
        ReflTransGen (MiningStep powOk max_tries) s s₁ →
        s₁.shared.hashed = s.shared.hashed ++ [BitVec.ofNat 32 x] →
        Frontier powOk max_tries (x + 1) r p' F' s₁ →
        ∃ s', ReflTransGen (MiningStep powOk max_tries) s s' ∧
          s'.shared.hashed =
            s.shared.hashed ++ (List.range' x (r + 1)).map (BitVec.ofNat 32) ++ [0#32] := by
      intro F' p' s₁ hrun hhashed H'
      obtain ⟨s', hrun', hhashed'⟩ := ih H'
      refine ⟨s', hrun.trans hrun', ?_⟩
      rw [hhashed', hhashed, List.range'_succ, List.map_cons, List.append_assoc _ [_],
        List.singleton_append]
    by_cases hkeep : solutionsFrom powOk (x + 1) < p
    · obtain ⟨q, rfl⟩ := Nat.exists_eq_add_of_lt hkeep
      obtain ⟨F', s₁, hrun, hhashed, H'⟩ := H.keep (by omega)
      exact hgoal hrun hhashed H'
    · have hpow : powOk (BitVec.ofNat 32 x) = false := by
        rw [← Bool.toNat_eq_zero]
        omega
      have hle := solutionsFrom_le powOk (x + 1)
      obtain ⟨s₁, hrun, hhashed, H'⟩ := H.count hpow (by omega)
      exact hgoal hrun hhashed H'

end Wrapping

section Result

variable {powOk : BitVec 32 → Bool} {max_tries nthreads : ℕ} {start : BitVec 32}

/-- Workers that can wrap the counter get from the starting nonce over the last nonce to
nonce zero. -/
theorem exists_wrapped_run (h : ¬ CannotWrap powOk max_tries nthreads start) :
    ∃ s : MiningSystem (Fin nthreads), MiningReaches powOk max_tries start s ∧
      s.shared.hashed =
        (List.range' start.toNat (2 ^ 32 - 1 - start.toNat)).map (BitVec.ofNat 32) ++ [0#32] := by
  simp only [CannotWrap, not_or, not_lt] at h
  obtain ⟨htries, hreach, hcrew⟩ := h
  have hstart := start.isLt
  have H : Frontier powOk max_tries start.toNat (2 ^ 32 - 1 - start.toNat) (nthreads - 2)
      Finset.univ (.init (Fin nthreads) start) := by
    refine ⟨by omega, ?_, rfl, rfl, fun _ _ => rfl, ?_, by omega, ?_⟩
    · rw [BitVec.ofNat_toNat, BitVec.setWidth_eq]
      rfl
    · rw [Finset.card_univ, Fintype.card_fin]
      omega
    · change 0 + _ < _
      omega
  exact H.exists_wrap

theorem not_fresh_wrapped : ¬ FreshNonces start
    ((List.range' start.toNat (2 ^ 32 - 1 - start.toNat)).map (BitVec.ofNat 32) ++ [0#32]) := by
  rintro ⟨hnodup, hfrom⟩
  have hle : start ≤ 0#32 := hfrom 0#32 (List.mem_append_right _ (List.mem_singleton_self _))
  have hzero : start.toNat = 0 := Nat.le_zero.mp (BitVec.le_def.mp hle)
  rw [hzero] at hnodup
  refine (List.nodup_append.mp hnodup).2.2 0#32 ?_ 0#32 (List.mem_singleton_self _) rfl
  exact List.mem_map.mpr ⟨0, List.mem_range'_1.mpr ⟨le_rfl, by decide⟩, rfl⟩

variable (powOk max_tries nthreads start) in
/-- **When the workers hash fresh nonces only.**  Over every interleaving of the workers,
no nonce is hashed twice and none below the starting nonce, exactly when they cannot wrap the
counter.
SOURCE: src/src/rpc/mining.cpp:189-242 -/
theorem workers_fresh_iff_cannotWrap :
    (∀ s : MiningSystem (Fin nthreads), MiningReaches powOk max_tries start s →
      FreshNonces start s.shared.hashed) ↔ CannotWrap powOk max_tries nthreads start := by
  constructor
  · intro hfresh
    by_contra hwrap
    obtain ⟨s, hreach, hhashed⟩ := exists_wrapped_run hwrap
    exact not_fresh_wrapped (hhashed ▸ hfresh s hreach)
  · intro C s hreach
    rw [← Fintype.card_fin nthreads] at C
    exact (workersInv_of_reaches hreach).fresh (drawn_le_of_cannotWrap C hreach)

/-- **Two workers hash nonce zero again.**  With as many tries as there are nonces and no
solution among them, one worker stops at the last nonce and the other starts over; if the starting
nonce is one, nonce zero is below it.
SOURCE: src/src/rpc/mining.cpp:196-215 -/
theorem two_workers_start_over :
    (∃ s : MiningSystem (Fin 2), MiningReaches (fun _ => false) (2 ^ 32) 0#32 s ∧
      ¬ s.shared.hashed.Nodup) ∧
    ∃ s : MiningSystem (Fin 2), MiningReaches (fun _ => false) (2 ^ 32) 1#32 s ∧
      0#32 ∈ s.shared.hashed := by
  have hwrap : ∀ start : BitVec 32, ¬ CannotWrap (fun _ => false) (2 ^ 32) 2 start := by
    intro start
    simp [CannotWrap, solutionsFrom]
  constructor
  · obtain ⟨s, hreach, hhashed⟩ := exists_wrapped_run (hwrap 0#32)
    refine ⟨s, hreach, fun hnodup => not_fresh_wrapped ⟨hhashed ▸ hnodup, ?_⟩⟩
    exact fun x _ => BitVec.le_def.mpr (Nat.zero_le _)
  · obtain ⟨s, hreach, hhashed⟩ := exists_wrapped_run (hwrap 1#32)
    refine ⟨s, hreach, ?_⟩
    rw [hhashed]
    exact List.mem_append_right _ (List.mem_singleton_self _)

end Result

end BitMinti.Analysis
