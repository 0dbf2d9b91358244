import BitMinti.Computation.Threads
import BitMinti.Interface.CheckQueue

/-!
# The check queue does what it is for

`CheckInv` ties `nTodo` to the checks that are queued or in the hands of a thread, and every
failing check of the round to the place that still knows of it.  A result that a thread keeps
from an earlier round is harmless: the thread replaces it with its next check, or it skips its
checks because `m_result` is set, which stays so until the thread has reported back.

SOURCE: src/src/checkqueue.h:71-189
-/

set_option autoImplicit false

namespace BitMinti.Analysis

open Model Interface

variable {ι T R : Type}

/-! ## The invariant -/

/-- The checks a thread took and has not reported. -/
def pending (t : LoopLocals T R) : ℕ :=
  match t.pc with
  | .entering | .checking => t.nNow
  | .outside | .waiting => 0

/-- What holds of the locals of a thread. -/
structure LocalsInv (check : T → Option R) (m_result : Option R) (added : List T)
    (t : LoopLocals T R) : Prop where
  empty : t.pc ≠ .checking → t.vChecks = []
  took : t.pc = .checking → 0 < t.nNow
  skips : t.pc = .checking → t.do_work = false → m_result ≠ none
  done : t.pc = .checking → t.do_work = true → t.vChecks = [] → t.local_result = none
  reports : t.pc = .entering → t.nNow ≠ 0 → ∀ e, t.local_result = some e →
    m_result ≠ none ∨ ∃ c ∈ added, check c = some e
  held : ∀ c ∈ t.vChecks, c ∈ added

/-- A thread knows of a failing check: it is going to do it, or is about to report a failure. -/
def KnowsOf (c : T) (t : LoopLocals T R) : Prop :=
  (t.pc = .checking ∧ t.do_work = true ∧ c ∈ t.vChecks) ∨
    (t.pc = .entering ∧ t.nNow ≠ 0 ∧ t.local_result ≠ none)

/-- **What holds between two steps.** -/
structure CheckInv [Fintype ι] (master : ι) (check : T → Option R) (s : CheckSystem ι T R) :
    Prop where
  todo : s.shared.nTodo = s.shared.queue.length + ∑ i, pending (s.threads i)
  round : ∀ c ∈ s.shared.queue, c ∈ s.added
  result : ∀ e, s.shared.m_result = some e → ∃ c ∈ s.added, check c = some e
  locals : ∀ i, LocalsInv check s.shared.m_result s.added (s.threads i)
  known : ∀ c ∈ s.added, check c ≠ none →
    c ∈ s.shared.queue ∨ s.shared.m_result ≠ none ∨ ∃ i, KnowsOf c (s.threads i)
  running : (s.threads master).pc ≠ .outside → s.shared.m_request_stop = false

section Locals

variable {check : T → Option R} {m_result : Option R} {added : List T} {t : LoopLocals T R}

theorem LocalsInv.of_quiet (hpc : t.pc ≠ .checking) (hempty : t.vChecks = [])
    (hnothing : t.pc = .entering → t.nNow = 0) : LocalsInv check m_result added t where
  empty _ := hempty
  took h := absurd h hpc
  skips h := absurd h hpc
  done h := absurd h hpc
  reports h hnow := absurd (hnothing h) hnow
  held c hc := by
    rw [hempty] at hc
    cases hc

/-- **A system with nothing to do** is in order. -/
theorem CheckInv.of_idle [Fintype ι] {master : ι} {s : CheckSystem ι T R}
    (hqueue : s.shared.queue = []) (htodo : s.shared.nTodo = 0) (hresult : s.shared.m_result = none)
    (hadded : s.added = []) (hthreads : ∀ i, (s.threads i).pc ≠ .checking ∧
      (s.threads i).vChecks = [] ∧ ((s.threads i).pc = .entering → (s.threads i).nNow = 0))
    (hrunning : (s.threads master).pc ≠ .outside → s.shared.m_request_stop = false) :
    CheckInv master check s where
  todo := by
    have hzero : ∀ i, pending (s.threads i) = 0 := by
      intro i
      cases hpc : (s.threads i).pc with
      | outside | waiting => rw [pending, hpc]
      | entering => rw [pending, hpc, (hthreads i).2.2 hpc]
      | checking => exact absurd hpc (hthreads i).1
    simp [hqueue, htodo, hzero]
  round := by simp [hqueue]
  result := by simp [hresult]
  locals i := .of_quiet (hthreads i).1 (hthreads i).2.1 (hthreads i).2.2
  known := by simp [hadded]
  running := hrunning

theorem LocalsInv.mono (L : LocalsInv check m_result added t) {m_result' : Option R}
    {added' : List T} (hresult : m_result ≠ none → m_result' ≠ none)
    (hadded : ∀ c ∈ added, c ∈ added') : LocalsInv check m_result' added' t where
  empty := L.empty
  took := L.took
  skips hpc hwork := hresult (L.skips hpc hwork)
  done := L.done
  reports hpc hnow e he := by
    rcases L.reports hpc hnow e he with hset | ⟨c, hc, hce⟩
    · exact .inl (hresult hset)
    · exact .inr ⟨c, hadded c hc, hce⟩
  held c hc := hadded c (L.held c hc)

theorem KnowsOf.pc {c : T} (h : KnowsOf c t) : t.pc = .checking ∨ t.pc = .entering :=
  h.imp And.left And.left

/-- **What `runCheck` can do**: a check that fails, one that passes, or no check. -/
theorem runCheck_cases (check : T → Option R) (t : LoopLocals T R) :
    (∃ c rest, t.do_work = true ∧ t.vChecks = c :: rest ∧ check c ≠ none ∧ runCheck check t =
        { t with pc := .entering, vChecks := [], local_result := check c }) ∨
      (∃ c rest, t.do_work = true ∧ t.vChecks = c :: rest ∧ check c = none ∧
        runCheck check t = { t with vChecks := rest, local_result := none }) ∨
      ((t.do_work = false ∨ t.vChecks = []) ∧
        runCheck check t = { t with pc := .entering, vChecks := [] }) := by
  obtain ⟨pc, vChecks, nNow, local_result, do_work⟩ := t
  cases do_work with
  | false => exact .inr (.inr ⟨.inl rfl, rfl⟩)
  | true =>
    cases vChecks with
    | nil => exact .inr (.inr ⟨.inr rfl, rfl⟩)
    | cons c rest =>
      cases hc : check c with
      | none =>
        refine .inr (.inl ⟨c, rest, rfl, rfl, hc, ?_⟩)
        simp only [runCheck, hc, Option.isSome_none, Bool.false_eq_true, if_false]
      | some e =>
        refine .inl ⟨c, rest, rfl, rfl, by simp [hc], ?_⟩
        simp only [runCheck, hc, Option.isSome_some, if_true]

/-- **One check** keeps the locals in order, and nothing is forgotten. -/
theorem LocalsInv.runCheck (L : LocalsInv check m_result added t) (hpc : t.pc = .checking) :
    LocalsInv check m_result added (runCheck check t) ∧
      pending (runCheck check t) = pending t ∧
      ∀ c, check c ≠ none → KnowsOf c t → m_result ≠ none ∨ KnowsOf c (runCheck check t) := by
  have hnow := L.took hpc
  have hpend : pending t = t.nNow := by rw [pending, hpc]
  have hknows : ∀ d, KnowsOf d t → t.do_work = true ∧ d ∈ t.vChecks := by
    rintro d (⟨-, h⟩ | ⟨hentering, -⟩)
    · exact h
    · rw [hpc] at hentering
      cases hentering
  rcases runCheck_cases check t with ⟨c, rest, hwork, hchecks, hfails, heq⟩ |
    ⟨c, rest, hwork, hchecks, hpasses, heq⟩ | ⟨hend, heq⟩
  · -- the check fails: its result is reported, and the rest is dropped
    have hc : c ∈ added := L.held c (by rw [hchecks]; exact List.mem_cons_self)
    rw [heq, hpend]
    refine ⟨⟨fun _ => rfl, by simp, by simp, by simp, fun _ _ e he => .inr ⟨c, hc, he⟩, by simp⟩,
      rfl, fun d _ _ => .inr (.inr ⟨rfl, hnow.ne', hfails⟩)⟩
  · rw [heq, hpend]
    refine ⟨⟨fun h => absurd hpc h, fun _ => hnow, fun _ => L.skips hpc, fun _ _ _ => rfl,
      fun _ _ _ he => (Option.some_ne_none _ he.symm).elim, fun d hd => ?_⟩, by rw [pending, hpc],
      fun d hd hk => ?_⟩
    · exact L.held d (by rw [hchecks]; exact List.mem_cons_of_mem c hd)
    · obtain ⟨-, hmem⟩ := hknows d hk
      rw [hchecks, List.mem_cons] at hmem
      rcases hmem with rfl | hmem
      · exact absurd hpasses hd
      · exact .inr (.inl ⟨hpc, hwork, hmem⟩)
  · -- no work to do, or none left
    rw [heq, hpend]
    refine ⟨⟨fun _ => rfl, by simp, by simp, by simp, fun _ _ e he => ?_, by simp⟩, rfl,
      fun d _ hk => ?_⟩
    · cases hwork : t.do_work with
      | false => exact .inl (L.skips hpc hwork)
      | true =>
        rw [hwork] at hend
        change t.local_result = some e at he
        rw [L.done hpc hwork (hend.resolve_left (by simp))] at he
        cases he
    · obtain ⟨hwork, hmem⟩ := hknows d hk
      rcases hend with hskip | hnil
      · rw [hwork] at hskip
        cases hskip
      · rw [hnil] at hmem
        cases hmem

end Locals

/-! ## Turns -/

section Turns

variable [Fintype ι] [DecidableEq ι] {master i : ι} {nBatchSize : ℕ} {check : T → Option R}
  {s s' : CheckSystem ι T R}

/-- **A section or a check of one thread keeps the invariant** when the counts agree
and no failing check is forgotten. -/
theorem CheckInv.put (I : CheckInv master check s) {q : CCheckQueue T R} {t : LoopLocals T R}
    (htodo : q.nTodo + s.shared.queue.length + pending (s.threads i) =
      s.shared.nTodo + q.queue.length + pending t)
    (hround : ∀ c ∈ q.queue, c ∈ s.shared.queue)
    (hresult : ∀ e, q.m_result = some e →
      s.shared.m_result = some e ∨ ∃ c ∈ s.added, check c = some e)
    (hset : s.shared.m_result ≠ none → q.m_result ≠ none)
    (L : LocalsInv check q.m_result s.added t)
    (hqueue : ∀ c ∈ s.shared.queue, c ∈ q.queue ∨ q.m_result ≠ none ∨ KnowsOf c t)
    (hknows : ∀ c, check c ≠ none → KnowsOf c (s.threads i) → q.m_result ≠ none ∨ KnowsOf c t)
    (hrunning : (Function.update s.threads i t master).pc ≠ .outside → q.m_request_stop = false) :
    CheckInv master check
      { s with shared := q, threads := Function.update s.threads i t } where
  todo := by
    have hsum := Computation.Threads.sum_update pending s.threads i t
    have hold := I.todo
    dsimp only
    omega
  round c hc := I.round c (hround c hc)
  result e he := by
    rcases hresult e he with hold | hnew
    · exact I.result e hold
    · exact hnew
  locals j := by
    by_cases hj : j = i
    · subst hj
      simpa using L
    · simpa [Function.update_of_ne hj] using (I.locals j).mono hset fun _ hc => hc
  known c hc hfails := by
    rcases I.known c hc hfails with hqueued | hold | ⟨j, hj⟩
    · rcases hqueue c hqueued with hkept | hnew | ht
      · exact .inl hkept
      · exact .inr (.inl hnew)
      · exact .inr (.inr ⟨i, by simpa using ht⟩)
    · exact .inr (.inl (hset hold))
    · by_cases hji : j = i
      · subst hji
        rcases hknows c hfails hj with hnew | ht
        · exact .inr (.inl hnew)
        · exact .inr (.inr ⟨j, by simpa using ht⟩)
      · exact .inr (.inr ⟨j, by simpa [Function.update_of_ne hji] using hj⟩)
  running := hrunning

theorem KnowsOf.not_waiting {c : T} {t : LoopLocals T R} (hpc : t.pc = .waiting) :
    ¬ KnowsOf c t := by
  intro h
  rcases h.pc with h | h
  · rw [hpc] at h
    cases h
  · rw [hpc] at h
    cases h

/-- **What the clean-up does**: it reports what the thread took, with a failure unless there was
one before. -/
theorem cleanUp_spec (t : LoopLocals T R) (q : CCheckQueue T R) :
    (cleanUp t q).1.vChecks = t.vChecks ∧ (cleanUp t q).2.queue = q.queue ∧
      (cleanUp t q).2.nTodo = q.nTodo - t.nNow ∧
      (cleanUp t q).2.m_request_stop = q.m_request_stop ∧
      (cleanUp t q).2.m_result = q.m_result.or (if t.nNow = 0 then none else t.local_result) := by
  unfold cleanUp
  by_cases hnow : t.nNow = 0
  · simp [hnow]
  · cases hlocal : t.local_result <;> cases hresult : q.m_result <;> simp [hnow, hresult]

theorem CheckInv.running_update (I : CheckInv master check s) (hpc : (s.threads i).pc ≠ .outside)
    (t : LoopLocals T R) (h : (Function.update s.threads i t master).pc ≠ .outside) :
    s.shared.m_request_stop = false := by
  apply I.running
  by_cases hmaster : i = master
  · subst hmaster
    exact hpc
  · rwa [Function.update_of_ne (Ne.symm hmaster)] at h

omit [DecidableEq ι] in
theorem CheckInv.pending_le (I : CheckInv master check s) (i : ι) :
    pending (s.threads i) + s.shared.queue.length ≤ s.shared.nTodo := by
  have hle : pending (s.threads i) ≤ ∑ j, pending (s.threads j) :=
    Finset.single_le_sum (fun j _ => Nat.zero_le (pending (s.threads j))) (Finset.mem_univ i)
  have htodo := I.todo
  omega

/-- **After the clean-up** the thread has reported all it took, as if it had waited. -/
theorem CheckInv.cleanUp (I : CheckInv master check s) (hpc : (s.threads i).pc = .entering) :
    CheckInv master check
      { s with
        shared := (cleanUp (s.threads i) s.shared).2
        threads := Function.update s.threads i
          { (cleanUp (s.threads i) s.shared).1 with pc := .waiting } } := by
  have L := I.locals i
  have hle := I.pending_le i
  have hpend : pending (s.threads i) = (s.threads i).nNow := by rw [pending, hpc]
  obtain ⟨hchecks, hqueue, htodo, hstop, hresult⟩ := cleanUp_spec (s.threads i) s.shared
  refine I.put ?_ (by simp [hqueue]) (fun e he => ?_) ?_ ?_ (fun c hc => .inl (hqueue ▸ hc)) ?_ ?_
  · change _ = s.shared.nTodo + (Model.cleanUp _ _).2.queue.length + 0
    rw [hqueue, htodo]
    omega
  · rw [hresult, Option.or_eq_some_iff] at he
    refine he.imp_right fun h => ?_
    split_ifs at h with hnow
    · cases h.2
    · exact (L.reports hpc hnow e h.2).resolve_left (absurd h.1)
  · rw [hresult]
    exact fun hset => by simp [hset]
  · exact .of_quiet (by simp) (hchecks.trans (L.empty (by rw [hpc]; decide))) (by simp)
  · rintro c - (⟨hchecking, -⟩ | ⟨-, hnow, hlocal⟩)
    · rw [hpc] at hchecking
      cases hchecking
    · rw [hresult, if_neg hnow]
      exact .inl (by simp [hlocal])
  · rw [hstop]
    exact I.running_update (by rw [hpc]; decide) _

theorem batchLength_bounds {q : CCheckQueue T R} (hqueue : q.queue ≠ []) :
    0 < batchLength nBatchSize q ∧ batchLength nBatchSize q ≤ q.queue.length := by
  have hpos := List.length_pos_iff.mpr hqueue
  have hdiv := Nat.div_le_self q.queue.length (q.nTotal + q.nIdle + 1).toNat
  unfold batchLength
  omega

/-- **Taking checks off the queue** keeps the invariant. -/
theorem CheckInv.takeBatch (I : CheckInv master check s) (hpc : (s.threads i).pc = .waiting)
    (hqueue : s.shared.queue ≠ []) :
    CheckInv master check
      { s with
        shared := (takeBatch nBatchSize (s.threads i) s.shared).2
        threads := Function.update s.threads i (takeBatch nBatchSize (s.threads i) s.shared).1 } := by
  obtain ⟨hpos, hle⟩ := @batchLength_bounds _ _ nBatchSize _ hqueue
  have hpend : pending (s.threads i) = 0 := by rw [pending, hpc]
  have hsplit := List.take_append_drop (s.shared.queue.length - batchLength nBatchSize s.shared)
    s.shared.queue
  unfold Model.takeBatch
  refine I.put ?_ (fun _ hc => List.mem_of_mem_take hc) (fun _ => .inl) id ?_ ?_
    (fun c _ hk => absurd hk (KnowsOf.not_waiting hpc)) (I.running_update (by rw [hpc]; decide) _)
  · change s.shared.nTodo + _ + _ = s.shared.nTodo + (s.shared.queue.take _).length +
      batchLength nBatchSize s.shared
    rw [List.length_take]
    omega
  · refine ⟨by simp, fun _ => hpos, ?_, ?_, by simp, fun c hc => ?_⟩
    · intro _ hwork
      simpa [Option.isNone_eq_false_iff, Option.isSome_iff_ne_none] using hwork
    · intro _ _ hnil
      have hlen := congrArg List.length hnil
      rw [List.length_drop, List.length_nil] at hlen
      omega
    · exact I.round c (List.mem_of_mem_drop hc)
  · intro c hc
    rw [← hsplit, List.mem_append] at hc
    rcases hc with hc | hc
    · exact .inl hc
    · cases hresult : s.shared.m_result with
      | none => exact .inr (.inr (.inl ⟨rfl, by simp, hc⟩))
      | some e => exact .inr (.inl (by simp))

/-- **How a section ends**: the master returns, the thread waits, it returns because
the queue is destroyed, or it takes checks. -/
theorem loopHead_cases (nBatchSize : ℕ) (fMaster : Bool) (t : LoopLocals T R)
    (q : CCheckQueue T R) :
    (q.queue = [] ∧ fMaster = true ∧ q.nTodo = 0 ∧ loopHead nBatchSize fMaster t q =
        ({}, { q with nTotal := q.nTotal - 1, m_result := none }, some q.m_result)) ∨
      (q.queue = [] ∧ (fMaster = false ∨ q.nTodo ≠ 0) ∧ loopHead nBatchSize fMaster t q =
        ({ t with pc := .waiting }, { q with nIdle := q.nIdle + 1 }, none)) ∨
      (q.m_request_stop = true ∧ loopHead nBatchSize fMaster t q = ({}, q, some none)) ∨
      (q.queue ≠ [] ∧ loopHead nBatchSize fMaster t q =
        ((takeBatch nBatchSize t q).1, (takeBatch nBatchSize t q).2, none)) := by
  unfold loopHead
  split
  · rename_i hempty
    rw [Bool.and_eq_true, List.isEmpty_iff] at hempty
    split
    · rename_i hreturn
      rw [Bool.and_eq_true, beq_iff_eq] at hreturn
      exact .inl ⟨hempty.1, hreturn.1, hreturn.2, rfl⟩
    · rename_i hwait
      rw [Bool.and_eq_true, beq_iff_eq] at hwait
      refine .inr (.inl ⟨hempty.1, ?_, rfl⟩)
      cases fMaster with
      | false => exact .inl rfl
      | true => exact .inr fun hzero => hwait ⟨rfl, hzero⟩
  · rename_i hgo
    split
    · rename_i hstop
      exact .inr (.inr (.inl ⟨hstop, rfl⟩))
    · rename_i hstop
      refine .inr (.inr (.inr ⟨fun hnil => hgo ?_, rfl⟩))
      simp [hnil, hstop]

theorem loopHead_pc (fMaster : Bool) (t : LoopLocals T R) (pc : LoopPc) (q : CCheckQueue T R) :
    loopHead nBatchSize fMaster { t with pc := pc } q = loopHead nBatchSize fMaster t q := rfl

omit [DecidableEq ι] in
theorem CheckInv.setIdle (I : CheckInv master check s) (nIdle : ℤ) :
    CheckInv master check { s with shared := { s.shared with nIdle := nIdle } } :=
  ⟨I.todo, I.round, I.result, I.locals, I.known, I.running⟩

omit [DecidableEq ι] in
theorem CheckInv.idle (I : CheckInv master check s) (htodo : s.shared.nTodo = 0) (j : ι) :
    (s.threads j).pc ≠ .checking ∧ (s.threads j).vChecks = [] ∧
      ((s.threads j).pc = .entering → (s.threads j).nNow = 0) := by
  have hzero : pending (s.threads j) = 0 := by
    have := I.pending_le j
    omega
  have hpc : (s.threads j).pc ≠ .checking := by
    intro hchecking
    have htook := (I.locals j).took hchecking
    rw [pending, hchecking] at hzero
    exact htook.ne' hzero
  refine ⟨hpc, (I.locals j).empty hpc, fun hentering => ?_⟩
  rwa [pending, hentering] at hzero

omit [DecidableEq ι] in
/-- **With nothing to do, `m_result` is the result of the round.** -/
theorem CheckInv.roundResult (I : CheckInv master check s) (hqueue : s.shared.queue = [])
    (htodo : s.shared.nTodo = 0) : RoundResult check s.added s.shared.m_result where
  passes := by
    constructor
    · intro hnone c hc
      by_contra hfails
      rcases I.known c hc hfails with hqueued | hset | ⟨j, hj⟩
      · rw [hqueue] at hqueued
        cases hqueued
      · exact hset hnone
      · obtain ⟨hpc, -, hnow⟩ := I.idle htodo j
        rcases hj with ⟨hchecking, -⟩ | ⟨hentering, hne, -⟩
        · exact hpc hchecking
        · exact hne (hnow hentering)
    · intro hall
      by_contra hset
      obtain ⟨e, he⟩ := Option.ne_none_iff_exists'.mp hset
      obtain ⟨c, hc, hce⟩ := I.result e he
      rw [hall c hc] at hce
      cases hce
  fails := I.result

omit [Fintype ι] in
theorem endSection_of_not_returned {e : SectionEnd T R} (h : ¬(i = master ∧ e.2.2.isSome)) :
    s.endSection master i e =
      { shared := e.2.1, threads := Function.update s.threads i e.1, added := s.added } := by
  rw [CheckSystem.endSection, if_neg h]

/-- **The rest of a section** keeps the invariant, and `Complete` returns the result of
the round. -/
theorem CheckInv.loopHead (I : CheckInv master check s) (hpc : (s.threads i).pc = .waiting)
    {e : SectionEnd T R} (he : loopHead nBatchSize (i = master) (s.threads i) s.shared = e) :
    CheckInv master check (s.endSection master i e) ∧
      ∀ r, i = master → e.2.2 = some r →
        RoundResult check s.added r ∧ NoChecksLeft (s.endSection master i e) := by
  have hempty := (I.locals i).empty (by rw [hpc]; decide)
  have hpend : pending (s.threads i) = 0 := by rw [pending, hpc]
  have hrest : ∀ t : LoopLocals T R, t.vChecks = [] → t.pc = .waiting ∨ t.pc = .outside →
      CheckInv master check { s with threads := Function.update s.threads i t } := by
    intro t ht hquiet
    refine I.put ?_ (fun _ hc => hc) (fun _ => .inl) id ?_ (fun _ hc => .inl hc)
      (fun c _ hk => absurd hk (KnowsOf.not_waiting hpc)) (I.running_update (by rw [hpc]; decide) _)
    · rcases hquiet with h | h <;> rw [hpend, pending, h]
    · refine .of_quiet ?_ ht ?_ <;> rcases hquiet with h | h <;> simp [h]
  rcases loopHead_cases nBatchSize (i = master) (s.threads i) s.shared with
    ⟨hqueue, hmaster, htodo, heq⟩ | ⟨hqueue, -, heq⟩ | ⟨hstop, heq⟩ | ⟨hqueue, heq⟩
  · -- `Complete` returns, and a new round starts
    obtain rfl := of_decide_eq_true hmaster
    obtain rfl := heq.symm.trans he
    have hthreads : ∀ j, (Function.update s.threads i {} j).pc ≠ .checking ∧
        (Function.update s.threads i {} j).vChecks = [] ∧
        ((Function.update s.threads i {} j).pc = .entering →
          (Function.update s.threads i {} j).nNow = 0) := by
      intro j
      by_cases hj : j = i
      · subst hj
        simp
      · rw [Function.update_of_ne hj]
        exact I.idle htodo j
    constructor
    · refine .of_idle hqueue htodo rfl (if_pos ⟨rfl, rfl⟩) hthreads fun h => ?_
      change (Function.update s.threads i {} i).pc ≠ .outside at h
      simp at h
    · rintro r - hr
      obtain rfl := Option.some_inj.mp hr
      exact ⟨I.roundResult hqueue htodo, hqueue, fun j => ⟨(hthreads j).1, (hthreads j).2.1⟩⟩
  · obtain rfl := heq.symm.trans he
    refine ⟨?_, fun _ _ h => by cases h⟩
    rw [endSection_of_not_returned (by simp)]
    exact (hrest { s.threads i with pc := .waiting } hempty (.inl rfl)).setIdle
      (s.shared.nIdle + 1)
  · have hworker : i ≠ master := by
      rintro rfl
      rw [I.running (by rw [hpc]; decide)] at hstop
      cases hstop
    obtain rfl := heq.symm.trans he
    refine ⟨?_, fun _ h => absurd h hworker⟩
    rw [endSection_of_not_returned (by simp [hworker])]
    exact hrest {} rfl (.inr rfl)
  · obtain rfl := heq.symm.trans he
    refine ⟨?_, fun _ _ h => by cases h⟩
    rw [endSection_of_not_returned (by simp)]
    exact I.takeBatch hpc hqueue

/-- **Every turn** keeps the invariant, and `Complete` returns the result of the round. -/
theorem CheckInv.turn (I : CheckInv master check s) {r : Option (Option R)}
    (h : s.turn master nBatchSize check i = some (s', r)) :
    CheckInv master check s' ∧
      ∀ v, i = master → r = some v → RoundResult check s.added v ∧ NoChecksLeft s' := by
  unfold CheckSystem.turn at h
  cases hpc : (s.threads i).pc with
  | outside =>
    rw [hpc] at h
    cases h
  | entering =>
    rw [hpc] at h
    obtain ⟨rfl, rfl⟩ := Prod.mk.inj (Option.some_inj.mp h)
    -- the clean-up first, then the rest as after a wait
    have I₁ := I.cleanUp hpc
    rw [lockSection]
    generalize Model.cleanUp (s.threads i) s.shared = c at I₁ ⊢
    obtain ⟨t, q⟩ := c
    have hend := I₁.loopHead (by simp) (rfl : Model.loopHead nBatchSize (i = master) _ _ = _)
    simp only [Function.update_self, loopHead_pc, CheckSystem.endSection,
      Function.update_idem] at hend
    exact hend
  | waiting =>
    rw [hpc] at h
    obtain ⟨rfl, rfl⟩ := Prod.mk.inj (Option.some_inj.mp h)
    exact (I.setIdle (s.shared.nIdle - 1)).loopHead hpc rfl
  | checking =>
    rw [hpc] at h
    obtain ⟨rfl, rfl⟩ := Prod.mk.inj (Option.some_inj.mp h)
    obtain ⟨L, hpending, hknows⟩ := (I.locals i).runCheck hpc
    refine ⟨I.put (by rw [hpending]) (fun _ hc => hc) (fun _ => .inl) id L (fun _ hc => .inl hc)
      hknows (I.running_update (by rw [hpc]; decide) _), fun _ _ h => by cases h⟩

end Turns

/-! ## Runs -/

section Runs

variable [Fintype ι] [DecidableEq ι] {master : ι} {nBatchSize : ℕ} {check : T → Option R}
  {s s' : CheckSystem ι T R}

theorem CheckInv.init : CheckInv master check (.init master) := by
  refine .of_idle rfl rfl rfl rfl (fun i => ?_) fun _ => rfl
  simp only [CheckSystem.init]
  split <;> simp [LoopLocals.call]

omit [DecidableEq ι] in
theorem CheckInv.add (I : CheckInv master check s) (vChecks : List T) :
    CheckInv master check
      { s with shared := s.shared.add vChecks, added := s.added ++ vChecks } := by
  have hqueue : (s.shared.add vChecks).queue = s.shared.queue ++ vChecks ∧
      (s.shared.add vChecks).nTodo = s.shared.nTodo + vChecks.length ∧
      (s.shared.add vChecks).m_result = s.shared.m_result ∧
      (s.shared.add vChecks).m_request_stop = s.shared.m_request_stop := by
    unfold CCheckQueue.add
    split
    · rename_i hempty
      rw [List.isEmpty_iff.mp hempty, List.append_nil]
      exact ⟨rfl, rfl, rfl, rfl⟩
    · exact ⟨rfl, rfl, rfl, rfl⟩
  obtain ⟨hq, htodo, hresult, hstop⟩ := hqueue
  have hsub : ∀ c ∈ s.added, c ∈ s.added ++ vChecks := fun _ => List.mem_append_left _
  refine ⟨?_, ?_, ?_, ?_, ?_, ?_⟩
  · have hold := I.todo
    dsimp only
    rw [hq, htodo, List.length_append]
    omega
  · intro c hc
    dsimp only at hc ⊢
    rw [hq, List.mem_append] at hc
    exact List.mem_append.mpr (hc.imp_left (I.round c))
  · intro e he
    dsimp only at he ⊢
    rw [hresult] at he
    obtain ⟨c, hc, hce⟩ := I.result e he
    exact ⟨c, hsub c hc, hce⟩
  · intro i
    dsimp only
    rw [hresult]
    exact (I.locals i).mono id hsub
  · intro c hc hfails
    dsimp only at hc ⊢
    rw [hq, hresult, List.mem_append]
    rcases List.mem_append.mp hc with hc | hc
    · rcases I.known c hc hfails with hqueued | hset | hknows
      · exact .inl (.inl hqueued)
      · exact .inr (.inl hset)
      · exact .inr (.inr hknows)
    · exact .inl (.inr hc)
  · dsimp only
    rw [hstop]
    exact I.running

/-- **Every step keeps the invariant.** -/
theorem CheckInv.step (I : CheckInv master check s) (h : CheckStep master nBatchSize check s s') :
    CheckInv master check s' := by
  cases h with
  | turn i h => exact (I.turn h).1
  | add vChecks h => exact I.add vChecks
  | complete h =>
    refine I.put ?_ (fun _ hc => hc) (fun _ => .inl) id ?_ (fun _ hc => .inl hc) ?_ fun _ => h.2
    · rw [pending, h.1]
      rfl
    · exact .of_quiet (by simp [LoopLocals.call]) rfl fun _ => rfl
    · intro c _ hk
      rcases hk.pc with hpc | hpc <;> simp [h.1] at hpc
  | stop h hadded => exact ⟨I.todo, I.round, I.result, I.locals, I.known, fun hpc => absurd h.1 hpc⟩

/-- What a thread has left to do before it waits. -/
def effort (t : LoopLocals T R) : ℕ :=
  match t.pc with
  | .outside | .waiting => 0
  | .entering => 1
  | .checking => t.vChecks.length + 2

/-- What is left to do; a queued check still has to be taken. -/
def remainingEffort (s : CheckSystem ι T R) : ℕ :=
  4 * s.shared.queue.length + ∑ i, effort (s.threads i)

/-- The master is in `Complete`, in the same round. -/
structure Advances (master : ι) (s s' : CheckSystem ι T R) : Prop where
  less : remainingEffort s' < remainingEffort s
  inside : (s'.threads master).pc ≠ .outside
  round : s'.added = s.added

theorem Advances.of_turn {i : ι} {q : CCheckQueue T R} {t : LoopLocals T R}
    (hmaster : (s.threads master).pc ≠ .outside) (hpc : t.pc ≠ .outside)
    (hless : 4 * q.queue.length + effort t < 4 * s.shared.queue.length + effort (s.threads i)) :
    Advances master s { s with shared := q, threads := Function.update s.threads i t } where
  less := by
    have hsum := Computation.Threads.sum_update effort s.threads i t
    unfold remainingEffort
    dsimp only
    omega
  inside := by
    dsimp only
    by_cases hi : i = master
    · subst hi
      rwa [Function.update_self]
    · rwa [Function.update_of_ne (Ne.symm hi)]
  round := rfl

theorem effort_takeBatch (t : LoopLocals T R) {q : CCheckQueue T R} (hqueue : q.queue ≠ []) :
    4 * (takeBatch nBatchSize t q).2.queue.length + effort (takeBatch nBatchSize t q).1 <
      4 * q.queue.length := by
  obtain ⟨hpos, hle⟩ := @batchLength_bounds _ _ nBatchSize _ hqueue
  simp only [takeBatch, effort, List.length_take, List.length_drop]
  omega

/-- **A section of a thread** that was about to enter, or of the master when all others
wait, returns from `Complete` or leaves less to do. -/
theorem loopHead_advances (nBatchSize : ℕ) {i : ι} (t : LoopLocals T R) {q : CCheckQueue T R}
    (hmaster : (s.threads master).pc ≠ .outside)
    (hstop : q.m_request_stop = false) (hqueue : q.queue = s.shared.queue)
    (hwaits : q.queue = [] → (i = master → q.nTodo ≠ 0) → 0 < effort (s.threads i)) :
    (∃ r, i = master ∧ (loopHead nBatchSize (i = master) t q).2.2 = some r) ∨
      ((loopHead nBatchSize (i = master) t q).2.2 = none ∧
        Advances master s (s.endSection master i (loopHead nBatchSize (i = master) t q))) := by
  rcases loopHead_cases nBatchSize (i = master) t q with
    ⟨-, hi, -, heq⟩ | ⟨hnil, hnot, heq⟩ | ⟨hstopped, -⟩ | ⟨hne, heq⟩
  · exact .inl ⟨q.m_result, of_decide_eq_true hi, by rw [heq]⟩
  · right
    rw [heq]
    refine ⟨rfl, ?_⟩
    have hpos := hwaits hnil fun hi => hnot.resolve_left (by simp [hi])
    rw [endSection_of_not_returned (by simp)]
    refine .of_turn hmaster (by simp) ?_
    change 4 * q.queue.length + 0 < _
    rw [hqueue]
    omega
  · rw [hstop] at hstopped
    cases hstopped
  · right
    rw [heq]
    refine ⟨rfl, ?_⟩
    have hless := @effort_takeBatch _ _ nBatchSize t q hne
    rw [endSection_of_not_returned (by simp)]
    refine .of_turn hmaster (by simp [takeBatch]) ?_
    rw [← hqueue]
    dsimp only
    omega

omit [Fintype ι] in
/-- A turn under the mutex ends with the rest of a section. -/
theorem turn_section {i : ι} (h : (s.threads i).pc = .entering ∨ (s.threads i).pc = .waiting) :
    ∃ t q, s.turn master nBatchSize check i = some
        (s.endSection master i (loopHead nBatchSize (i = master) t q),
          (loopHead nBatchSize (i = master) t q).2.2) ∧
      q.m_request_stop = s.shared.m_request_stop ∧ q.queue = s.shared.queue ∧
      q.nTodo ≤ s.shared.nTodo := by
  unfold CheckSystem.turn
  rcases h with h | h
  · obtain ⟨-, hqueue, htodo, hstop, -⟩ := cleanUp_spec (s.threads i) s.shared
    exact ⟨_, _, by rw [h]; rfl, hstop, hqueue, htodo ▸ Nat.sub_le _ _⟩
  · exact ⟨s.threads i, { s.shared with nIdle := s.shared.nIdle - 1 }, by rw [h]; rfl, rfl, rfl,
      le_rfl⟩

/-- **While the master is in `Complete` some thread can go on**: `Complete` returns, or
less is left to do. -/
theorem CheckInv.advance (I : CheckInv master check s) (hmaster : (s.threads master).pc ≠ .outside) :
    (∃ s' r, CompleteReturns master nBatchSize check s s' r) ∨
      ∃ s', CheckStep master nBatchSize check s s' ∧ Advances master s s' := by
  have hstop := I.running hmaster
  by_cases hchecking : ∃ i, (s.threads i).pc = .checking
  · obtain ⟨i, hi⟩ := hchecking
    refine .inr ⟨_, .turn i (by unfold CheckSystem.turn; rw [hi]), ?_⟩
    refine .of_turn hmaster ?_ ?_
    · rcases runCheck_cases check (s.threads i) with ⟨c, rest, -, -, -, heq⟩ |
        ⟨c, rest, -, -, -, heq⟩ | ⟨-, heq⟩ <;> rw [heq] <;> simp [hi]
    · have heffort : effort (s.threads i) = (s.threads i).vChecks.length + 2 := by
        rw [effort, hi]
      rw [heffort]
      rcases runCheck_cases check (s.threads i) with ⟨c, rest, -, hc, -, heq⟩ |
        ⟨c, rest, -, hc, -, heq⟩ | ⟨-, heq⟩
      · rw [heq]
        simp only [effort]
        omega
      · rw [heq]
        simp only [effort, hi, hc, List.length_cons]
        omega
      · rw [heq]
        simp only [effort]
        omega
  have hsection : ∀ i, (s.threads i).pc = .entering ∨ (s.threads i).pc = .waiting →
      (s.shared.queue = [] → (i = master → s.shared.nTodo ≠ 0) → 0 < effort (s.threads i)) →
      (∃ s' r, CompleteReturns master nBatchSize check s s' r) ∨
        ∃ s', CheckStep master nBatchSize check s s' ∧ Advances master s s' := by
    intro i hi hwaits
    obtain ⟨t, q, hturn, hqstop, hqueue, htodo⟩ :=
      @turn_section _ _ _ _ master nBatchSize check s i hi
    rcases loopHead_advances nBatchSize t hmaster (hqstop.trans hstop) hqueue fun hnil hne =>
      hwaits (hqueue ▸ hnil) fun hi => by have := hne hi; omega with ⟨r, rfl, hr⟩ | ⟨hr, A⟩
    · exact .inl ⟨_, r, hturn.trans (by rw [hr])⟩
    · exact .inr ⟨_, .turn i hturn, A⟩
  by_cases hentering : ∃ i, (s.threads i).pc = .entering
  · obtain ⟨i, hi⟩ := hentering
    exact hsection i (.inl hi) fun _ _ => by rw [effort, hi]; exact Nat.one_pos
  · -- everyone waits, so the queue has all that is to do, and the master wakes up
    have hwaiting : ∀ j, (s.threads j).pc = .outside ∨ (s.threads j).pc = .waiting := by
      intro j
      cases hpc : (s.threads j).pc with
      | outside => exact .inl rfl
      | entering => exact absurd ⟨j, hpc⟩ hentering
      | waiting => exact .inr rfl
      | checking => exact absurd ⟨j, hpc⟩ hchecking
    refine hsection master (.inr ((hwaiting master).resolve_left hmaster)) fun hnil hne => ?_
    refine absurd ?_ (hne rfl)
    rw [I.todo, hnil, List.length_nil, Nat.zero_add]
    refine Finset.sum_eq_zero fun j _ => ?_
    rcases hwaiting j with h | h <;> rw [pending, h]

end Runs

end BitMinti.Analysis
