import Mathlib.Data.Fintype.Basic

/-!
# The check queue

`CCheckQueue`: the queue of checks that the master and the workers share, `Loop` as it runs in
each of them, and the calls that the master makes.  A section under `m_mutex` ends where the
mutex is released: at the end of the block or in `cond.wait`.  Each such section and each
`check()` is one turn of a thread.

A wait can end at any time, so what is notified does not matter.  The counters do not wrap.

SOURCE: src/src/checkqueue.h:33-238
-/

set_option autoImplicit false

namespace BitMinti.Model

variable {T R : Type}

/-! ## What the threads share -/

/-- The members of `CCheckQueue` that `m_mutex` guards. -/
structure CCheckQueue (T R : Type) where
  queue : List T := []
  nIdle : ℤ := 0
  nTotal : ℤ := 0
  m_result : Option R := none
  nTodo : ℕ := 0
  m_request_stop : Bool := false

def CCheckQueue.add (vChecks : List T) (q : CCheckQueue T R) : CCheckQueue T R :=
  if vChecks.isEmpty then q
  else { q with queue := q.queue ++ vChecks, nTodo := q.nTodo + vChecks.length }

/-! ## `Loop` -/

/-- Where a thread is: not in `Loop`, about to lock the mutex, in `cond.wait`, or at its checks. -/
inductive LoopPc where
  | outside
  | entering
  | waiting
  | checking
  deriving DecidableEq, Repr

/-- The locals of `Loop`.  `vChecks` has the checks that are left to do. -/
structure LoopLocals (T R : Type) where
  pc : LoopPc := .outside
  vChecks : List T := []
  nNow : ℕ := 0
  local_result : Option R := none
  do_work : Bool := false

/-- A call of `Loop`. -/
def LoopLocals.call : LoopLocals T R := { pc := .entering }

/-- The clean-up of the previous loop run. -/
def cleanUp (t : LoopLocals T R) (q : CCheckQueue T R) : LoopLocals T R × CCheckQueue T R :=
  if t.nNow ≠ 0 then
    let (t, q) :=
      if t.local_result.isSome && q.m_result.isNone then
        ({ t with local_result := q.m_result }, { q with m_result := t.local_result })
      else (t, q)
    (t, { q with nTodo := q.nTodo - t.nNow })
  else (t, { q with nTotal := q.nTotal + 1 })

/-- How many checks a thread takes. -/
def batchLength (nBatchSize : ℕ) (q : CCheckQueue T R) : ℕ :=
  max 1 (min nBatchSize (q.queue.length / (q.nTotal + q.nIdle + 1).toNat))

/-- Taking checks off the end of the queue. -/
def takeBatch (nBatchSize : ℕ) (t : LoopLocals T R) (q : CCheckQueue T R) :
    LoopLocals T R × CCheckQueue T R :=
  let nNow := batchLength nBatchSize q
  let start := q.queue.length - nNow
  ({ t with
      pc := .checking
      vChecks := q.queue.drop start
      nNow := nNow
      do_work := q.m_result.isNone },
    { q with queue := q.queue.take start })

/-- How a section under the mutex ends: the locals, the queue, and what `Loop` returns if it
does. -/
abbrev SectionEnd (T R : Type) : Type := LoopLocals T R × CCheckQueue T R × Option (Option R)

/-- The rest of a section from `while (queue.empty() && !m_request_stop)` on. -/
def loopHead (nBatchSize : ℕ) (fMaster : Bool) (t : LoopLocals T R) (q : CCheckQueue T R) :
    SectionEnd T R :=
  if q.queue.isEmpty && !q.m_request_stop then
    if fMaster && q.nTodo == 0 then
      ({}, { q with nTotal := q.nTotal - 1, m_result := none }, some q.m_result)
    else ({ t with pc := .waiting }, { q with nIdle := q.nIdle + 1 }, none)
  else if q.m_request_stop then ({}, q, some none)
  else
    let (t, q) := takeBatch nBatchSize t q
    (t, q, none)

/-- The section at the top of the loop. -/
def lockSection (nBatchSize : ℕ) (fMaster : Bool) (t : LoopLocals T R) (q : CCheckQueue T R) :
    SectionEnd T R :=
  let (t, q) := cleanUp t q
  loopHead nBatchSize fMaster t q

/-- The section after a wait. -/
def wakeSection (nBatchSize : ℕ) (fMaster : Bool) (t : LoopLocals T R) (q : CCheckQueue T R) :
    SectionEnd T R :=
  loopHead nBatchSize fMaster t { q with nIdle := q.nIdle - 1 }

/-- One `check()`, or the end of the checks. -/
def runCheck (check : T → Option R) (t : LoopLocals T R) : LoopLocals T R :=
  match t.do_work, t.vChecks with
  | true, c :: rest =>
    let local_result := check c
    if local_result.isSome then { t with pc := .entering, vChecks := [], local_result }
    else { t with vChecks := rest, local_result }
  | _, _ => { t with pc := .entering, vChecks := [] }

/-! ## All threads together -/

/-- A check queue with its threads.  `added` has the checks the master added in this round. -/
structure CheckSystem (ι T R : Type) where
  shared : CCheckQueue T R
  threads : ι → LoopLocals T R
  added : List T

section System

variable {ι : Type} [DecidableEq ι] (master : ι) (nBatchSize : ℕ) (check : T → Option R)

/-- A new queue: the workers have called `Loop`, the master has not. -/
def CheckSystem.init : CheckSystem ι T R where
  shared := {}
  threads i := if i = master then {} else .call
  added := []

/-- Putting the end of a section into effect. -/
def CheckSystem.endSection (i : ι) (s : CheckSystem ι T R) (e : SectionEnd T R) :
    CheckSystem ι T R where
  shared := e.2.1
  threads := Function.update s.threads i e.1
  added := if i = master ∧ e.2.2.isSome then [] else s.added

/-- A turn of a thread, and what its `Loop` returns if it does. -/
def CheckSystem.turn (i : ι) (s : CheckSystem ι T R) :
    Option (CheckSystem ι T R × Option (Option R)) :=
  match (s.threads i).pc with
  | .outside => none
  | .entering =>
    let e := lockSection nBatchSize (i = master) (s.threads i) s.shared
    some (s.endSection master i e, e.2.2)
  | .waiting =>
    let e := wakeSection nBatchSize (i = master) (s.threads i) s.shared
    some (s.endSection master i e, e.2.2)
  | .checking =>
    some ({ s with threads := Function.update s.threads i (runCheck check (s.threads i)) }, none)

/-- Whether the master can call `Add`, `Complete` or the destructor. -/
def CheckSystem.masterFree (s : CheckSystem ι T R) : Prop :=
  (s.threads master).pc = .outside ∧ s.shared.m_request_stop = false

/-- **The steps of the system**: turns of the threads, and calls of the master.  `Complete` ends
every round before the destructor. -/
inductive CheckStep : CheckSystem ι T R → CheckSystem ι T R → Prop
  | turn (i : ι) {s s' : CheckSystem ι T R} {r : Option (Option R)}
      (h : s.turn master nBatchSize check i = some (s', r)) : CheckStep s s'
  | add (vChecks : List T) {s : CheckSystem ι T R} (h : s.masterFree master) :
      CheckStep s { s with shared := s.shared.add vChecks, added := s.added ++ vChecks }
  | complete {s : CheckSystem ι T R} (h : s.masterFree master) :
      CheckStep s { s with threads := Function.update s.threads master .call }
  | stop {s : CheckSystem ι T R} (h : s.masterFree master) (hadded : s.added = []) :
      CheckStep s { s with shared := { s.shared with m_request_stop := true } }

end System

end BitMinti.Model
