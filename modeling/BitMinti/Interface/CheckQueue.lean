import BitMinti.Model.CheckQueue

/-!
# What a check queue is for

A round is what the master adds before it calls `Complete`.  `Complete` is to return the result
of a failing check of the round, if there is one, and to leave no check behind.

SOURCE: src/src/checkqueue.h:19-31, 164-168
-/

set_option autoImplicit false

namespace BitMinti.Interface

open Model

variable {ι T R : Type}

/-- The result of a round. -/
structure RoundResult (check : T → Option R) (round : List T) (r : Option R) : Prop where
  passes : r = none ↔ ∀ c ∈ round, check c = none
  fails : ∀ e, r = some e → ∃ c ∈ round, check c = some e

/-- No check is queued or in the hands of a thread. -/
structure NoChecksLeft (s : CheckSystem ι T R) : Prop where
  queue : s.shared.queue = []
  threads : ∀ i, (s.threads i).pc ≠ .checking ∧ (s.threads i).vChecks = []

variable [DecidableEq ι] (master : ι) (nBatchSize : ℕ) (check : T → Option R)

/-- `Complete` returns `r` in this step. -/
def CompleteReturns (s s' : CheckSystem ι T R) (r : Option R) : Prop :=
  s.turn master nBatchSize check master = some (s', some r)

end BitMinti.Interface
