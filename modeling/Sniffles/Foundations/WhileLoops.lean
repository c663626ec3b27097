/-!
# Loops with a measure

A loop repeats its body while its test passes. Every round lowers a measure, so
the loop is a total function of its state and no bound on the rounds enters a
statement about it. Whatever each round keeps holds behind the loop as well, and
there the test fails.
-/

namespace WhileLoops

/-- A test, a body and the reason why their repetition ends. -/
structure Loop (State : Type) where
  test : State → Bool
  body : State → State
  measure : State → Nat
  lowers : ∀ state, test state = true → measure (body state) < measure state

variable {State : Type}

/-- Repeat the body while the test passes. -/
def Loop.run (loop : Loop State) (state : State) : State :=
  if _passed : loop.test state = true then loop.run (loop.body state) else state
termination_by loop.measure state
decreasing_by exact loop.lowers state _passed

/-- A loop whose test fails at once leaves its state as it is. -/
theorem Loop.run_idle (loop : Loop State) (state : State) (failed : loop.test state = false) :
    loop.run state = state := by
  rw [Loop.run, failed]
  rfl

/-- The invariant rule. Induct over the measure; a round that passes the test keeps
    the invariant and lowers the measure. -/
theorem Loop.run_keeps (loop : Loop State) (invariant : State → Prop)
    (keeps : ∀ state, loop.test state = true → invariant state → invariant (loop.body state))
    (state : State) (start : invariant state) :
    invariant (loop.run state) ∧ loop.test (loop.run state) = false := by
  fun_induction loop.run state with
  | case1 state passed inductionHypothesis =>
    exact inductionHypothesis (keeps state passed start)
  | case2 state failed => exact ⟨start, eq_false_of_ne_true failed⟩

end WhileLoops
