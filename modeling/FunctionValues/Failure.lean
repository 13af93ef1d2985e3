import FunctionValues.Policy
import FunctionValues.Value

/-!
# Failures

The ways in which applying a function can fail, and what code that ran another learns of it.
-/

namespace FunctionValues

/-- The ways in which applying a function fails. -/
inductive Failure where
  /-- Code of the user gave up and left a value behind. -/
  | raised (payload : Value)
  /-- A memoized function was applied where its caller would have waited for itself. -/
  | reentered (policy : Policy)
  /-- A text would have been longer than any text can be. -/
  | oversized

/-- What is told of a text that would have been longer than any text can be. -/
def Failure.oversizedMessage : String := "capacity overflow"

/-- What code learns from something it ran: a value, or how it failed. -/
abbrev Reply := Except Failure Value

namespace Reply

/-- The reply of code that fails with a message of its own. -/
def raise (message : String) : Reply :=
  .error (.raised (.text message))

/-- The reply of a run that cannot fail: what came back, if anything did. -/
def caught : Reply → Value
  | .ok value => .present value
  | .error _ => .absent

end Reply

end FunctionValues
