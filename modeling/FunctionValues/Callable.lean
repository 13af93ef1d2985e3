import FunctionValues.Computation

/-!
# Building callables

The code of every callable that is derived from others. Deriving one runs nothing: each definition
only says what the new code does when it is applied. Two-argument functions take a pair, so
exchanging arguments is `Value.swap`, and fixing the first one pairs it with the rest.
-/

namespace FunctionValues

namespace Code

/-- The code of applying a callable. -/
def ofCallable (callable : Callable) : Code := fun argument =>
  .apply callable argument

/-- Give back the argument. -/
def identity : Code := .value

/-- Give the same value for every argument. -/
def constant (value : Value) : Code := fun _ =>
  .value value

/-- Apply a two-argument callable to a fixed first argument. -/
def fixed (callable : Callable) (first : Value) : Code := fun second =>
  .apply callable (.pair first second)

/-- Take the first argument and give a callable that waits for the second. -/
def curried (callable : Callable) : Code := fun first =>
  .fresh fun identity => .give (.plain identity (fixed callable first))

/-- Apply a two-argument callable to its arguments in the other order. -/
def reversed (callable : Callable) : Code := fun arguments =>
  .apply callable arguments.swap

/-- Apply a callable and then `after` to its result. -/
def andThen (callable : Callable) (after : Code) : Code := fun argument =>
  (Computation.apply callable argument).andThen after

/-- Apply `before` and then a callable to its result. -/
def compose (callable : Callable) (before : Code) : Code := fun argument =>
  (before argument).andThen fun value => .apply callable value

/-- Run code that reports success or failure and keep only the content of a success. -/
def lift (code : Code) : Code := fun argument =>
  (code argument).andThen fun
    | .ok content => .value (.present content)
    | _ => .value .absent

/-- Run code and keep only whether it came back, and with what. -/
def catching (code : Code) : Code := fun argument =>
  (code argument).attempt

end Code

namespace Callable

/-- Whether a callable keeps its results. -/
def isMemoized : Callable → Bool
  | plain .. => false
  | memoized _ => true

/-- Whether two callables share their code, or their cache. -/
def shares : Callable → Callable → Bool
  | plain left _, plain right _ => left == right
  | memoized left, memoized right => left == right
  | _, _ => false

end Callable

end FunctionValues
