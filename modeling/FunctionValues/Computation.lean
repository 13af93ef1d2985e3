import FunctionValues.Failure

/-!
# Callables and computations

A callable is either plain code or a memoized function, which is known by the number of its cache.
Code turns an argument into a computation: a tree of the things that running it does, one after
another. A computation may apply any callable, may apply whatever function a name stands for at
that moment, and may carry on after a failure, so it can do everything that code given by a user
can do. A tree is finite along every path; only applications can make a run long.

Functions of two arguments take their pair.
-/

namespace FunctionValues

mutual

/-- Something that can be applied to a value. -/
inductive Callable where
  /-- Code of its own. The identity tells apart callables that were made separately. -/
  | plain (identity : Nat) (code : Value → Computation)
  /-- The memoized function whose results are kept in the cache of this number. -/
  | memoized (cache : Nat)

/-- What running code does. -/
inductive Computation where
  /-- End with a value, or fail. -/
  | finish (reply : Reply)
  /-- End with a callable. -/
  | give (callable : Callable)
  /-- End as the callable does on this argument. -/
  | apply (callable : Callable) (argument : Value)
  /-- Run `first` and continue with its reply; a callable as its end is the end of the whole. -/
  | bind (first : Computation) (next : Reply → Computation)
  /-- Run `first` and apply the callable it ends with; a value as its end is the end of the
  whole. -/
  | feed (first : Computation) (argument : Value)
  /-- Apply the function that has this name at this moment. -/
  | call (name : String) (arguments : List Value)
  /-- End with the value of the tick counter, which moves on by one. -/
  | tick
  /-- Leave a note of a call in the log and continue. -/
  | note (label : String) (arguments : List Value) (rest : Computation)
  /-- Continue with an identity that no callable has yet. -/
  | fresh (rest : Nat → Computation)

end

instance : Inhabited Computation := ⟨.finish (.ok .unit)⟩

instance : Inhabited Callable := ⟨.plain 0 fun value => .finish (.ok value)⟩

/-- What an application ends with when it does not fail. -/
inductive Result where
  | value (value : Value)
  | callable (callable : Callable)

/-- How a run ends. -/
abbrev Outcome := Except Failure Result

namespace Retention

/-- Whether a cache keeps a result. -/
def keeps : Retention → Result → Bool
  | all, _ => true
  | successes, .value (.ok _) => true
  | successes, _ => false

end Retention

/-- Code: what to do with an argument. -/
abbrev Code := Value → Computation

namespace Computation

/-- End with a value. -/
def value (value : Value) : Computation :=
  .finish (.ok value)

/-- Fail with a message. -/
def raise (message : String) : Computation :=
  .finish (Reply.raise message)

/-- Continue with the value that `first` ends with; its failure is the failure of the whole. -/
def andThen (first : Computation) (next : Value → Computation) : Computation :=
  .bind first fun
    | .ok value => next value
    | .error failure => .finish (.error failure)

/-- End with what came back from `first`, or with nothing if it failed in any way. -/
def attempt (first : Computation) : Computation :=
  .bind first fun reply => .value (Reply.caught reply)

end Computation

end FunctionValues
