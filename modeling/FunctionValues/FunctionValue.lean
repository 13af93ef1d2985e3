import FunctionValues.Callable

/-!
# Function values

A function value is a callable together with the arguments it takes and the kind of result it
gives. `FunctionValue.invoke?` says which computation supplying a list of arguments is, and that
there is none when the function cannot take them.
-/

namespace FunctionValues

/-- How a function takes its arguments. -/
inductive Shape where
  /-- One argument. -/
  | one
  /-- Two arguments together. -/
  | two
  /-- One argument, giving a function of the second. -/
  | curried
  /-- One argument that is a pair. -/
  | tupled
  deriving DecidableEq, Inhabited

namespace Shape

/-- The word a shape is reported by. -/
def name : Shape → String
  | one => "one"
  | two => "two"
  | curried => "curried"
  | tupled => "tupled"

/-- The number of arguments of a single application. -/
def arity : Shape → Nat
  | two => 2
  | _ => 1

end Shape

/-- What the results of a function say. -/
inductive Kind where
  /-- Any value. -/
  | plain
  /-- A value, or that there is none. -/
  | optional
  /-- A success or a failure, each with its value. -/
  | fallible
  deriving DecidableEq, Inhabited

namespace Kind

/-- The letter a kind is reported by. -/
def letter : Kind → String
  | plain => "V"
  | optional => "O"
  | fallible => "R"

/-- Read a value as a result of a kind. What does not say so itself is present, or a success. -/
def coerce : Kind → Value → Value
  | plain, value => value
  | optional, .absent => .absent
  | optional, .present content => .present content
  | optional, value => .present value
  | fallible, .ok content => .ok content
  | fallible, .err content => .err content
  | fallible, value => .ok value

@[simp]
theorem coerce_coerce (kind : Kind) (value : Value) :
    kind.coerce (kind.coerce value) = kind.coerce value := by
  cases kind <;> cases value <;> rfl

end Kind

/-- Read every result of some code as a result of a kind. -/
def Code.coerce (kind : Kind) (code : Code) : Code := fun argument =>
  (code argument).andThen fun value => .value (kind.coerce value)

/-- A callable with its shape and the kind of its results. -/
structure FunctionValue where
  shape : Shape
  kind : Kind
  callable : Callable
  deriving Inhabited

namespace FunctionValue

/-- Whether a function keeps its results. -/
def isMemoized (function : FunctionValue) : Bool :=
  function.callable.isMemoized

/-- The computation of supplying all the arguments that a function takes. A function of one argument
takes no more than that one; a function of two takes the first two, and the rest are dropped. -/
def invoke? (function : FunctionValue) (arguments : List Value) : Option Computation :=
  match function.shape, arguments with
  | .one, [argument] => some (.apply function.callable argument)
  | .two, first :: second :: _ => some (.apply function.callable (.pair first second))
  | .tupled, first :: second :: _ => some (.apply function.callable (.pair first second))
  | .curried, first :: second :: _ => some (.feed (.apply function.callable first) second)
  | _, _ => none

/-- The text by which a function shows itself. -/
def describe (function : FunctionValue) : String :=
  let arity := toString function.shape.arity
  let memoized := if function.isMemoized then "true" else "false"
  "Function" ++ arity ++ " \x7b arity: " ++ arity ++ ", memoized: " ++ memoized ++ ", .. \x7d"

end FunctionValue

end FunctionValues
