import FunctionValues.Expression
import FunctionValues.FunctionValue

/-!
# Definitions

Functions that are written down rather than derived: a label, a number of arguments, a body, and the
manner in which the body's value becomes a result.
-/

namespace FunctionValues

/-- How the value of a body becomes the result of a function. -/
inductive Manner where
  /-- It is read as a result of a kind. -/
  | direct (kind : Kind)
  /-- It is read as a success or a failure, of which only the success is kept. -/
  | lift
  /-- It is present if the body came back, and absent if it failed. -/
  | catching

/-- A function as it is written down. -/
structure Definition where
  label : String
  arity : Nat
  body : Expression
  manner : Manner

namespace Definition

/-- The shape of a defined function. -/
def shape (definition : Definition) : Shape :=
  if definition.arity = 2 then .two else .one

/-- The kind of a defined function's results. -/
def kind (definition : Definition) : Kind :=
  match definition.manner with
  | .direct kind => kind
  | .lift | .catching => .optional

/-- The code of a defined function. -/
def code (definition : Definition) : Code :=
  let body := definition.body.code definition.label definition.arity
  match definition.manner with
  | .direct kind => body.coerce kind
  | .lift => (body.coerce .fallible).lift
  | .catching => body.catching

end Definition

end FunctionValues
