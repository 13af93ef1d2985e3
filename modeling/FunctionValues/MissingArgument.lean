import FunctionValues.Text.Quoted

/-!
# Missing arguments

The one error of the library itself: something that may be absent was needed.
-/

namespace FunctionValues

/-- An argument that was absent, by its name. -/
structure MissingArgument where
  name : String
  deriving DecidableEq

namespace MissingArgument

/-- The text of the error. -/
def message (error : MissingArgument) : String :=
  error.name ++ " is missing"

/-- The error written out with its name. -/
def describe (error : MissingArgument) : String :=
  "MissingArgument \x7b name: " ++ Text.quote error.name ++ " \x7d"

end MissingArgument

end FunctionValues
