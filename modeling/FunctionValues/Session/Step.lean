import FunctionValues.Definition
import FunctionValues.Transformation

/-!
# Steps of a session

What can be asked of a session. Functions are known by names; a step that makes a function says
which name, its target, the function gets.
-/

namespace FunctionValues

/-- A step of a session. -/
inductive Step where
  | define (target : String) (definition : Definition)
  | identity (target : String)
  | constant (target : String) (kind : Kind) (value : Value)
  /-- Derive a function, repeating the transformation so often. -/
  | derive (target source : String) (transformation : Transformation) (times : Nat)
  /-- Derive a function that applies a named one to the results. -/
  | andThen (target source after : String)
  /-- Like `andThen`, but what comes after may be missing. -/
  | tryAndThen (target source : String) (after : Option String)
  /-- Derive a function that applies a named one to the argument first. -/
  | compose (target source before : String)
  /-- Apply a function. What a curried function gives for one argument is stored. -/
  | apply (source : String) (arguments : List Value) (target : Option String)
  /-- Apply a function to one list of arguments after another. -/
  | map (source : String) (arguments : List (List Value))
  /-- Ask what is known about a function. -/
  | describe (source : String)
  /-- Ask whether two functions share their callable. -/
  | compare (left right : String)
  /-- Let every thread apply a function to its own lists of arguments. -/
  | threads (source : String) (arguments : List (List (List Value)))

end FunctionValues
