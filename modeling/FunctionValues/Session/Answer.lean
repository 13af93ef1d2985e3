import FunctionValues.MissingArgument
import FunctionValues.World

/-!
# Answers of a session

What a step of a session is answered with, and why it may be refused.
-/

namespace FunctionValues

/-- What is known about a function. -/
structure Description where
  shape : Shape
  kind : Kind
  /-- The policy of the function's cache. -/
  policy : Option Policy
  /-- The number of results in the function's cache. -/
  size : Option Nat
  memoized : Bool
  /-- The text by which the function shows itself. -/
  text : String

namespace World

/-- The number of results that a function has stored, if it stores any. -/
def size? (world : World) (function : FunctionValue) : Option Nat :=
  (world.cache? function.callable).map (·.storage.size)

/-- What is known about a function. -/
def description (world : World) (function : FunctionValue) : Description where
  shape := function.shape
  kind := function.kind
  policy := (world.cache? function.callable).map (·.storage.policy)
  size := world.size? function
  memoized := function.isMemoized
  text := function.describe

/-- The number of stored results of every function that has a name and a cache. -/
def sizes (world : World) : List (String × Nat) :=
  world.functions.filterMap fun (name, function) => (world.size? function).map (name, ·)

end World

/-- The answer to a step. -/
inductive Answer where
  /-- A function was made. -/
  | made (function : FunctionValue)
  | missing (error : MissingArgument)
  | reply (reply : Reply)
  | replies (replies : List Reply)
  | description (description : Description)
  | shared (shared : Bool)
  /-- The replies of every thread, and what happened in all of them. -/
  | threads (replies : List (List Reply)) (entries : List Entry)

/-- Why a step is refused. -/
inductive Refusal where
  | unknownFunction (name : String)
  /-- The step is not defined for functions of this shape or kind. -/
  | unsupported
  /-- The step did not come to an end within the limit. -/
  | unfinished

namespace Refusal

/-- The text of a refusal. -/
def message : Refusal → String
  | unknownFunction name => "unknown function " ++ name
  | unsupported => "the operation is not defined for this function"
  | unfinished => "the operation did not end"

/-- What a step needs, refused with a reason where it is lacking. -/
def unlessSome {α : Type} (refusal : Refusal) : Option α → Except Refusal α
  | some result => .ok result
  | none => .error refusal

end Refusal

/-- What is seen of a step: its answer, the log of it, and the sizes of all caches after it. -/
structure Report where
  answer : Answer
  trace : List Entry
  sizes : List (String × Nat)

end FunctionValues
