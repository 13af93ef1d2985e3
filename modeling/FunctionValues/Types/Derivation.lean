import FunctionValues.Transformation
import FunctionValues.Types.Applicability

/-!
# Typed functions

Function values together with their declared types. Deriving a function derives its types along with
it. Which arguments a function accepts is answered from the types that it is declared with, and code
may ask that at any point.
-/

namespace FunctionValues

/-- A function value of one argument with its declared types. -/
structure TypedUnary where
  types : Unary
  value : FunctionValue

/-- A function value of two arguments with its declared types. -/
structure TypedBinary where
  types : Binary
  value : FunctionValue

/-! ## Deriving functions of two arguments -/

/-- A way to derive a function of two arguments from another. -/
inductive Derivation where
  | clone
  | reverse
  /-- Apply a function to the results, which has results of a type. -/
  | andThen (after : FunctionValue) (result : TypeExpr)
  | memoize (policy : Policy) (retention : Retention)

namespace Derivation

/-- The transformation of the function value. -/
def transformation : Derivation → Transformation
  | clone => .clone
  | reverse => .reverse
  | andThen after _ => .andThen after
  | memoize policy retention => .memoize policy retention

/-- The declared types of what is derived. -/
def types : Derivation → Binary → Binary
  | clone, function | memoize _ _, function => function
  | reverse, function => function.reversed
  | andThen _ result, function => function.andThen result

/-- Derive a function, if the derivation is defined for it. -/
def perform (derivation : Derivation) (world : World) (function : TypedBinary) :
    Option (TypedBinary × World) := do
  let (value, world) ← derivation.transformation.perform world function.value
  some (⟨derivation.types function.types, value⟩, world)

/-- Derive a function by one derivation after another, each time from the last. -/
def chain : List Derivation → World → TypedBinary → Option (TypedBinary × World)
  | [], world, function => some (function, world)
  | derivation :: derivations, world, function => do
    let (function, world) ← derivation.perform world function
    chain derivations world function

/-- How often the arguments change places. -/
def reversals : List Derivation → Nat
  | [] => 0
  | reverse :: derivations => reversals derivations + 1
  | _ :: derivations => reversals derivations

end Derivation

/-! ## Deriving functions of one argument -/

/-- A way to derive a function of one argument from one of two. -/
inductive Narrowing where
  | fixFirst (first : Value)
  | curry
  | tuple

namespace Narrowing

/-- The transformation of the function value. -/
def transformation : Narrowing → Transformation
  | fixFirst first => .fixFirst first
  | curry => .curry
  | tuple => .tuple

/-- The declared types of what is derived. -/
def types : Narrowing → Binary → Unary
  | fixFirst _, function => function.fixed
  | curry, function => function.curried
  | tuple, function => function.tupled

/-- Derive a function of one argument, if the derivation is defined. -/
def perform (narrowing : Narrowing) (world : World) (function : TypedBinary) :
    Option (TypedUnary × World) := do
  let (value, world) ← narrowing.transformation.perform world function.value
  some (⟨narrowing.types function.types, value⟩, world)

end Narrowing

/-! ## Asking -/

/-- A question to a function of one argument whether it accepts a certain one. -/
inductive Unary.Inquiry where
  /-- An argument, given by its type, which may be absent. -/
  | value (argument : Option TypeExpr)
  /-- The descriptor of a type. -/
  | type (type : Option Descriptor)

/-- What declared types answer to a question. -/
def Unary.answer (function : Unary) : Unary.Inquiry → Except MissingArgument Bool
  | .value argument => .ok (function.accepts argument)
  | .type type => function.acceptsType type

/-- A question to a function of two arguments whether it accepts certain ones. -/
inductive Binary.Inquiry where
  /-- Arguments, given by their types, of which any may be absent. -/
  | values (first second : Option TypeExpr)
  /-- Descriptors of types. -/
  | types (first second : Option Descriptor)
  /-- Types that cannot be absent. -/
  | typesOf (first second : TypeExpr)

/-- What declared types answer to a question. -/
def Binary.answer (function : Binary) : Binary.Inquiry → Except MissingArgument Bool
  | .values first second => .ok (function.accepts first second)
  | .types first second => function.acceptsTypes first second
  | .typesOf first second => .ok (function.acceptsTypesOf first second)

/-- What an answer is as a value: whether the arguments are accepted, or the name of what is
missing. -/
def Value.ofAnswer : Except MissingArgument Bool → Value
  | .ok accepted => .ok (.bool accepted)
  | .error missing => .err (.text missing.name)

/-- Ask one question after another, and end with the list of the answers that there were and of those
that come. -/
def Computation.inquire {Inquiry : Type} (answer : Inquiry → Except MissingArgument Bool)
    (answers : List Value) : List Inquiry → Computation
  | [] => .value (.list answers)
  | inquiry :: inquiries =>
    (Computation.value (.ofAnswer (answer inquiry))).andThen fun value =>
      inquire answer (answers ++ [value]) inquiries

/-- Ask a function of one argument. -/
def TypedUnary.inquire (function : TypedUnary) (inquiries : List Unary.Inquiry) : Computation :=
  .inquire function.types.answer [] inquiries

/-- Ask a function of two arguments. -/
def TypedBinary.inquire (function : TypedBinary) (inquiries : List Binary.Inquiry) : Computation :=
  .inquire function.types.answer [] inquiries

end FunctionValues
