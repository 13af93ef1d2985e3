import FunctionValues.MissingArgument
import FunctionValues.Types.Descriptor

/-!
# Applicability

The declared types of function values of one and of two arguments, how deriving a function changes
them, and which arguments a function accepts. These questions are answered from types alone, so that
asking runs nothing. An argument that is absent is accepted; a type that is absent is an error.
-/

namespace FunctionValues

/-- A type that has to be given, under the name it is missed by. -/
def Descriptor.require (name : String) : Option Descriptor → Except MissingArgument Descriptor
  | some type => .ok type
  | none => .error ⟨name⟩

/-- The declared types of a function of one argument. -/
structure Unary where
  parameter : TypeExpr
  result : TypeExpr

namespace Unary

/-- The signature of the function. -/
def signature (function : Unary) : Signature where
  parameters := [.of function.parameter]
  result := .of function.result

/-- Whether the function accepts an argument, given by its type. -/
def accepts (function : Unary) (argument : Option TypeExpr) : Bool :=
  (Descriptor.of function.parameter).admitsArgument argument

/-- Whether the function accepts values of a type. -/
def acceptsType (function : Unary) (type : Option Descriptor) : Except MissingArgument Bool := do
  let type ← Descriptor.require "type" type
  .ok ((Descriptor.of function.parameter).admits type)

/-- The types of the identity. -/
def identity (type : TypeExpr) : Unary :=
  ⟨type, type⟩

/-- The types after another function is applied to the result. -/
def andThen (function : Unary) (result : TypeExpr) : Unary :=
  { function with result }

end Unary

/-- The declared types of a function of two arguments. -/
structure Binary where
  first : TypeExpr
  second : TypeExpr
  result : TypeExpr

namespace Binary

/-- The signature of the function. -/
def signature (function : Binary) : Signature where
  parameters := [.of function.first, .of function.second]
  result := .of function.result

/-- Whether the function accepts two arguments, given by their types. -/
def accepts (function : Binary) (first second : Option TypeExpr) : Bool :=
  (Descriptor.of function.first).admitsArgument first &&
    (Descriptor.of function.second).admitsArgument second

/-- Whether the function accepts values of two types; the first absence is reported. -/
def acceptsTypes (function : Binary) (first second : Option Descriptor) :
    Except MissingArgument Bool := do
  let first ← Descriptor.require "type1" first
  let second ← Descriptor.require "type2" second
  .ok ((Descriptor.of function.first).admits first &&
    (Descriptor.of function.second).admits second)

/-- Whether the function accepts values of two types that cannot be absent. -/
def acceptsTypesOf (function : Binary) (first second : TypeExpr) : Bool :=
  (Descriptor.of function.first).admits (.of first) &&
    (Descriptor.of function.second).admits (.of second)

/-- The types with the parameters in the other order. -/
def reversed (function : Binary) : Binary :=
  ⟨function.second, function.first, function.result⟩

/-- The types after another function is applied to the result. -/
def andThen (function : Binary) (result : TypeExpr) : Binary :=
  { function with result }

/-- The types when both arguments are taken as a pair. -/
def tupled (function : Binary) : Unary :=
  ⟨.tuple [function.first, function.second], function.result⟩

/-- The types that are left when the first argument is fixed. -/
def fixed (function : Binary) : Unary :=
  ⟨function.second, function.result⟩

/-- The types when the arguments are taken one after another. -/
def curried (function : Binary) : Unary :=
  ⟨function.first, .function1 function.second function.result⟩

end Binary

end FunctionValues
