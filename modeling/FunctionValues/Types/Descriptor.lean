import FunctionValues.Types.TypeExpr

/-!
# Descriptors

A descriptor says about a type what functions need to know of it. Descriptors are equal when they
describe the same type; their names take no part in that. A value is known by its type.
-/

namespace FunctionValues

/-- What is known about a type. -/
structure Descriptor where
  /-- The type itself, which identifies the descriptor. -/
  type : TypeExpr
  name : String
  dynamic : Bool

namespace Descriptor

/-- Describe a type. -/
def of (type : TypeExpr) : Descriptor where
  type := type
  name := type.name
  dynamic := type.isDynamic

/-- Describe the type that a value is declared with. The value takes no part in that. -/
def ofValue (value : TypeExpr) : Descriptor :=
  of value

instance : BEq Descriptor where
  beq left right := decide (left.type = right.type)

/-- Feed a descriptor to a hasher, which gets to see the type only. -/
def hash {State : Type} (feed : TypeExpr → State → State) (descriptor : Descriptor)
    (state : State) : State :=
  feed descriptor.type state

/-- Whether values of the type `other` may be used where this type is declared. -/
def admits (descriptor other : Descriptor) : Bool :=
  descriptor.dynamic || descriptor == other

/-- Whether a value, given by its type, may be used where this type is declared. -/
def admitsValue (descriptor : Descriptor) (value : TypeExpr) : Bool :=
  descriptor.dynamic || decide (value = descriptor.type)

/-- Whether an argument, given by its type, may be used where this type is declared. An absent
argument always may. -/
def admitsArgument (descriptor : Descriptor) : Option TypeExpr → Bool
  | none => true
  | some value => descriptor.admitsValue value

end Descriptor

/-- The number of different items of a list. -/
def distinct {α : Type} [BEq α] (items : List α) : Nat :=
  items.eraseDups.length

/-- The types of a function's parameters and of its result. -/
structure Signature where
  parameters : List Descriptor
  result : Descriptor

namespace Signature

instance : BEq Signature where
  beq left right := left.parameters == right.parameters && left.result == right.result

/-- The number of parameters. -/
def arity (signature : Signature) : Nat :=
  signature.parameters.length

/-- The way a signature is shown. -/
def describe (signature : Signature) : String :=
  "(" ++ TypeExpr.commas (signature.parameters.map (·.name)) ++ ") -> " ++ signature.result.name

end Signature

end FunctionValues
