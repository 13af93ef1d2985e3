/-!
# Types

The types that parameters and results of functions have, as expressions: named types with their
arguments, tuples, references, and so on. Two expressions are equal exactly when they are the same
type. A type has two spellings, the one it is written by and the one in which every name carries its
path.

A type is dynamic if a value of any type can be stored as one: an object that promises nothing but
what any value has, possibly sendable or sendable and shareable, and a single box or shared pointer
of such an object.
-/

namespace FunctionValues

/-- The named types and type constructors. -/
inductive Nominal where
  | i8 | i16 | i32 | i64 | i128 | isize
  | u8 | u16 | u32 | u64 | u128 | usize
  | f32 | f64 | bool | char | str
  | string | vec | box | rc | arc | cell | refCell
  | option | result
  | hashMap | hashSet | btreeMap | btreeSet
  | functionError | memoizationPolicy | typeDescriptor
  | functionType (arity : Nat)
  | function1 | function2
  deriving DecidableEq

namespace Nominal

/-- The path that leads to a name; primitive types have none. -/
def path : Nominal → String
  | string => "alloc::string::"
  | vec => "alloc::vec::"
  | box => "alloc::boxed::"
  | rc => "alloc::rc::"
  | arc => "alloc::sync::"
  | cell | refCell => "core::cell::"
  | option => "core::option::"
  | result => "core::result::"
  | hashMap => "std::collections::hash::map::"
  | hashSet => "std::collections::hash::set::"
  | btreeMap => "alloc::collections::btree::map::"
  | btreeSet => "alloc::collections::btree::set::"
  | functionError => "lambda2::function::error::"
  | memoizationPolicy => "lambda2::memoize::policy::"
  | typeDescriptor => "lambda2::reflect::type_descriptor::"
  | functionType _ => "lambda2::reflect::function_type::"
  | function1 => "lambda2::function::function1::"
  | function2 => "lambda2::function::function2::"
  | _ => ""

/-- The name itself. -/
def name : Nominal → String
  | i8 => "i8" | i16 => "i16" | i32 => "i32" | i64 => "i64" | i128 => "i128" | isize => "isize"
  | u8 => "u8" | u16 => "u16" | u32 => "u32" | u64 => "u64" | u128 => "u128" | usize => "usize"
  | f32 => "f32" | f64 => "f64" | bool => "bool" | char => "char" | str => "str"
  | string => "String" | vec => "Vec" | box => "Box" | rc => "Rc" | arc => "Arc"
  | cell => "Cell" | refCell => "RefCell"
  | option => "Option" | result => "Result"
  | hashMap => "HashMap" | hashSet => "HashSet" | btreeMap => "BTreeMap" | btreeSet => "BTreeSet"
  | functionError => "FunctionError" | memoizationPolicy => "MemoizationPolicy"
  | typeDescriptor => "TypeDescriptor"
  | functionType arity => "FunctionType<" ++ toString arity ++ ">"
  | function1 => "Function1" | function2 => "Function2"

end Nominal

/-- What an object promises to do. -/
inductive Interface where
  | any
  | display
  | debug
  deriving DecidableEq

namespace Interface

/-- The path that leads to an interface. -/
def path : Interface → String
  | any => "core::any::"
  | display | debug => "core::fmt::"

/-- The name of an interface. -/
def name : Interface → String
  | any => "Any"
  | display => "Display"
  | debug => "Debug"

end Interface

/-- A type. -/
inductive TypeExpr where
  /-- A named type, or a type constructor with its arguments. -/
  | nominal (name : Nominal) (arguments : List TypeExpr)
  | tuple (parts : List TypeExpr)
  | reference (mutable : Bool) (target : TypeExpr)
  | pointer (mutable : Bool) (target : TypeExpr)
  | slice (item : TypeExpr)
  | array (item : TypeExpr) (length : Nat)
  /-- A plain function without captured values. -/
  | function (parameters : List TypeExpr) (result : TypeExpr)
  /-- Some value that keeps an interface, and may be sent to or shared with other threads. -/
  | object (interface : Interface) (sendable shareable : Bool)

namespace TypeExpr

/-! ## Equality -/

mutual

/-- Whether two expressions are the same type. -/
def beq : TypeExpr → TypeExpr → Bool
  | .nominal left lefts, .nominal right rights => left == right && beqAll lefts rights
  | .tuple lefts, .tuple rights => beqAll lefts rights
  | .reference left left', .reference right right' => left == right && left'.beq right'
  | .pointer left left', .pointer right right' => left == right && left'.beq right'
  | .slice left, .slice right => left.beq right
  | .array left left', .array right right' => left.beq right && left' == right'
  | .function lefts left, .function rights right => beqAll lefts rights && left.beq right
  | .object left left' left'', .object right right' right'' =>
    left == right && left' == right' && left'' == right''
  | _, _ => false

/-- Whether two lists hold the same types. -/
def beqAll : List TypeExpr → List TypeExpr → Bool
  | [], [] => true
  | left :: lefts, right :: rights => left.beq right && beqAll lefts rights
  | _, _ => false

end

mutual

theorem beq_iff : ∀ left right : TypeExpr, left.beq right = true ↔ left = right
  | .nominal _ lefts, right => by
      cases right with
      | nominal _ rights => simp [beq, beqAll_iff lefts rights]
      | _ => simp [beq]
  | .tuple lefts, right => by
      cases right with
      | tuple rights => simp [beq, beqAll_iff lefts rights]
      | _ => simp [beq]
  | .reference _ left, right => by
      cases right with
      | reference _ right => simp [beq, beq_iff left right]
      | _ => simp [beq]
  | .pointer _ left, right => by
      cases right with
      | pointer _ right => simp [beq, beq_iff left right]
      | _ => simp [beq]
  | .slice left, right => by
      cases right with
      | slice right => simp [beq, beq_iff left right]
      | _ => simp [beq]
  | .array left _, right => by
      cases right with
      | array right _ => simp [beq, beq_iff left right]
      | _ => simp [beq]
  | .function lefts left, right => by
      cases right with
      | function rights right => simp [beq, beqAll_iff lefts rights, beq_iff left right]
      | _ => simp [beq]
  | .object _ _ _, right => by
      cases right with
      | object _ _ _ => simp [beq, and_assoc]
      | _ => simp [beq]

theorem beqAll_iff : ∀ lefts rights : List TypeExpr, beqAll lefts rights = true ↔ lefts = rights
  | [], [] => by simp [beqAll]
  | [], _ :: _ => by simp [beqAll]
  | _ :: _, [] => by simp [beqAll]
  | left :: lefts, right :: rights => by
      simp [beqAll, beq_iff left right, beqAll_iff lefts rights]

end

instance : DecidableEq TypeExpr := fun left right =>
  decidable_of_iff (left.beq right = true) (beq_iff left right)

/-! ## Spelling -/

/-- Texts one after another with commas between them. -/
def commas (texts : List String) : String :=
  ", ".intercalate texts

mutual

/-- Write a type, with or without the paths of its names. -/
def write (paths : Bool) : TypeExpr → String
  | .nominal name arguments =>
    (if paths then name.path else "") ++ name.name ++
      match writeAll paths arguments with
      | [] => ""
      | texts => "<" ++ commas texts ++ ">"
  | .tuple parts =>
    match writeAll paths parts with
    | [part] => "(" ++ part ++ ",)"
    | texts => "(" ++ commas texts ++ ")"
  | .reference mutable target => (if mutable then "&mut " else "&") ++ target.write paths
  | .pointer mutable target => (if mutable then "*mut " else "*const ") ++ target.write paths
  | .slice item => "[" ++ item.write paths ++ "]"
  | .array item length => "[" ++ item.write paths ++ "; " ++ toString length ++ "]"
  | .function parameters result =>
    "fn(" ++ commas (writeAll paths parameters) ++ ")" ++
      match result with
      | .tuple [] => ""
      | _ => " -> " ++ result.write paths
  | .object interface sendable shareable =>
    let marker (name : String) := " + " ++ (if paths then "core::marker::" else "") ++ name
    "dyn " ++ (if paths then interface.path else "") ++ interface.name ++
      (if sendable then marker "Send" else "") ++ (if shareable then marker "Sync" else "")

/-- Write the types of a list. -/
def writeAll (paths : Bool) : List TypeExpr → List String
  | [] => []
  | type :: types => type.write paths :: writeAll paths types

end

/-- The name of a type, with the paths of all names in it. -/
def name (type : TypeExpr) : String :=
  type.write true

/-- The way a type is written. -/
def spelling (type : TypeExpr) : String :=
  type.write false

/-! ## Dynamic types -/

/-- Whether a type is an object that can hold any value. An object that may be shared but not sent
is none. -/
def isAnyObject : TypeExpr → Bool
  | .object .any sendable shareable => sendable || !shareable
  | _ => false

/-- Whether every value can be stored as one of this type. -/
def isDynamic : TypeExpr → Bool
  | .nominal .box [content] | .nominal .rc [content] | .nominal .arc [content] =>
    content.isAnyObject
  | type => type.isAnyObject

/-! ## Names for common types -/

/-- A named type without arguments. -/
def named (name : Nominal) : TypeExpr :=
  .nominal name []

/-- The type without information. -/
def unit : TypeExpr := .tuple []

/-- The type of function values of one argument. -/
def function1 (parameter result : TypeExpr) : TypeExpr :=
  .nominal .function1 [parameter, result]

/-- The type of function values of two arguments. -/
def function2 (first second result : TypeExpr) : TypeExpr :=
  .nominal .function2 [first, second, result]

/-- The type of values that may be absent. -/
def option (content : TypeExpr) : TypeExpr :=
  .nominal .option [content]

end TypeExpr

end FunctionValues
