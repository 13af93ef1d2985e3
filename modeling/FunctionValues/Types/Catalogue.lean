import FunctionValues.Types.TypeExpr

/-!
# A catalogue of types

The types that can be asked about by the way they are written.
-/

namespace FunctionValues

namespace TypeExpr

/-- Objects that can be stored, with every combination of promises that is in use. -/
private def anyObjects : List TypeExpr :=
  [.object .any false false, .object .any true false, .object .any true true]

/-- The types that consist of a name alone. -/
private def simple : List TypeExpr :=
  [Nominal.i8, .i16, .i32, .i64, .i128, .isize, .u8, .u16, .u32, .u64, .u128, .usize, .f32, .f64,
    .bool, .char, .str, .string, .functionError, .memoizationPolicy, .typeDescriptor,
    .functionType 1, .functionType 2].map named

/-- The types that are built from others. -/
private def composite : List TypeExpr :=
  let i32 := named .i32
  let u8 := named .u8
  let str := named .str
  let string := named .string
  let any := object .any false false
  let boxed := nominal .box [any]
  [unit, .reference false str, .reference false string, .reference false i32, .reference true i32,
    .reference false (.slice u8), .pointer false u8, .pointer true u8,
    .nominal .vec [u8], .nominal .vec [i32], .nominal .vec [string],
    .nominal .vec [.nominal .vec [i32]], .nominal .vec [boxed],
    .array i32 0, .array i32 3, .array i32 4,
    option i32, option string, option boxed, option (option i32),
    .nominal .result [i32, string], .nominal .result [string, i32],
    .tuple [i32], .tuple [i32, i32], .tuple [i32, string], .tuple [string, i32],
    .tuple [.tuple [i32, i32], i32], .tuple [i32, .tuple [i32, i32]], .tuple [i32, i32, i32],
    .tuple [boxed, i32],
    .nominal .box [i32], .nominal .rc [i32], .nominal .arc [i32],
    .nominal .box [str], .nominal .arc [str], .nominal .rc [str],
    .nominal .cell [i32], .nominal .refCell [string],
    .nominal .hashMap [string, i32], .nominal .hashSet [i32],
    .nominal .btreeMap [string, i32], .nominal .btreeSet [i32],
    .function [i32] i32,
    function1 i32 i32, function1 i32 string, function2 i32 string (named .bool),
    .reference false any, .nominal .box [boxed],
    .nominal .box [.object .any false true], .nominal .box [.object .display false false],
    .slice u8, .slice i32,
    .object .any false true, .object .display false false, .object .debug false false]

/-- Every type of the catalogue. -/
def catalogue : List TypeExpr :=
  simple ++ composite ++ anyObjects ++
    [Nominal.box, .rc, .arc].flatMap fun holder => anyObjects.map fun content =>
      .nominal holder [content]

/-- The type of the catalogue that is written in a way. -/
def ofSpelling? (spelling : String) : Option TypeExpr :=
  catalogue.find? (·.spelling == spelling)

/-- No two types of the catalogue are written alike. -/
theorem ofSpelling?_spelling : ∀ type ∈ catalogue, ofSpelling? type.spelling = some type := by
  decide +kernel

end TypeExpr

end FunctionValues
