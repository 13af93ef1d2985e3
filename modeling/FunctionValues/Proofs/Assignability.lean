import FunctionValues.Types.Applicability

/-!
# Assignability

A declared type takes values of its own type, and a dynamic one takes every value. Whether a
descriptor is dynamic is kept in it and not compared, but it is settled by the type; so descriptors
of one type stand for each other everywhere. Assignability is a preorder, in which every type is in
a class of its own, apart from the dynamic types, which form one class at the top.
-/

namespace FunctionValues

namespace TypeExpr

/-- The objects that can hold any value. -/
def universalObjects : List TypeExpr :=
  [.object .any false false, .object .any true false, .object .any true true]

/-- The constructors of which one may stand around an object that can hold any value. -/
def holders : List Nominal :=
  [.box, .rc, .arc]

theorem isAnyObject_iff (type : TypeExpr) :
    type.isAnyObject = true ↔ type ∈ universalObjects := by
  cases type with
  | object interface sendable shareable =>
      cases interface <;> cases sendable <;> cases shareable <;>
        simp [isAnyObject, universalObjects]
  | _ => simp [isAnyObject, universalObjects]

/-- The dynamic types: the objects that can hold any value, each of them alone or in one holder. -/
theorem isDynamic_iff (type : TypeExpr) :
    type.isDynamic = true ↔ type ∈ universalObjects ∨
      ∃ holder ∈ holders, ∃ content ∈ universalObjects, type = .nominal holder [content] := by
  cases type with
  | nominal name arguments =>
      have apart : .nominal name arguments ∉ universalObjects := by simp [universalObjects]
      constructor
      · intro dynamic
        right
        unfold isDynamic at dynamic
        split at dynamic
        case h_4 => exact absurd dynamic (by simp [isAnyObject])
        all_goals
          next content here =>
            cases here
            exact ⟨_, by simp [holders], content, (isAnyObject_iff content).mp dynamic, rfl⟩
      · rintro (member | ⟨holder, around, content, member, here⟩)
        · exact absurd member apart
        · cases here
          have any := (isAnyObject_iff content).mpr member
          simp only [holders, List.mem_cons, List.not_mem_nil, or_false] at around
          rcases around with rfl | rfl | rfl <;> exact any
  | object interface sendable shareable =>
      have alone : (object interface sendable shareable).isDynamic =
          (object interface sendable shareable).isAnyObject := rfl
      simp [alone, isAnyObject_iff]
  | _ => simp [isDynamic, isAnyObject, universalObjects]

/-- Every type differs from some other one. -/
theorem exists_ne (type : TypeExpr) : ∃ other, other ≠ type := by
  by_cases here : type = unit
  · exact ⟨.named .i32, by simp [here, named, unit]⟩
  · exact ⟨unit, Ne.symm here⟩

end TypeExpr

namespace Descriptor

/-- The ways in which descriptors are made. -/
inductive Made : Descriptor → Prop
  | of (type : TypeExpr) : Made (.of type)
  | ofValue (value : TypeExpr) : Made (.ofValue value)

variable {left middle right : Descriptor}

/-- The flag of a descriptor is that of its type. -/
theorem Made.dynamic_eq (made : left.Made) : left.dynamic = left.type.isDynamic := by
  cases made <;> rfl

@[simp]
theorem beq_iff_type : (left == right) = true ↔ left.type = right.type := by
  simp [BEq.beq]

theorem admits_iff : left.admits right = true ↔ left.dynamic = true ∨ left.type = right.type := by
  simp [admits]

theorem Made.dynamic_congr (left' : left.Made) (right' : right.Made)
    (same : left.type = right.type) : left.dynamic = right.dynamic := by
  rw [left'.dynamic_eq, right'.dynamic_eq, same]

/-! ## A preorder -/

theorem admits_refl (descriptor : Descriptor) : descriptor.admits descriptor = true :=
  admits_iff.mpr (.inr rfl)

theorem Made.admits_trans (left' : left.Made) (middle' : middle.Made)
    (first : left.admits middle = true) (second : middle.admits right = true) :
    left.admits right = true := by
  rw [admits_iff] at first second ⊢
  rcases first with dynamic | same
  · exact .inl dynamic
  · exact second.imp (left'.dynamic_congr middle' same).trans same.trans

/-- Two types take each other's values if they are one type, or if both take all values. -/
theorem admits_antisymm_iff :
    left.admits right = true ∧ right.admits left = true ↔
      (left == right) = true ∨ left.dynamic = true ∧ right.dynamic = true := by
  simp only [admits_iff, beq_iff_type]
  constructor
  · rintro ⟨dynamic | same, dynamic' | same'⟩
    · exact .inr ⟨dynamic, dynamic'⟩
    · exact .inl same'.symm
    · exact .inl same
    · exact .inl same
  · rintro (same | ⟨dynamic, dynamic'⟩)
    · exact ⟨.inr same, .inr same.symm⟩
    · exact ⟨.inl dynamic, .inl dynamic'⟩

/-- The dynamic types are those that take every value. -/
theorem dynamic_iff_admits_all :
    left.dynamic = true ↔ ∀ other : Descriptor, other.Made → left.admits other = true := by
  constructor
  · exact fun dynamic other _ => admits_iff.mpr (.inl dynamic)
  · intro all
    obtain ⟨other, different⟩ := left.type.exists_ne
    exact (admits_iff.mp (all _ (.of other))).resolve_right (Ne.symm different)

/-! ## Descriptors that stand for each other -/

/-- Two descriptors that nothing tells apart: neither hashing, nor assigning on either side, nor any
question which arguments a function accepts, be they asked about or declared. -/
structure Interchangeable (left right : Descriptor) : Prop where
  hash {State : Type} (feed : TypeExpr → State → State) (state : State) :
    left.hash feed state = right.hash feed state
  dynamic : left.dynamic = right.dynamic
  equal (other : Descriptor) : (left == other) = (right == other)
  admits (other : Descriptor) : left.admits other = right.admits other
  admitted (other : Descriptor) : other.admits left = other.admits right
  admitsValue (value : TypeExpr) : left.admitsValue value = right.admitsValue value
  admittedValue (other : Descriptor) : other.admitsValue left.type = other.admitsValue right.type
  admitsArgument (argument : Option TypeExpr) :
    left.admitsArgument argument = right.admitsArgument argument
  asked (function : Unary) :
    function.acceptsType (some left) = function.acceptsType (some right)
  askedFirst (function : Binary) (second : Option Descriptor) :
    function.acceptsTypes (some left) second = function.acceptsTypes (some right) second
  askedSecond (function : Binary) (first : Option Descriptor) :
    function.acceptsTypes first (some left) = function.acceptsTypes first (some right)
  declared (function other : Unary) (here : (left == .of function.parameter) = true)
    (there : (right == .of other.parameter) = true) :
    function.accepts = other.accepts ∧ function.acceptsType = other.acceptsType
  declaredFirst (function other : Binary) (here : (left == .of function.first) = true)
    (there : (right == .of other.first) = true) (rest : function.second = other.second) :
    function.accepts = other.accepts ∧ function.acceptsTypes = other.acceptsTypes ∧
      function.acceptsTypesOf = other.acceptsTypesOf
  declaredSecond (function other : Binary) (here : (left == .of function.second) = true)
    (there : (right == .of other.second) = true) (rest : function.first = other.first) :
    function.accepts = other.accepts ∧ function.acceptsTypes = other.acceptsTypes ∧
      function.acceptsTypesOf = other.acceptsTypesOf

theorem Made.interchangeable (left' : left.Made) (right' : right.Made)
    (equal : (left == right) = true) : left.Interchangeable right := by
  have same := beq_iff_type.mp equal
  have dynamic := left'.dynamic_congr right' same
  have admitted : ∀ other : Descriptor, other.admits left = other.admits right := by
    intro other
    rw [Bool.eq_iff_iff, admits_iff, admits_iff, same]
  have admitsValue : ∀ value, left.admitsValue value = right.admitsValue value := by
    intro value
    rw [Descriptor.admitsValue, Descriptor.admitsValue, dynamic, same]
  have declared : ∀ {type type' : TypeExpr}, (left == .of type) = true →
      (right == .of type') = true → type = type' := by
    intro type type' here there
    exact (beq_iff_type.mp here).symm.trans (same.trans (beq_iff_type.mp there))
  constructor
  case hash => exact fun feed state => congrArg (feed · state) same
  case dynamic => exact dynamic
  case equal =>
    intro other
    rw [Bool.eq_iff_iff, beq_iff_type, beq_iff_type, same]
  case admits =>
    intro other
    rw [Bool.eq_iff_iff, admits_iff, admits_iff, dynamic, same]
  case admitted => exact admitted
  case admitsValue => exact admitsValue
  case admittedValue => exact fun other => congrArg other.admitsValue same
  case admitsArgument =>
    intro argument
    cases argument with
    | none => rfl
    | some value => exact admitsValue value
  case asked => exact fun function => congrArg Except.ok (admitted _)
  case askedFirst =>
    intro function second
    cases second with
    | none => rfl
    | some second => exact congrArg Except.ok (congrArg (· && _) (admitted _))
  case askedSecond =>
    intro function first
    cases first with
    | none => rfl
    | some first => exact congrArg Except.ok (congrArg (_ && ·) (admitted _))
  case declared =>
    rintro ⟨parameter, result⟩ ⟨parameter', result'⟩ here there
    obtain rfl : parameter = parameter' := declared here there
    exact ⟨rfl, rfl⟩
  case declaredFirst =>
    rintro ⟨first, second, result⟩ ⟨first', second', result'⟩ here there rfl
    obtain rfl : first = first' := declared here there
    exact ⟨rfl, rfl, rfl⟩
  case declaredSecond =>
    rintro ⟨first, second, result⟩ ⟨first', second', result'⟩ here there rfl
    obtain rfl : second = second' := declared here there
    exact ⟨rfl, rfl, rfl⟩

/-- Assignability is a preorder whose classes are the single types and, at the top, the dynamic
types together; and descriptors of one type stand for each other. -/
theorem assignability (left' : left.Made) (middle' : middle.Made) (right' : right.Made) :
    left.admits left = true ∧
    (left.admits middle = true → middle.admits right = true → left.admits right = true) ∧
    (left.admits right = true ∧ right.admits left = true ↔
      (left == right) = true ∨ left.dynamic = true ∧ right.dynamic = true) ∧
    (left.dynamic = true ↔ ∀ other : Descriptor, other.Made → left.admits other = true) ∧
    (left.dynamic = true ↔ left.type ∈ TypeExpr.universalObjects ∨
      ∃ holder ∈ TypeExpr.holders, ∃ content ∈ TypeExpr.universalObjects,
        left.type = .nominal holder [content]) ∧
    ((left == right) = true → left.Interchangeable right) := by
  refine ⟨admits_refl left, left'.admits_trans middle', admits_antisymm_iff,
    dynamic_iff_admits_all, ?_, left'.interchangeable right'⟩
  rw [left'.dynamic_eq, TypeExpr.isDynamic_iff]

/-- A box of an object that can hold any value takes an integer; a box of such a box does not. -/
theorem assignability_boxes :
    (of (.nominal .box [.object .any false false])).admits (of (.named .i32)) = true ∧
      (of (.nominal .box [.nominal .box [.object .any false false]])).admits
        (of (.named .i32)) = false ∧
      (of (.nominal .box [.object .any false false])).Interchangeable
        (ofValue (.nominal .box [.object .any false false])) :=
  ⟨by decide, by decide, (assignability (.of _) (.of (.named .i32)) (.ofValue _)).2.2.2.2.2 rfl⟩

end Descriptor

end FunctionValues
