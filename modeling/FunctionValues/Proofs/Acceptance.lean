import FunctionValues.Types.Derivation
import FunctionValues.Proofs.Assignability
import FunctionValues.Proofs.Chains
import Mathlib.Logic.Function.Iterate

/-!
# Which arguments a function accepts

A function is asked with arguments, with descriptors of types, or with types, and it answers alike.
Deriving a function of two arguments from another changes the answers only where the arguments
change places. Fixing the first argument or taking the arguments one after another asks about one of
them with the other absent; taking them as a pair asks for exactly the declared types, since a pair
is not dynamic, whatever its parts are.
-/

namespace FunctionValues

namespace Descriptor

/-- A value is admitted where its type is. -/
theorem admits_of (descriptor : Descriptor) (type : TypeExpr) :
    descriptor.admits (.of type) = descriptor.admitsArgument (some type) := by
  have same : (descriptor == of type) = decide (type = descriptor.type) := by
    rw [Bool.eq_iff_iff, beq_iff_type, decide_eq_true_iff]
    exact eq_comm
  rw [admits, same]
  rfl

/-- A declared type takes values of its own. -/
theorem admitsArgument_self (type : TypeExpr) : (of type).admitsArgument (some type) = true := by
  simp [admitsArgument, admitsValue, of]

end Descriptor

namespace Unary

variable (function : Unary)

/-- A function of one argument answers alike about a value and about its type. -/
theorem acceptsType_of (type : TypeExpr) :
    function.acceptsType (some (.of type)) = .ok (function.accepts (some type)) :=
  congrArg Except.ok (Descriptor.admits_of _ type)

end Unary

namespace Binary

variable (function : Binary)

/-- A function answers alike about two values and about their types. -/
theorem acceptsTypes_of (first second : TypeExpr) :
    function.acceptsTypes (some (.of first)) (some (.of second)) =
      .ok (function.accepts (some first) (some second)) := by
  simp only [acceptsTypes, Descriptor.require, accepts, ← Descriptor.admits_of]
  rfl

theorem acceptsTypesOf_eq (first second : TypeExpr) :
    function.acceptsTypesOf first second = function.accepts (some first) (some second) := by
  simp only [acceptsTypesOf, accepts, Descriptor.admits_of]

/-! ## Absent arguments and types -/

/-- An absent argument is as good as one of the declared type. -/
theorem accepts_none_first (second : Option TypeExpr) :
    function.accepts none second = function.accepts (some function.first) second := by
  simp only [accepts, Descriptor.admitsArgument_self]
  rfl

theorem accepts_none_second (first : Option TypeExpr) :
    function.accepts first none = function.accepts first (some function.second) := by
  simp only [accepts, Descriptor.admitsArgument_self]
  rfl

theorem acceptsTypes_none_first (second : Option Descriptor) :
    function.acceptsTypes none second = .error ⟨"type1"⟩ :=
  rfl

theorem acceptsTypes_none_second (first : Descriptor) :
    function.acceptsTypes (some first) none = .error ⟨"type2"⟩ :=
  rfl

/-! ## Arguments that change places -/

theorem accepts_reversed (first second : Option TypeExpr) :
    function.reversed.accepts first second = function.accepts second first :=
  Bool.and_comm ..

theorem acceptsTypes_reversed (first second : Descriptor) :
    function.reversed.acceptsTypes (some first) (some second) =
      function.acceptsTypes (some second) (some first) :=
  congrArg Except.ok (Bool.and_comm ..)

theorem acceptsTypesOf_reversed (first second : TypeExpr) :
    function.reversed.acceptsTypesOf first second = function.acceptsTypesOf second first :=
  Bool.and_comm ..

/-! ## Pairs -/

/-- A pair is accepted when its parts have the declared types. -/
theorem accepts_tupled (first second : TypeExpr) :
    function.tupled.accepts (some (.tuple [first, second])) =
      decide (first = function.first ∧ second = function.second) := by
  rw [Bool.eq_iff_iff]
  simp [Unary.accepts, Descriptor.admitsArgument, Descriptor.admitsValue, Descriptor.of, tupled,
    TypeExpr.isDynamic, TypeExpr.isAnyObject]

theorem accepts_declared :
    function.accepts (some function.first) (some function.second) = true := by
  simp only [accepts, Descriptor.admitsArgument_self, Bool.and_self]

/-- Where the parts are accepted and the pair is not, a declared type is dynamic. -/
theorem dynamic_of_accepts {first second : TypeExpr}
    (accepts : function.accepts (some first) (some second) = true)
    (different : ¬(first = function.first ∧ second = function.second)) :
    function.first.isDynamic = true ∨ function.second.isDynamic = true := by
  rw [Binary.accepts, Bool.and_eq_true, ← Descriptor.admits_of, ← Descriptor.admits_of,
    Descriptor.admits_iff, Descriptor.admits_iff] at accepts
  rcases accepts with ⟨dynamic | same, dynamic' | same'⟩
  · exact .inl dynamic
  · exact .inl dynamic
  · exact .inr dynamic'
  · exact absurd ⟨same.symm, same'.symm⟩ different

end Binary

namespace Derivation

variable {world after : World} {function derived : TypedBinary} {steps : List Derivation}

theorem types_of_perform {derivation : Derivation}
    (made : derivation.perform world function = some (derived, after)) :
    derived.types = derivation.types function.types := by
  simp only [perform, Option.bind_eq_bind, Option.bind_eq_some_iff, Prod.exists] at made
  obtain ⟨value, world', -, made⟩ := made
  cases made
  rfl

/-- A check that follows the arguments when they change places follows them through every chain. -/
theorem check_of_chain {Asked Answer : Type} (check : Binary → Asked → Asked → Answer)
    (turned : ∀ function first second, check function.reversed first second =
      check function second first)
    (onward : ∀ function result, check (function.andThen result) = check function)
    (made : chain steps world function = some (derived, after)) (asked : Asked × Asked) :
    check derived.types asked.1 asked.2 =
      check function.types (Prod.swap^[reversals steps] asked).1
        (Prod.swap^[reversals steps] asked).2 := by
  induction steps generalizing world function with
  | nil =>
      cases made
      rfl
  | cons step steps induction =>
      simp only [chain, Option.bind_eq_bind, Option.bind_eq_some_iff, Prod.exists] at made
      obtain ⟨middle, world', performed, rest⟩ := made
      rw [induction rest, types_of_perform performed]
      cases step with
      | clone | memoize policy retention => rfl
      | andThen next result => exact congrFun (congrFun (onward ..) _) _
      | reverse =>
          rw [reversals, Function.iterate_succ_apply']
          exact turned ..

end Derivation

theorem Narrowing.types_of_perform {narrowing : Narrowing} {world after : World}
    {function : TypedBinary} {derived : TypedUnary}
    (made : narrowing.perform world function = some (derived, after)) :
    derived.types = narrowing.types function.types := by
  simp only [perform, Option.bind_eq_bind, Option.bind_eq_some_iff, Prod.exists] at made
  obtain ⟨value, world', -, made⟩ := made
  cases made
  rfl

/-- A thread that asks comes to the answers, in the world in which it began. -/
theorem World.ends_inquire {Inquiry : Type} {answer : Inquiry → Except MissingArgument Bool}
    {answers : List Value} {inquiries : List Inquiry} {thread : Thread} {world after : World}
    {outcome : Outcome} :
    world.Ends thread (.inquire answer answers inquiries) after outcome ↔
      after = world ∧ outcome = .ok (.value (.list
        (answers ++ inquiries.map fun inquiry => .ofAnswer (answer inquiry)))) := by
  induction inquiries generalizing answers with
  | nil => simpa [Computation.inquire] using World.ends_value
  | cons inquiry inquiries induction =>
      rw [Computation.inquire, World.ends_andThen, List.map_cons, List.append_cons]
      constructor
      · rintro (⟨middle, value, first, rest⟩ | ⟨first, failed⟩)
        · obtain ⟨rfl, same⟩ := World.ends_value.mp first
          cases same
          exact induction.mp rest
        · exact absurd (World.ends_value.mp first).2 (failed _)
      · intro ended
        exact .inl ⟨world, _, World.ends_value.mpr ⟨rfl, rfl⟩, induction.mpr ended⟩

/-! ## All checks together -/

/-- The checks of a function of two arguments, and those of the functions that are derived from it,
answer alike. -/
structure TypedBinary.Consistent (function : TypedBinary) : Prop where
  /-- Values, descriptors of their types, and the types themselves are answered alike. -/
  forms (first second : TypeExpr) :
    function.types.acceptsTypes (some (.of first)) (some (.of second)) =
        .ok (function.types.accepts (some first) (some second)) ∧
      function.types.acceptsTypesOf first second =
        function.types.accepts (some first) (some second)
  /-- Where a value is absent the other one decides, as if the absent one were of its declared
  type. -/
  absent (value : Option TypeExpr) :
    function.types.accepts none value =
        (Descriptor.of function.types.second).admitsArgument value ∧
      function.types.accepts none value =
        function.types.accepts (some function.types.first) value ∧
      function.types.accepts value none =
        (Descriptor.of function.types.first).admitsArgument value ∧
      function.types.accepts value none =
        function.types.accepts value (some function.types.second) ∧
      function.types.accepts none none = true
  /-- The first type that is absent is the one that is missed. -/
  missing (type : Option Descriptor) (given : Descriptor) :
    function.types.acceptsTypes none type = .error ⟨"type1"⟩ ∧
      function.types.acceptsTypes (some given) none = .error ⟨"type2"⟩
  /-- Derived functions accept the same, with the arguments in the other order for every time that
  they changed places. -/
  chain {steps : List Derivation} {world after : World} {derived : TypedBinary}
    (made : Derivation.chain steps world function = some (derived, after)) :
    (∀ values, derived.types.accepts values.1 values.2 =
      function.types.accepts (Prod.swap^[Derivation.reversals steps] values).1
        (Prod.swap^[Derivation.reversals steps] values).2) ∧
    (∀ types : Descriptor × Descriptor,
      derived.types.acceptsTypes (some types.1) (some types.2) =
        function.types.acceptsTypes (some (Prod.swap^[Derivation.reversals steps] types).1)
          (some (Prod.swap^[Derivation.reversals steps] types).2)) ∧
    ∀ types, derived.types.acceptsTypesOf types.1 types.2 =
      function.types.acceptsTypesOf (Prod.swap^[Derivation.reversals steps] types).1
        (Prod.swap^[Derivation.reversals steps] types).2
  /-- With the first argument fixed the second one is asked about. -/
  fixed {value : Value} {world after : World} {derived : TypedUnary}
    (made : (Narrowing.fixFirst value).perform world function = some (derived, after))
    (second : Option TypeExpr) (type : TypeExpr) :
    derived.types.accepts second = function.types.accepts none second ∧
      derived.types.acceptsType (some (.of type)) =
        .ok (function.types.accepts none (some type)) ∧
      derived.types.acceptsType none = .error ⟨"type"⟩
  /-- With the arguments taken one after another the first one is asked about. -/
  curried {world after : World} {derived : TypedUnary}
    (made : Narrowing.curry.perform world function = some (derived, after))
    (first : Option TypeExpr) (type : TypeExpr) :
    derived.types.accepts first = function.types.accepts first none ∧
      derived.types.acceptsType (some (.of type)) =
        .ok (function.types.accepts (some type) none) ∧
      derived.types.acceptsType none = .error ⟨"type"⟩
  /-- With the arguments taken as a pair exactly the declared types are accepted. -/
  tupled {world after : World} {derived : TypedUnary}
    (made : Narrowing.tuple.perform world function = some (derived, after))
    (first second : TypeExpr) :
    (derived.types.accepts (some (.tuple [first, second])) = true ↔
      first = function.types.first ∧ second = function.types.second) ∧
    derived.types.acceptsType (some (.of (.tuple [first, second]))) =
      .ok (derived.types.accepts (some (.tuple [first, second]))) ∧
    (derived.types.accepts (some (.tuple [first, second])) = true →
      function.types.accepts (some first) (some second) = true) ∧
    (derived.types.accepts (some (.tuple [first, second])) ≠
        function.types.accepts (some first) (some second) →
      function.types.first.isDynamic = true ∨ function.types.second.isDynamic = true)
  /-- Code that asks comes to the answers, and leaves the world as it is. -/
  asking (inquiries : List Binary.Inquiry) {thread : Thread} {world after : World}
    {outcome : Outcome} :
    world.Ends thread (function.inquire inquiries) after outcome ↔
      after = world ∧ outcome = .ok (.value (.list
        (inquiries.map fun inquiry => .ofAnswer (function.types.answer inquiry))))
  /-- So does code that asks a function of one argument that was derived. -/
  askingNarrowed {narrowing : Narrowing} {before made : World} {derived : TypedUnary}
    (performed : narrowing.perform before function = some (derived, made))
    (inquiries : List Unary.Inquiry) {thread : Thread} {world after : World} {outcome : Outcome} :
    world.Ends thread (derived.inquire inquiries) after outcome ↔
      after = world ∧ outcome = .ok (.value (.list
        (inquiries.map fun inquiry => .ofAnswer (derived.types.answer inquiry))))

/-- All checks which arguments a function accepts agree, also across derived functions, and asking
leaves the world as it is. -/
theorem TypedBinary.consistent (function : TypedBinary) : function.Consistent where
  forms first second :=
    ⟨function.types.acceptsTypes_of first second, function.types.acceptsTypesOf_eq first second⟩
  absent value :=
    ⟨Bool.true_and _, function.types.accepts_none_first value, Bool.and_true _,
      function.types.accepts_none_second value, rfl⟩
  missing type given :=
    ⟨function.types.acceptsTypes_none_first type, function.types.acceptsTypes_none_second given⟩
  chain made :=
    ⟨Derivation.check_of_chain Binary.accepts Binary.accepts_reversed (fun _ _ => rfl) made,
      Derivation.check_of_chain (fun function first second =>
        function.acceptsTypes (some first) (some second)) Binary.acceptsTypes_reversed
        (fun _ _ => rfl) made,
      Derivation.check_of_chain Binary.acceptsTypesOf Binary.acceptsTypesOf_reversed
        (fun _ _ => rfl) made⟩
  fixed made second type := by
    rw [Unary.acceptsType_of, Narrowing.types_of_perform made]
    exact ⟨(Bool.true_and _).symm, congrArg Except.ok (Bool.true_and _).symm, rfl⟩
  curried made first type := by
    rw [Unary.acceptsType_of, Narrowing.types_of_perform made]
    exact ⟨(Bool.and_true _).symm, congrArg Except.ok (Bool.and_true _).symm, rfl⟩
  tupled made first second := by
    have pair := function.types.accepts_tupled first second
    rw [Unary.acceptsType_of, Narrowing.types_of_perform made]
    change (function.types.tupled.accepts _ = true ↔ _) ∧ _ ∧
      (function.types.tupled.accepts _ = true → _) ∧ (function.types.tupled.accepts _ ≠ _ → _)
    rw [pair, decide_eq_true_iff]
    refine ⟨Iff.rfl, rfl, ?_, fun different => ?_⟩
    · rintro ⟨rfl, rfl⟩
      exact function.types.accepts_declared
    · by_cases same : first = function.types.first ∧ second = function.types.second
      · obtain ⟨rfl, rfl⟩ := same
        simp [function.types.accepts_declared] at different
      · refine function.types.dynamic_of_accepts ?_ same
        simpa [same] using different
  asking _ := World.ends_inquire
  askingNarrowed _ _ := World.ends_inquire

/-- A function of an integer and a text. -/
def TypedBinary.labelled : TypedBinary :=
  ⟨⟨.named .i32, .named .string, .named .string⟩, ⟨.two, .plain, .plain 0 Code.identity⟩⟩

/-- Reversed and memoized it takes the text first. -/
theorem TypedBinary.consistent_labelled :
    ∃ derived after,
      Derivation.chain [.reverse, .memoize .perKey .all] {} labelled = some (derived, after) ∧
      derived.types.acceptsTypesOf (.named .string) (.named .i32) = true ∧
      derived.types.acceptsTypesOf (.named .i32) (.named .string) = false := by
  have made : ∃ derived after,
      Derivation.chain [.reverse, .memoize .perKey .all] {} labelled = some (derived, after) :=
    ⟨_, _, rfl⟩
  obtain ⟨derived, after, made⟩ := made
  have typesOf := (labelled.consistent.chain made).2.2
  refine ⟨derived, after, made, ?_, ?_⟩
  · rw [typesOf (.named .string, .named .i32)]
    decide
  · rw [typesOf (.named .i32, .named .string)]
    decide

end FunctionValues
