import FunctionValues.Session
import Mathlib.Data.Set.Defs

/-!
# Code without memoization

A computation mirrors another when it does the same, apart from that it applies memoized functions
where the other applies what they are made from. Both are free of state: they read no tick counter,
their values hold no caseless texts, and what they do does not depend on the identities of callables.
The code of every definition and of every derived function is such a mirror.
-/

namespace FunctionValues

/-! ## Exact replies -/

/-- Whether what a failure leaves behind holds no caseless text. -/
def Failure.isExact : Failure → Bool
  | raised payload => payload.isExact
  | reentered _ | oversized => true

/-- Whether a reply holds no caseless text. -/
def Reply.isExact : Reply → Bool
  | .ok value => value.isExact
  | .error failure => failure.isExact

theorem Value.allExact_iff (items : List Value) :
    Value.allExact items = true ↔ ∀ item ∈ items, item.isExact = true := by
  induction items with
  | nil => simp [Value.allExact]
  | cons item items induction => simp [Value.allExact, induction]

theorem Value.allExact_append (left right : List Value) :
    Value.allExact (left ++ right) = (Value.allExact left && Value.allExact right) := by
  induction left with
  | nil => rfl
  | cons item items induction => simp [Value.allExact, induction, Bool.and_assoc]

theorem Value.isExact_swap {value : Value} (exact : value.isExact = true) :
    value.swap.isExact = true := by
  cases value <;> simp_all [Value.swap, Value.isExact]

theorem Kind.isExact_coerce (kind : Kind) {value : Value} (exact : value.isExact = true) :
    (kind.coerce value).isExact = true := by
  cases kind <;> cases value <;> simp_all [Kind.coerce, Value.isExact]

theorem Reply.isExact_caught {reply : Reply} (exact : reply.isExact = true) :
    (Reply.caught reply).isExact = true := by
  cases reply with
  | ok value => exact exact
  | error failure => rfl

theorem Integer.isExact_checked (number : Int) : (Integer.checked number).isExact = true := by
  unfold Integer.checked
  split <;> rfl

theorem Integer.isExact_divide (dividend divisor : Int) :
    (Integer.divide dividend divisor).isExact = true := by
  unfold Integer.divide
  split
  · rfl
  · exact Integer.isExact_checked _

theorem Integer.isExact_remainder (dividend divisor : Int) :
    (Integer.remainder dividend divisor).isExact = true := by
  unfold Integer.remainder
  split
  · rfl
  · split
    · exact Integer.isExact_checked _
    · rfl

namespace Operator

theorem isExact_item {items : List Value} (exact : Value.allExact items = true) (position : Int) :
    (item items position).isExact = true := by
  unfold item
  split
  next value found =>
    split at found
    · cases found
    · exact (Value.allExact_iff items).mp exact value (List.mem_of_getElem? found)
  next => rfl

theorem isExact_integerOf (letters : String) (radix : Nat) :
    (integerOf letters radix).isExact = true := by
  unfold integerOf
  split <;> rfl

theorem isExact_repeated (letters : String) (count : Int) :
    (repeated letters count).isExact = true := by
  unfold repeated
  split
  · rfl
  · split <;> rfl

/-- An operator makes no caseless text. -/
theorem isExact_evaluate (operator : Operator) {operands : List Value}
    (exact : Value.allExact operands = true) : (operator.evaluate operands).isExact = true := by
  unfold evaluate
  split
  case h_13 items position =>
    simp only [Value.allExact, Value.isExact, Bool.and_true] at exact
    exact isExact_item exact position
  case h_17 letters radix =>
    split
    · exact isExact_integerOf ..
    · rfl
  case h_18 => exact exact
  -- What is left puts operands together, takes them apart, or computes a number or a text.
  all_goals first
    | rfl
    | exact Integer.isExact_checked _
    | exact Integer.isExact_divide ..
    | exact Integer.isExact_remainder ..
    | exact isExact_repeated ..
    | simpa [Reply.isExact, Failure.isExact, Value.isExact, Value.allExact,
        Value.allExact_append] using exact
    | simp_all [Reply.isExact, Value.isExact, Value.allExact]

end Operator

/-! ## Pure expressions -/

namespace Expression

mutual

/-- Whether an expression reads no tick counter and holds no caseless text. -/
def isPure : Expression → Bool
  | literal value => value.isExact
  | argument _ => true
  | call _ operands => allPure operands
  | branch condition consequent alternative =>
    condition.isPure && consequent.isPure && alternative.isPure
  | attempt body => body.isPure
  | tick => false
  | operation _ operands => allPure operands

/-- Whether all of these expressions are pure. -/
def allPure : List Expression → Bool
  | [] => true
  | operand :: operands => operand.isPure && allPure operands

end

mutual

/-- The names of the functions that an expression applies. -/
def calls : Expression → List String
  | literal _ | argument _ | tick => []
  | call name operands => name :: allCalls operands
  | branch condition consequent alternative =>
    condition.calls ++ consequent.calls ++ alternative.calls
  | attempt body => body.calls
  | operation _ operands => allCalls operands

/-- The names of the functions that any of these expressions applies. -/
def allCalls : List Expression → List String
  | [] => []
  | operand :: operands => operand.calls ++ allCalls operands

end

end Expression

/-- A property that replies and calls of the functions of these names have, and what is put together
from computations that have it: the property of a pure expression that calls only these functions. -/
structure Computation.Closed (names : Set String) (holds : Computation → Prop) : Prop where
  finish {reply : Reply} (exact : reply.isExact = true) : holds (.finish reply)
  call {name : String} {arguments : List Value} (known : name ∈ names)
    (exact : Value.allExact arguments = true) : holds (.call name arguments)
  bind {first : Computation} {next : Reply → Computation} (before : holds first)
    (onward : ∀ reply, Reply.isExact reply = true → holds (next reply)) : holds (.bind first next)
  note {rest : Computation} (label : String) (arguments : List Value) (onward : holds rest) :
    holds (.note label arguments rest)

namespace Computation.Closed

variable {names : Set String} {holds : Computation → Prop}

theorem andThen (closed : Closed names holds) {first : Computation} {next : Value → Computation}
    (before : holds first) (onward : ∀ value, value.isExact = true → holds (next value)) :
    holds (first.andThen next) := by
  refine closed.bind before fun reply exact => ?_
  cases reply with
  | ok value => exact onward value exact
  | error failure => exact closed.finish exact

theorem attempt (closed : Closed names holds) {first : Computation} (before : holds first) :
    holds first.attempt :=
  closed.bind before fun _ exact => closed.finish (Reply.isExact_caught exact)

mutual

theorem compute (closed : Closed names holds) {arguments : List Value}
    (exact : Value.allExact arguments = true) :
    ∀ expression : Expression, expression.isPure = true →
      (∀ name ∈ expression.calls, name ∈ names) → holds (expression.compute arguments)
  | .literal value, pure, _ => closed.finish pure
  | .argument position, _, _ => by
      simp only [Expression.compute]
      split
      next value found =>
        exact closed.finish
          ((Value.allExact_iff arguments).mp exact value (List.mem_of_getElem? found))
      next => exact closed.finish rfl
  | .call name operands, pure, known => by
      obtain ⟨first, rest⟩ := List.forall_mem_cons.mp known
      simp only [Expression.compute]
      exact closed.computeAll exact operands pure rest fun _ exact' => closed.call first exact'
  | .branch condition consequent alternative, pure, known => by
      simp only [Expression.isPure, Bool.and_eq_true] at pure
      obtain ⟨⟨first, second⟩, third⟩ := pure
      simp only [Expression.calls, List.forall_mem_append] at known
      simp only [Expression.compute]
      refine closed.andThen (closed.compute exact condition first known.1.1) fun value _ => ?_
      split
      · exact closed.compute exact consequent second known.1.2
      · exact closed.compute exact alternative third known.2
      · exact closed.finish rfl
  | .attempt body, pure, known => by
      simp only [Expression.compute]
      exact closed.attempt (closed.compute exact body pure known)
  | .tick, pure, _ => by cases pure
  | .operation operator operands, pure, known => by
      simp only [Expression.compute]
      exact closed.computeAll exact operands pure known fun _ exact' =>
        closed.finish (operator.isExact_evaluate exact')

theorem computeAll (closed : Closed names holds) {arguments : List Value}
    (exact : Value.allExact arguments = true) :
    ∀ (operands : List Expression) {next : List Value → Computation},
      Expression.allPure operands = true → (∀ name ∈ Expression.allCalls operands, name ∈ names) →
      (∀ values, Value.allExact values = true → holds (next values)) →
      holds (Expression.computeAll arguments operands next)
  | [], _, _, _, onward => onward [] rfl
  | operand :: operands, next, pure, known, onward => by
      simp only [Expression.allPure, Bool.and_eq_true] at pure
      simp only [Expression.allCalls, List.forall_mem_append] at known
      simp only [Expression.computeAll]
      refine closed.andThen (closed.compute exact operand pure.1 known.1) fun value exact' => ?_
      refine closed.computeAll exact operands pure.2 known.2 fun values exact'' => onward _ ?_
      simp [Value.allExact, exact', exact'']

end

/-- The code of a pure definition has such a property on all exact arguments. -/
theorem code (closed : Closed names holds) {definition : Definition}
    (pure : definition.body.isPure = true) (known : ∀ name ∈ definition.body.calls, name ∈ names)
    {argument : Value} (exact : argument.isExact = true) : holds (definition.code argument) := by
  have body : holds (definition.body.code definition.label definition.arity argument) := by
    refine closed.note _ _ (closed.compute ?_ _ pure known)
    split
    · simpa [Value.allExact, Value.isExact] using exact
    · simpa [Value.allExact] using exact
  unfold Definition.code
  cases definition.manner with
  | direct kind =>
      exact closed.andThen body fun _ exact' => closed.finish (kind.isExact_coerce exact')
  | lift =>
      have fallible : holds ((definition.body.code definition.label definition.arity).coerce
          .fallible argument) := by
        exact closed.andThen body fun _ exact' =>
          closed.finish (Kind.fallible.isExact_coerce exact')
      refine closed.andThen fallible fun value exact' => ?_
      cases value with
      | ok content => exact closed.finish exact'
      | _ => exact closed.finish rfl
  | catching => exact closed.attempt body

end Computation.Closed

/-! ## Mirrors -/

/-- A computation mirrors another, where the memoized function of every number of a cache in `origin`
is made from the callable at that position. -/
inductive Computation.Mirrors (origin : List Callable) : Computation → Computation → Prop
  | finish {reply : Reply} (exact : reply.isExact = true) :
      Mirrors origin (.finish reply) (.finish reply)
  | plain {identity identity' : Nat} {code code' : Code}
      (run : ∀ argument, argument.isExact = true → Mirrors origin (code argument) (code' argument)) :
      Mirrors origin (.give (.plain identity code)) (.give (.plain identity' code'))
  | memoized {number : Nat} {callable : Callable} (made : origin[number]? = some callable) :
      Mirrors origin (.give (.memoized number)) (.give callable)
  | apply {callable callable' : Callable} {argument : Value}
      (given : Mirrors origin (.give callable) (.give callable'))
      (exact : argument.isExact = true) :
      Mirrors origin (.apply callable argument) (.apply callable' argument)
  | bind {first first' : Computation} {next next' : Reply → Computation}
      (before : Mirrors origin first first')
      (onward : ∀ reply, Reply.isExact reply = true → Mirrors origin (next reply) (next' reply)) :
      Mirrors origin (.bind first next) (.bind first' next')
  | feed {first first' : Computation} {argument : Value} (before : Mirrors origin first first')
      (exact : argument.isExact = true) :
      Mirrors origin (.feed first argument) (.feed first' argument)
  | call {arguments : List Value} (name : String) (exact : Value.allExact arguments = true) :
      Mirrors origin (.call name arguments) (.call name arguments)
  | note {rest rest' : Computation} (label : String) (arguments : List Value)
      (onward : Mirrors origin rest rest') :
      Mirrors origin (.note label arguments rest) (.note label arguments rest')
  | fresh {rest rest' : Nat → Computation}
      (onward : ∀ identity identity', Mirrors origin (rest identity) (rest' identity')) :
      Mirrors origin (.fresh rest) (.fresh rest')

/-- A callable mirrors another when giving it does. -/
def Callable.Mirrors (origin : List Callable) (callable callable' : Callable) : Prop :=
  Computation.Mirrors origin (.give callable) (.give callable')

/-- Code mirrors other code on all exact arguments. -/
def Code.Mirrors (origin : List Callable) (code code' : Code) : Prop :=
  ∀ argument, argument.isExact = true → Computation.Mirrors origin (code argument) (code' argument)

/-- An outcome mirrors another. -/
inductive Outcome.Mirrors (origin : List Callable) : Outcome → Outcome → Prop
  | value {value : Value} (exact : value.isExact = true) :
      Mirrors origin (.ok (.value value)) (.ok (.value value))
  | callable {callable callable' : Callable} (given : callable.Mirrors origin callable') :
      Mirrors origin (.ok (.callable callable)) (.ok (.callable callable'))
  | error {failure : Failure} (exact : failure.isExact = true) :
      Mirrors origin (.error failure) (.error failure)

/-- A function mirrors another of the same shape and kind. -/
structure FunctionValue.Mirrors (origin : List Callable) (function function' : FunctionValue) :
    Prop where
  shape : function'.shape = function.shape
  kind : function'.kind = function.kind
  callable : function.callable.Mirrors origin function'.callable

variable {origin more : List Callable}

namespace Computation.Mirrors

/-- More caches make no difference. -/
theorem append {computation computation' : Computation}
    (mirrors : computation.Mirrors origin computation') :
    computation.Mirrors (origin ++ more) computation' := by
  induction mirrors with
  | finish exact => exact .finish exact
  | plain _ induction => exact .plain induction
  | @memoized number callable made =>
      have inside : number < origin.length := (List.getElem?_eq_some_iff.mp made).1
      exact .memoized ((List.getElem?_append_left inside).trans made)
  | apply _ exact induction => exact .apply induction exact
  | bind _ _ first rest => exact .bind first rest
  | feed _ exact induction => exact .feed induction exact
  | call name exact => exact .call name exact
  | note label arguments _ induction => exact .note label arguments induction
  | fresh _ induction => exact .fresh induction

theorem andThen {first first' : Computation} {next next' : Value → Computation}
    (before : first.Mirrors origin first')
    (onward : ∀ value, value.isExact = true → (next value).Mirrors origin (next' value)) :
    (first.andThen next).Mirrors origin (first'.andThen next') := by
  refine .bind before fun reply exact => ?_
  cases reply with
  | ok value => exact onward value exact
  | error failure => exact .finish exact

/-- To mirror itself is such a property. -/
theorem closed : Closed Set.univ fun computation => computation.Mirrors origin computation where
  finish exact := .finish exact
  call _ exact := .call _ exact
  bind before onward := .bind before onward
  note label arguments onward := .note label arguments onward

end Computation.Mirrors

namespace Code.Mirrors

variable {callable callable' : Callable} {code code' : Code}

theorem ofCallable (given : callable.Mirrors origin callable') :
    (Code.ofCallable callable).Mirrors origin (Code.ofCallable callable') :=
  fun _ exact => .apply given exact

theorem identity : Code.identity.Mirrors origin Code.identity :=
  fun _ exact => .finish exact

theorem constant {value : Value} (exact : value.isExact = true) :
    (Code.constant value).Mirrors origin (Code.constant value) :=
  fun _ _ => .finish exact

theorem fixed (given : callable.Mirrors origin callable') {first : Value}
    (exact : first.isExact = true) :
    (Code.fixed callable first).Mirrors origin (Code.fixed callable' first) :=
  fun _ exact' => .apply given (by simp [Value.isExact, exact, exact'])

theorem curried (given : callable.Mirrors origin callable') :
    (Code.curried callable).Mirrors origin (Code.curried callable') :=
  fun _ exact => .fresh fun _ _ => .plain (fixed given exact)

theorem reversed (given : callable.Mirrors origin callable') :
    (Code.reversed callable).Mirrors origin (Code.reversed callable') :=
  fun _ exact => .apply given (Value.isExact_swap exact)

theorem andThen (given : callable.Mirrors origin callable') (later : code.Mirrors origin code') :
    (Code.andThen callable code).Mirrors origin (Code.andThen callable' code') :=
  fun _ exact => .andThen (.apply given exact) later

theorem compose (given : callable.Mirrors origin callable') (before : code.Mirrors origin code') :
    (Code.compose callable code).Mirrors origin (Code.compose callable' code') :=
  fun argument exact => .andThen (before argument exact) fun _ exact' => .apply given exact'

theorem coerce (kind : Kind) (run : code.Mirrors origin code') :
    (code.coerce kind).Mirrors origin (code'.coerce kind) :=
  fun argument exact =>
    .andThen (run argument exact) fun _ exact' => .finish (kind.isExact_coerce exact')

end Code.Mirrors

/-- The code of a pure definition mirrors itself. -/
theorem Definition.mirrors_code {definition : Definition} (pure : definition.body.isPure = true) :
    definition.code.Mirrors origin definition.code :=
  fun _ exact => Computation.Mirrors.closed.code pure (fun _ _ => trivial) exact

end FunctionValues
