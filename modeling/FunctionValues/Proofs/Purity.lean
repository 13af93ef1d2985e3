import FunctionValues.Proofs.Mirrors
import Mathlib.Data.Set.Defs

/-!
# Pure code

Code that reads no tick counter, handles no caseless texts and applies no memoized function but one.
It may fail, and carry on after a failure. What it does depends on the functions of the names that it
calls and on what the memoized function gives it, and not on the identities of callables, so outcomes
are compared with these left out.
-/

namespace FunctionValues

/-! ## Exact values -/

namespace Value

mutual

theorem isExact_folded : ∀ value : Value, value.folded.isExact = value.isExact
  | .unit | .bool _ | .int _ | .text _ | .caseless _ | .absent => rfl
  | .list items => by simp only [folded, isExact, allExact_foldedAll items]
  | .pair first second => by simp only [folded, isExact, isExact_folded first, isExact_folded second]
  | .present content | .ok content | .err content => by
      simp only [folded, isExact, isExact_folded content]

theorem allExact_foldedAll : ∀ items : List Value, allExact (foldedAll items) = allExact items
  | [] => rfl
  | item :: items => by
      simp only [foldedAll, allExact, isExact_folded item, allExact_foldedAll items]

end

/-- A value without caseless texts is the same argument as no other. -/
theorem eq_of_same {value other : Value} (exact : value.isExact = true)
    (same : value.same other = true) : value = other := by
  have folded := (same_iff value other).mp same
  have exact' : other.isExact = true := by rw [← isExact_folded, ← folded, isExact_folded, exact]
  exact (same_iff_eq exact exact').mp same

end Value

/-! ## Leaving out identities -/

/-- A callable without its identity. -/
def Callable.anonymous : Callable → Callable
  | .plain _ code => .plain 0 code
  | .memoized cache => .memoized cache

def Result.anonymous : Result → Result
  | .value content => .value content
  | .callable given => .callable given.anonymous

def Outcome.anonymous (outcome : Outcome) : Outcome :=
  outcome.map Result.anonymous

/-- A computation without the identity of the callable that it is about to apply or to give. -/
def Computation.anonymous : Computation → Computation
  | .give callable => .give callable.anonymous
  | .apply callable argument => .apply callable.anonymous argument
  | computation => computation

def Activity.anonymous : Activity → Activity
  | ⟨.run computation, frames⟩ => ⟨.run computation.anonymous, frames⟩
  | ⟨.answer outcome, frames⟩ => ⟨.answer outcome.anonymous, frames⟩
  | activity => activity

@[simp]
theorem Callable.anonymous_anonymous (callable : Callable) :
    callable.anonymous.anonymous = callable.anonymous := by
  cases callable <;> rfl

@[simp]
theorem Outcome.anonymous_anonymous (outcome : Outcome) :
    outcome.anonymous.anonymous = outcome.anonymous := by
  rcases outcome with failure | value | callable
  · rfl
  · rfl
  · exact congrArg (Except.ok ∘ Result.callable) callable.anonymous_anonymous

/-- Whether a result is kept does not depend on identities. -/
@[simp]
theorem Retention.keeps_anonymous (retention : Retention) (result : Result) :
    retention.keeps result.anonymous = retention.keeps result := by
  cases retention <;> rcases result with value | callable <;> simp [keeps, Result.anonymous]

theorem Computation.eq_of_anonymous {computation : Computation} {cache : Nat} {key : Value}
    (same : computation.anonymous = .apply (.memoized cache) key) :
    computation = .apply (.memoized cache) key := by
  rcases computation with _ | _ | ⟨_ | _, _⟩ | _ | _ | _ | _ | _ | _ <;>
    simp_all [anonymous, Callable.anonymous]

/-! ## Pure code -/

/-- A computation is pure, where pure code may apply the memoized function of this number and call
the functions of these names. -/
inductive Computation.IsPure (number : Nat) (names : Set String) : Computation → Prop
  | finish {reply : Reply} (exact : reply.isExact = true) : IsPure number names (.finish reply)
  | plain {identity : Nat} {code : Code}
      (run : ∀ argument, argument.isExact = true → IsPure number names (code argument)) :
      IsPure number names (.give (.plain identity code))
  | memoized : IsPure number names (.give (.memoized number))
  | apply {callable : Callable} {argument : Value} (given : IsPure number names (.give callable))
      (exact : argument.isExact = true) : IsPure number names (.apply callable argument)
  | bind {first : Computation} {next : Reply → Computation} (before : IsPure number names first)
      (onward : ∀ reply, Reply.isExact reply = true → IsPure number names (next reply)) :
      IsPure number names (.bind first next)
  | feed {first : Computation} {argument : Value} (before : IsPure number names first)
      (exact : argument.isExact = true) : IsPure number names (.feed first argument)
  | call {name : String} {arguments : List Value} (known : name ∈ names)
      (exact : Value.allExact arguments = true) : IsPure number names (.call name arguments)
  | note {rest : Computation} (label : String) (arguments : List Value)
      (onward : IsPure number names rest) : IsPure number names (.note label arguments rest)
  | fresh {code : Code}
      (run : ∀ argument, argument.isExact = true → IsPure number names (code argument)) :
      IsPure number names (.fresh fun identity => .give (.plain identity code))

/-- A callable is pure if its code is. -/
abbrev Callable.IsPure (number : Nat) (names : Set String) (callable : Callable) : Prop :=
  (Computation.give callable).IsPure number names

def Result.IsPure (number : Nat) (names : Set String) : Result → Prop
  | .value content => content.isExact = true
  | .callable given => given.IsPure number names

def Outcome.IsPure (number : Nat) (names : Set String) : Outcome → Prop
  | .ok result => result.IsPure number names
  | .error failure => failure.isExact = true

/-- What waits for an outcome of pure code is pure, and no cache does. -/
def Frame.IsPure (number : Nat) (names : Set String) : Frame → Prop
  | bind next => ∀ reply, Reply.isExact reply = true → (next reply).IsPure number names
  | feed argument => argument.isExact = true
  | computing .. => False

/-- What a thread runs or answers, and what waits for it, is pure. -/
def Activity.IsPure (number : Nat) (names : Set String) : Activity → Prop
  | ⟨.run computation, frames⟩ =>
      computation.IsPure number names ∧ ∀ frame ∈ frames, frame.IsPure number names
  | ⟨.answer outcome, frames⟩ =>
      outcome.IsPure number names ∧ ∀ frame ∈ frames, frame.IsPure number names
  | _ => False

variable {number : Nat} {names : Set String}

theorem Callable.isPure_anonymous {callable : Callable} :
    callable.anonymous.IsPure number names ↔ callable.IsPure number names := by
  cases callable with
  | memoized cache => rfl
  | plain identity code =>
      constructor <;>
        (intro pure
         cases pure with
         | plain run => exact .plain run)

theorem Computation.isPure_anonymous {computation : Computation} :
    computation.anonymous.IsPure number names ↔ computation.IsPure number names := by
  cases computation with
  | give callable => exact Callable.isPure_anonymous
  | apply callable argument =>
      constructor <;>
        (intro pure
         cases pure with
         | apply given exact => exact .apply (by simpa [Callable.isPure_anonymous] using given) exact)
  | _ => rfl

theorem Outcome.isPure_anonymous {outcome : Outcome} :
    outcome.anonymous.IsPure number names ↔ outcome.IsPure number names := by
  rcases outcome with failure | value | callable
  · rfl
  · rfl
  · exact Callable.isPure_anonymous

theorem Activity.isPure_anonymous {activity : Activity} :
    activity.anonymous.IsPure number names ↔ activity.IsPure number names := by
  obtain ⟨_ | _ | _ | _, frames⟩ := activity
  · exact and_congr_left' Computation.isPure_anonymous
  · exact and_congr_left' Outcome.isPure_anonymous
  · rfl
  · rfl

/-- Pure code applies callables to exact values. -/
theorem Activity.IsPure.isExact {callable : Callable} {argument : Value} {frames : List Frame}
    (pure : Activity.IsPure number names ⟨.run (.apply callable argument), frames⟩) :
    argument.isExact = true := by
  obtain ⟨applies, -⟩ := pure
  cases applies with
  | apply _ exact => exact exact

theorem Outcome.isPure_reply {reply : Reply} (exact : reply.isExact = true) :
    Outcome.IsPure number names (reply.map Result.value) := by
  cases reply with
  | ok value => exact exact
  | error failure => exact exact

/-- Supplying a pure function with arguments is pure. -/
theorem FunctionValue.isPure_invoke? {function : FunctionValue} {arguments : List Value}
    {computation : Computation} (pure : function.callable.IsPure number names)
    (exact : Value.allExact arguments = true)
    (invoked : function.invoke? arguments = some computation) :
    computation.IsPure number names := by
  obtain ⟨shape, kind, callable⟩ := function
  have paired : ∀ first second, first.isExact = true → second.isExact = true →
      (Value.pair first second).isExact = true := by
    intro first second exact exact'
    simp [Value.isExact, exact, exact']
  cases shape <;> rcases arguments with _ | ⟨first, _ | ⟨second, rest⟩⟩ <;> try cases invoked
  all_goals simp only [Value.allExact, Bool.and_eq_true] at exact
  · exact .apply pure exact.1
  · exact .apply pure (paired first second exact.1 exact.2.1)
  · exact .feed (.apply pure exact.1) exact.2.1
  · exact .apply pure (paired first second exact.1 exact.2.1)

theorem Computation.IsPure.closed : Closed names (IsPure number names) where
  finish exact := .finish exact
  call known exact := .call known exact
  bind before onward := .bind before onward
  note label arguments onward := .note label arguments onward

end FunctionValues
