import FunctionValues.Proofs.Mirrors

/-!
# Evaluation without memoization

What a computation comes to where no function is memoized, as a relation that follows the structure
of the computation and counts the steps. It gives every new callable the same identity, which code
without state does not notice, so a computation evaluates to one outcome in one number of steps.
-/

namespace FunctionValues

namespace Computation

/-- A computation evaluates to an outcome in so many steps, where names stand for these functions
and none is memoized. -/
inductive Evaluates (functions : List (String × FunctionValue)) :
    Nat → Computation → Outcome → Prop
  | finish (reply : Reply) : Evaluates functions 0 (.finish reply) (reply.map .value)
  | give (callable : Callable) : Evaluates functions 0 (.give callable) (.ok (.callable callable))
  | apply {steps identity : Nat} {code : Code} {argument : Value} {outcome : Outcome}
      (run : Evaluates functions steps (code argument) outcome) :
      Evaluates functions (steps + 1) (.apply (.plain identity code) argument) outcome
  | bind {steps more : Nat} {first : Computation} {next : Reply → Computation}
      {outcome last : Outcome} {reply : Reply} (before : Evaluates functions steps first outcome)
      (replied : outcome.reply? = some reply) (onward : Evaluates functions more (next reply) last) :
      Evaluates functions (steps + more + 1) (.bind first next) last
  | pass {steps : Nat} {first : Computation} {next : Reply → Computation} {callable : Callable}
      (before : Evaluates functions steps first (.ok (.callable callable))) :
      Evaluates functions (steps + 1) (.bind first next) (.ok (.callable callable))
  | feed {steps more : Nat} {first : Computation} {argument : Value} {callable : Callable}
      {last : Outcome} (before : Evaluates functions steps first (.ok (.callable callable)))
      (onward : Evaluates functions more (.apply callable argument) last) :
      Evaluates functions (steps + more + 1) (.feed first argument) last
  | unfed {steps : Nat} {first : Computation} {argument : Value} {outcome : Outcome} {reply : Reply}
      (before : Evaluates functions steps first outcome) (replied : outcome.reply? = some reply) :
      Evaluates functions (steps + 1) (.feed first argument) outcome
  | call {steps : Nat} {name : String} {arguments : List Value} {outcome : Outcome}
      (run : Evaluates functions steps (World.resolve { functions } name arguments) outcome) :
      Evaluates functions (steps + 1) (.call name arguments) outcome
  | note {steps : Nat} {rest : Computation} {outcome : Outcome} (label : String)
      (arguments : List Value) (run : Evaluates functions steps rest outcome) :
      Evaluates functions (steps + 1) (.note label arguments rest) outcome
  | fresh {steps : Nat} {rest : Nat → Computation} {outcome : Outcome}
      (run : Evaluates functions steps (rest 0) outcome) :
      Evaluates functions (steps + 1) (.fresh rest) outcome

/-- A computation evaluates to one outcome, in one number of steps. -/
theorem Evaluates.unique {functions : List (String × FunctionValue)} {steps count : Nat}
    {computation : Computation} {outcome last : Outcome}
    (first : Evaluates functions steps computation outcome)
    (second : Evaluates functions count computation last) : steps = count ∧ outcome = last := by
  induction first generalizing count last with
  | finish reply | give callable =>
      cases second
      exact ⟨rfl, rfl⟩
  | apply _ induction =>
      cases second with
      | apply run =>
          obtain ⟨rfl, rfl⟩ := induction run
          exact ⟨rfl, rfl⟩
  | bind _ replied _ first rest =>
      cases second with
      | bind before replied' onward =>
          obtain ⟨rfl, rfl⟩ := first before
          obtain rfl := Option.some.inj (replied.symm.trans replied')
          obtain ⟨rfl, rfl⟩ := rest onward
          exact ⟨rfl, rfl⟩
      | pass before =>
          obtain ⟨rfl, rfl⟩ := first before
          cases replied
  | pass _ induction =>
      cases second with
      | bind before replied' onward =>
          obtain ⟨rfl, rfl⟩ := induction before
          cases replied'
      | pass before =>
          obtain ⟨rfl, same⟩ := induction before
          exact ⟨rfl, same⟩
  | feed _ _ first rest =>
      cases second with
      | feed before onward =>
          obtain ⟨rfl, same⟩ := first before
          cases same
          obtain ⟨rfl, rfl⟩ := rest onward
          exact ⟨rfl, rfl⟩
      | unfed before replied =>
          obtain ⟨rfl, rfl⟩ := first before
          cases replied
  | unfed _ replied induction =>
      cases second with
      | feed before onward =>
          obtain ⟨rfl, rfl⟩ := induction before
          cases replied
      | unfed before replied' =>
          obtain ⟨rfl, rfl⟩ := induction before
          exact ⟨rfl, rfl⟩
  | call _ induction =>
      cases second with
      | call run =>
          obtain ⟨rfl, rfl⟩ := induction run
          exact ⟨rfl, rfl⟩
  | note label arguments _ induction =>
      cases second with
      | note _ _ run =>
          obtain ⟨rfl, rfl⟩ := induction run
          exact ⟨rfl, rfl⟩
  | fresh _ induction =>
      cases second with
      | fresh run =>
          obtain ⟨rfl, rfl⟩ := induction run
          exact ⟨rfl, rfl⟩

end Computation

end FunctionValues
