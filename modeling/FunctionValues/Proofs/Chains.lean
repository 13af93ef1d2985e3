import FunctionValues.Proofs.Enclosure
import Mathlib.Algebra.Ring.Parity

/-!
# Chains of transformations

A function is derived from another by a chain of transformations, each perhaps made long after the
one before. To apply it is to take a few legs in turn: those that prepare the arguments, the last
that was added first, then one application of the function that the chain began with, then those
that follow its result, in the order in which they were added. Making a function of the chain takes
none of these legs, and neither does giving a curried one its first argument.
-/

namespace FunctionValues

/-! ## Legs -/

/-- A part of what applying a derived function does with a value. -/
inductive Leg where
  /-- Change the value without running code. -/
  | route (change : Value → Value)
  /-- Apply a callable to the value and go on with the result. -/
  | apply (callable : Callable)

namespace World

variable {thread : Thread} {world after : World} {outcome : Outcome} {value : Value}

/-- A thread takes legs one after another. The first that does not come back with a value is the
last that it takes. -/
inductive InTurn (thread : Thread) : World → List Leg → Value → World → Outcome → Prop
  | done (world : World) (value : Value) : InTurn thread world [] value world (.ok (.value value))
  | route {world after : World} {change : Value → Value} {legs : List Leg} {value : Value}
      {outcome : Outcome} (rest : InTurn thread world legs (change value) after outcome) :
      InTurn thread world (.route change :: legs) value after outcome
  | apply {world middle after : World} {callable : Callable} {legs : List Leg}
      {value result : Value} {outcome : Outcome}
      (first : world.Ends thread (.apply callable value) middle (.ok (.value result)))
      (rest : InTurn thread middle legs result after outcome) :
      InTurn thread world (.apply callable :: legs) value after outcome
  | stop {world after : World} {callable : Callable} {legs : List Leg} {value : Value}
      {outcome : Outcome} (first : world.Ends thread (.apply callable value) after outcome)
      (stops : ∀ result, outcome ≠ .ok (.value result)) :
      InTurn thread world (.apply callable :: legs) value after outcome

/-- To take more legs is to take the first of them and, if they come back with a value, the rest. -/
theorem inTurn_append {first second : List Leg} :
    world.InTurn thread (first ++ second) value after outcome ↔
      (∃ middle result, world.InTurn thread first value middle (.ok (.value result)) ∧
        middle.InTurn thread second result after outcome) ∨
      world.InTurn thread first value after outcome ∧ ∀ result, outcome ≠ .ok (.value result) := by
  induction first generalizing world value with
  | nil =>
      constructor
      · exact fun rest => .inl ⟨world, value, .done world value, rest⟩
      · rintro (⟨middle, result, done, rest⟩ | ⟨done, stops⟩)
        · cases done
          exact rest
        · cases done
          exact absurd rfl (stops value)
  | cons leg legs induction =>
      cases leg with
      | route change =>
          constructor
          · intro turns
            cases turns with
            | route rest =>
                rcases induction.mp rest with ⟨middle, result, first, second⟩ | ⟨first, stops⟩
                · exact .inl ⟨middle, result, .route first, second⟩
                · exact .inr ⟨.route first, stops⟩
          · rintro (⟨middle, result, first, second⟩ | ⟨first, stops⟩)
            · cases first with
              | route rest => exact .route (induction.mpr (.inl ⟨middle, result, rest, second⟩))
            · cases first with
              | route rest => exact .route (induction.mpr (.inr ⟨rest, stops⟩))
      | apply callable =>
          constructor
          · intro turns
            cases turns with
            | apply applied rest =>
                rcases induction.mp rest with ⟨middle, result, first, second⟩ | ⟨first, stops⟩
                · exact .inl ⟨middle, result, .apply applied first, second⟩
                · exact .inr ⟨.apply applied first, stops⟩
            | stop applied stops => exact .inr ⟨.stop applied stops, stops⟩
          · rintro (⟨middle, result, first, second⟩ | ⟨first, stops⟩)
            · cases first with
              | apply applied rest =>
                  exact .apply applied (induction.mpr (.inl ⟨middle, result, rest, second⟩))
              | stop applied stops => exact absurd rfl (stops result)
            · cases first with
              | apply applied rest => exact .apply applied (induction.mpr (.inr ⟨rest, stops⟩))
              | stop applied _ => exact .stop applied stops

theorem inTurn_nil :
    world.InTurn thread [] value after outcome ↔ after = world ∧ outcome = .ok (.value value) := by
  constructor
  · intro turns
    cases turns
    exact ⟨rfl, rfl⟩
  · rintro ⟨rfl, rfl⟩
    exact .done ..

theorem inTurn_route {change : Value → Value} {legs : List Leg} :
    world.InTurn thread (.route change :: legs) value after outcome ↔
      world.InTurn thread legs (change value) after outcome := by
  constructor
  · intro turns
    cases turns with
    | route rest => exact rest
  · exact .route

theorem inTurn_apply {callable : Callable} {legs : List Leg} :
    world.InTurn thread (.apply callable :: legs) value after outcome ↔
      (∃ middle result, world.Ends thread (.apply callable value) middle (.ok (.value result)) ∧
        middle.InTurn thread legs result after outcome) ∨
      world.Ends thread (.apply callable value) after outcome ∧
        ∀ result, outcome ≠ .ok (.value result) := by
  constructor
  · intro turns
    cases turns with
    | apply first rest => exact .inl ⟨_, _, first, rest⟩
    | stop first stops => exact .inr ⟨first, stops⟩
  · rintro (⟨middle, result, first, rest⟩ | ⟨first, stops⟩)
    · exact .apply first rest
    · exact .stop first stops

/-- One application is a single leg. -/
theorem inTurn_singleton {callable : Callable} :
    world.InTurn thread [.apply callable] value after outcome ↔
      world.Ends thread (.apply callable value) after outcome := by
  simp only [inTurn_apply, inTurn_nil]
  constructor
  · rintro (⟨_, _, first, rfl, rfl⟩ | ⟨first, -⟩)
    · exact first
    · exact first
  · intro ends
    by_cases valued : ∃ result, outcome = .ok (.value result)
    · obtain ⟨result, rfl⟩ := valued
      exact .inl ⟨after, result, ends, rfl, rfl⟩
    · exact .inr ⟨ends, not_exists.mp valued⟩

/-- Exchanging the arguments so often comes to exchanging them at once, or not at all. -/
theorem inTurn_swaps {times : Nat} {legs : List Leg} :
    world.InTurn thread (List.replicate times (.route .swap) ++ legs) value after outcome ↔
      world.InTurn thread legs (Value.swap^[times] value) after outcome := by
  induction times generalizing value with
  | zero => exact Iff.rfl
  | succ times induction => exact inTurn_route.trans induction

end World

/-! ## Ends of computations -/

theorem Activity.comes_iff_of_step {thread : Thread} {world middle after : World}
    {activity next : Activity} {outcome : Outcome}
    (stepped : activity.next thread world = .step middle next) :
    Comes thread world activity after ⟨.answer outcome, []⟩ ↔
      Comes thread middle next after ⟨.answer outcome, []⟩ := by
  constructor
  · rintro ⟨steps, proceeded⟩
    cases steps with
    | zero =>
        obtain ⟨rfl, rfl⟩ : world = after ∧ activity = ⟨.answer outcome, []⟩ := by
          simpa [proceed] using proceeded
        cases stepped
    | succ steps =>
        simp only [proceed, stepped] at proceeded
        exact ⟨steps, proceeded⟩
  · exact (Comes.single stepped).trans

theorem Activity.comes_answer {thread : Thread} {world after : World} {outcome last : Outcome} :
    Comes thread world ⟨.answer outcome, []⟩ after ⟨.answer last, []⟩ ↔
      after = world ∧ last = outcome := by
  constructor
  · rintro ⟨steps, proceeded⟩
    cases steps with
    | zero =>
        simp only [proceed, Option.some.injEq, Prod.mk.injEq, Activity.mk.injEq,
          Focus.answer.injEq] at proceeded
        exact ⟨proceeded.1.symm, proceeded.2.1.symm⟩
    | succ steps => cases proceeded
  · rintro ⟨rfl, rfl⟩
    exact .refl ..

namespace World

variable {thread : Thread} {world after : World} {outcome : Outcome}

theorem ends_apply {identity : Nat} {code : Code} {argument : Value} :
    world.Ends thread (.apply (.plain identity code) argument) after outcome ↔
      world.Ends thread (code argument) after outcome :=
  Activity.comes_iff_of_step rfl

theorem ends_finish {reply : Reply} :
    world.Ends thread (.finish reply) after outcome ↔ after = world ∧ outcome = reply.map .value :=
  (Activity.comes_iff_of_step rfl).trans Activity.comes_answer

theorem ends_value {value : Value} :
    world.Ends thread (.value value) after outcome ↔
      after = world ∧ outcome = .ok (.value value) :=
  ends_finish

theorem ends_give {callable : Callable} :
    world.Ends thread (.give callable) after outcome ↔
      after = world ∧ outcome = .ok (.callable callable) :=
  (Activity.comes_iff_of_step rfl).trans Activity.comes_answer

theorem ends_fresh {rest : Nat → Computation} :
    world.Ends thread (.fresh rest) after outcome ↔
      { world with identities := world.identities + 1 }.Ends thread (rest world.identities) after
        outcome :=
  Activity.comes_iff_of_step rfl

/-- A computation inside of frames comes to its end, and the frames take what it ended with. -/
theorem comes_within_iff {computation : Computation} {frames : List Frame} :
    Activity.Comes thread world ⟨.run computation, frames⟩ after ⟨.answer outcome, []⟩ ↔
      ∃ middle reached, world.Ends thread computation middle reached ∧
        Activity.Comes thread middle ⟨.answer reached, frames⟩ after ⟨.answer outcome, []⟩ := by
  constructor
  · intro comes
    have comes : Activity.Comes thread world
        (Activity.within frames ⟨.run computation, []⟩) after ⟨.answer outcome, []⟩ := comes
    rcases comes.of_within with ⟨⟨focus, inner⟩, ends, same⟩ | found
    · simp only [Activity.within, Activity.mk.injEq] at same
      obtain ⟨rfl, empty⟩ := same
      obtain ⟨rfl, rfl⟩ := List.append_eq_nil_iff.mp empty.symm
      exact ⟨after, outcome, ends, .refl ..⟩
    · exact found
  · rintro ⟨middle, reached, ends, onward⟩
    exact (ends.within frames).trans onward

/-- What follows a computation runs if that came back with a value. -/
theorem ends_andThen {first : Computation} {next : Value → Computation} :
    world.Ends thread (first.andThen next) after outcome ↔
      (∃ middle value, world.Ends thread first middle (.ok (.value value)) ∧
        middle.Ends thread (next value) after outcome) ∨
      world.Ends thread first after outcome ∧ ∀ value, outcome ≠ .ok (.value value) := by
  refine (Activity.comes_iff_of_step rfl).trans (comes_within_iff.trans ?_)
  constructor
  · rintro ⟨middle, failure | (value | callable), ends, onward⟩
    · obtain ⟨rfl, rfl⟩ := ends_finish.mp ((Activity.comes_iff_of_step rfl).mp onward)
      exact .inr ⟨ends, fun _ same => nomatch same⟩
    · exact .inl ⟨middle, value, ends, (Activity.comes_iff_of_step rfl).mp onward⟩
    · obtain ⟨rfl, rfl⟩ := Activity.comes_answer.mp ((Activity.comes_iff_of_step rfl).mp onward)
      exact .inr ⟨ends, fun _ same => nomatch same⟩
  · rintro (⟨middle, value, ends, onward⟩ | ⟨ends, stops⟩)
    · exact ⟨middle, _, ends, (Activity.comes_iff_of_step rfl).mpr onward⟩
    · refine ⟨after, outcome, ends, ?_⟩
      rcases outcome with failure | (value | callable)
      · exact (Activity.comes_iff_of_step rfl).mpr (ends_finish.mpr ⟨rfl, rfl⟩)
      · exact absurd rfl (stops value)
      · exact (Activity.comes_iff_of_step rfl).mpr (.refl ..)

/-- The callable that a computation ends with is applied to the second argument. -/
theorem ends_feed_of_give {first : Computation} {argument : Value} {middle : World}
    {callable : Callable}
    (gives : ∀ after outcome, world.Ends thread first after outcome ↔
      after = middle ∧ outcome = .ok (.callable callable)) :
    world.Ends thread (.feed first argument) after outcome ↔
      middle.Ends thread (.apply callable argument) after outcome := by
  refine (Activity.comes_iff_of_step rfl).trans (comes_within_iff.trans ?_)
  constructor
  · rintro ⟨_, _, ends, onward⟩
    obtain ⟨rfl, rfl⟩ := (gives ..).mp ends
    exact (Activity.comes_iff_of_step rfl).mp onward
  · exact fun onward => ⟨middle, _, (gives ..).mpr ⟨rfl, rfl⟩,
      (Activity.comes_iff_of_step rfl).mpr onward⟩

end World

/-! ## Chains -/

namespace Transformation

/-- Whether what a transformation makes takes its arguments at once and keeps nothing. -/
def isPassing : Transformation → Bool
  | curry | memoize .. => false
  | _ => true

/-- Whether a transformation only makes another function that does the same. -/
def isSharing : Transformation → Bool
  | clone | rewrap => true
  | _ => false

/-- What a derived function does before it applies the one that it was derived from. -/
def before : Transformation → List Leg
  | fixFirst first => [.route (.pair first)]
  | reverse => [.route .swap]
  | compose before => [.apply before.callable]
  | _ => []

/-- What a derived function does after it has applied the one that it was derived from. -/
def after : Transformation → List Leg
  | coerce kind => [.route kind.coerce]
  | andThen after => [.apply after.callable]
  | _ => []

/-- What is done in turn with the arguments of a function that a chain of transformations made. -/
def legs (base : Callable) (links : List Transformation) : List Leg :=
  links.reverse.flatMap before ++ .apply base :: links.flatMap after

theorem legs_concat (base : Callable) (links : List Transformation) (link : Transformation) :
    legs base (links ++ [link]) = link.before ++ (legs base links ++ link.after) := by
  simp [legs]

theorem legs_swaps (base : Callable) (times : Nat) :
    legs base (List.replicate times reverse) =
      List.replicate times (.route .swap) ++ [.apply base] := by
  simp [legs, before, after, List.flatMap_replicate]

/-- Making a function changes nothing but what is the next identity. -/
theorem callable_world {link : Transformation} (making : link.isPassing = true ∨ link = curry)
    (world : World) (source : Callable) :
    ∃ identities, (link.callable world source).2 = { world with identities } := by
  cases link with
  | clone => exact ⟨world.identities, rfl⟩
  | memoize policy retention => simp [isPassing] at making
  | _ => exact ⟨world.identities + 1, rfl⟩

end Transformation

namespace Callable

/-- A callable was made of another by a chain of transformations, each in any world. -/
inductive Chain (base : Callable) : List Transformation → Callable → Prop
  | base : Chain base [] base
  | link {links : List Transformation} {source : Callable} (chain : Chain base links source)
      (link : Transformation) (world : World) :
      Chain base (links ++ [link]) (link.callable world source).1

end Callable

/-- To run a computation is to take these legs in turn with a value. -/
def Computation.Follows (computation : Computation) (legs : List Leg) (value : Value) : Prop :=
  ∀ thread world after outcome, World.Ends thread world computation after outcome ↔
    World.InTurn thread world legs value after outcome

/-- Code that runs a callable, between legs before it and legs after it. -/
private theorem Computation.Follows.andThen {source : Callable} {legs later : List Leg}
    {argument : Value} {next : Value → Computation}
    (follows : (Computation.apply source argument).Follows legs argument)
    (onward : ∀ value, (next value).Follows later value) :
    ((Computation.apply source argument).andThen next).Follows (legs ++ later) argument := by
  intro thread world after outcome
  simp only [World.ends_andThen, World.inTurn_append, follows thread world, onward _ thread _]

namespace Callable

variable {base source derived : Callable} {links : List Transformation} {legs : List Leg}

/-- What a link of a chain adds to what applying the source does. -/
theorem follows_link {link : Transformation} (passing : link.isPassing = true) (made : World)
    (follows : ∀ argument, (Computation.apply source argument).Follows legs argument)
    (argument : Value) :
    (Computation.apply (link.callable made source).1 argument).Follows
      (link.before ++ (legs ++ link.after)) argument := by
  -- The code of what was made is the first step of applying it.
  have coded : ∀ {identity : Nat} {code : Code} {taken : List Leg},
      (code argument).Follows taken argument →
        (Computation.apply (.plain identity code) argument).Follows taken argument :=
    fun follows thread world after outcome =>
      World.ends_apply.trans (follows thread world after outcome)
  have routed : ∀ {change : Value → Value} {computation : Computation},
      computation.Follows legs (change argument) →
        computation.Follows ([.route change] ++ (legs ++ [])) argument := by
    intro change computation follows thread world after outcome
    rw [List.append_nil]
    exact (follows thread world after outcome).trans World.inTurn_route.symm
  have unchanged : (Computation.apply source argument).Follows ([] ++ (legs ++ [])) argument := by
    rw [List.nil_append, List.append_nil]
    exact follows argument
  cases link with
  | clone => exact unchanged
  | rewrap | tuple => exact coded unchanged
  | fixFirst first => exact coded (routed (follows (.pair first argument)))
  | reverse => exact coded (routed (follows argument.swap))
  | coerce kind =>
      refine coded ((follows argument).andThen fun value thread world after outcome => ?_)
      exact World.ends_value.trans (World.inTurn_route.trans World.inTurn_nil).symm
  | andThen next =>
      exact coded ((follows argument).andThen fun value thread world after outcome =>
        World.inTurn_singleton.symm)
  | compose first =>
      have alone : (Computation.apply first.callable argument).Follows [.apply first.callable]
          argument := fun thread world after outcome => World.inTurn_singleton.symm
      have onward : ∀ value, (Computation.apply source value).Follows (legs ++ []) value := by
        rw [List.append_nil]
        exact follows
      exact coded (alone.andThen onward)
  | curry | memoize policy retention => cases passing

/-- To apply what a chain made is to take the legs of the chain in turn. -/
theorem Chain.follows (chain : base.Chain links derived)
    (passing : ∀ link ∈ links, link.isPassing = true) (argument : Value) :
    (Computation.apply derived argument).Follows (Transformation.legs base links) argument := by
  induction chain generalizing argument with
  | base => exact fun thread world after outcome => World.inTurn_singleton.symm
  | link chain link made induction =>
      rw [Transformation.legs_concat]
      exact follows_link (passing link (by simp)) made
        (induction fun link member => passing link (by simp [member])) argument

/-- To share a callable is to apply it. -/
theorem Chain.ends_sharing (chain : base.Chain links derived)
    (sharing : ∀ link ∈ links, link.isSharing = true) {thread : Thread} {world after : World}
    {argument : Value} {outcome : Outcome} :
    world.Ends thread (.apply derived argument) after outcome ↔
      world.Ends thread (.apply base argument) after outcome := by
  induction chain with
  | base => exact Iff.rfl
  | link chain link made induction =>
      have before := induction fun link member => sharing link (by simp [member])
      have shares := sharing link (by simp)
      cases link with
      | clone => exact before
      | rewrap => exact World.ends_apply.trans before
      | _ => cases shares

/-- A curried function that gets its first argument comes back with one that has this fixed. -/
theorem ends_curried {made : World} {thread : Thread} {world after : World} {first : Value}
    {outcome : Outcome} :
    world.Ends thread (.apply (Transformation.curry.callable made source).1 first) after outcome ↔
      after = ((Transformation.fixFirst first).callable world source).2 ∧
        outcome = .ok (.callable ((Transformation.fixFirst first).callable world source).1) :=
  World.ends_apply.trans (World.ends_fresh.trans World.ends_give)

end Callable

/-- The value that a function takes for its arguments, which is their pair if there are two. -/
def FunctionValue.argument : List Value → Value
  | first :: second :: _ => .pair first second
  | [argument] => argument
  | [] => .unit

namespace FunctionValue

variable {function : FunctionValue} {arguments : List Value} {computation : Computation}

theorem invoke?_uncurried (uncurried : function.shape ≠ .curried)
    (invoked : function.invoke? arguments = some computation) :
    computation = .apply function.callable (argument arguments) := by
  simp only [invoke?] at invoked
  split at invoked
  next => exact (Option.some.inj invoked).symm
  next => exact (Option.some.inj invoked).symm
  next => exact (Option.some.inj invoked).symm
  next shape => exact absurd shape uncurried
  next => cases invoked

theorem invoke?_curried (curried : function.shape = .curried)
    (invoked : function.invoke? arguments = some computation) :
    ∃ first second rest, arguments = first :: second :: rest ∧
      computation = .feed (.apply function.callable first) second := by
  simp only [invoke?, curried] at invoked
  split at invoked
  next shape => cases shape
  next shape => cases shape
  next shape => cases shape
  next first second rest _ => exact ⟨first, second, rest, rfl, (Option.some.inj invoked).symm⟩
  next => cases invoked

/-- A chain of transformations makes one application of the function that it began with. A function
that was derived by cloning, wrapping anew, exchanging the arguments, taking them as a pair, fixing
the first, following and preceding, in any order and in any worlds, takes on all its arguments the
legs of the chain in turn: the same outcome, the same entries in the same order, the same caches
after it. An even number of exchanges is none. If it was curried in the end and then only cloned or
wrapped anew, its first argument alone makes the function that has it fixed, which may be applied at
any time later, and both arguments take the legs from the world with that function in it. To make any
of these functions changes nothing but what is the next identity. -/
theorem chain_applies_once {base uncurried : Callable} {links : List Transformation}
    (chain : base.Chain links uncurried) (passing : ∀ link ∈ links, link.isPassing = true) :
    (∀ (function : FunctionValue) (arguments : List Value) (computation : Computation),
      function.callable = uncurried → function.shape ≠ .curried →
      function.invoke? arguments = some computation →
      computation.Follows (Transformation.legs base links) (argument arguments)) ∧
    (∀ times, links = List.replicate (2 * times) .reverse → ∀ arguments,
      (Computation.apply uncurried arguments).Follows [.apply base] arguments) ∧
    (∀ (function : FunctionValue) (made : World) (wraps : List Transformation),
      (Transformation.curry.callable made uncurried).1.Chain wraps function.callable →
      (∀ wrap ∈ wraps, wrap.isSharing = true) →
      (∀ thread (world : World) first after outcome,
        world.Ends thread (.apply function.callable first) after outcome ↔
          ∃ given, (Transformation.fixFirst first).callable world uncurried = (given, after) ∧
            outcome = .ok (.callable given)) ∧
      (∀ world first second,
        (Computation.apply ((Transformation.fixFirst first).callable world uncurried).1
          second).Follows (Transformation.legs base links) (.pair first second)) ∧
      ∀ arguments computation, function.shape = .curried →
        function.invoke? arguments = some computation → ∀ thread (world : World) after outcome,
          world.Ends thread computation after outcome ↔
            { world with identities := world.identities + 1 }.InTurn thread
              (Transformation.legs base links) (argument arguments) after outcome) ∧
    ∀ link : Transformation, link.isPassing = true ∨ link = .curry → ∀ world source,
      ∃ identities, (link.callable world source).2 = { world with identities } := by
  have follows := chain.follows passing
  have fixed : ∀ world first second,
      (Computation.apply ((Transformation.fixFirst first).callable world uncurried).1
        second).Follows (Transformation.legs base links) (.pair first second) :=
    fun world first second thread _ after outcome =>
      World.ends_apply.trans (follows (.pair first second) thread _ after outcome)
  refine ⟨?_, ?_, ?_, fun link making => Transformation.callable_world making⟩
  · rintro function arguments computation rfl shape invoked
    rw [invoke?_uncurried shape invoked]
    exact follows (argument arguments)
  · rintro times rfl arguments thread world after outcome
    rw [follows arguments thread world after outcome, Transformation.legs_swaps,
      World.inTurn_swaps, Function.Involutive.iterate_two_mul Value.swap_swap, id_eq]
  · intro function made wraps wrapped sharing
    have given : ∀ {thread world first after outcome},
        World.Ends thread world (.apply function.callable first) after outcome ↔
          after = ((Transformation.fixFirst first).callable world uncurried).2 ∧
            outcome = .ok (.callable ((Transformation.fixFirst first).callable world uncurried).1) :=
      (wrapped.ends_sharing sharing).trans Callable.ends_curried
    refine ⟨fun thread world first after outcome => given.trans ?_, fixed, ?_⟩
    · constructor
      · rintro ⟨rfl, rfl⟩
        exact ⟨_, rfl, rfl⟩
      · rintro ⟨_, same, rfl⟩
        cases same
        exact ⟨rfl, rfl⟩
    · intro arguments computation curried invoked thread world after outcome
      obtain ⟨first, second, rest, rfl, rfl⟩ := invoke?_curried curried invoked
      rw [World.ends_feed_of_give fun _ _ => given]
      exact fixed world first second thread _ after outcome

/-- A function that leaves a note of its argument and gives it back. -/
def noting (shape : Shape) (label : String) : FunctionValue :=
  ⟨shape, .plain, .plain 0 fun argument => .note label [argument] (.value argument)⟩

/-- The arguments are exchanged, the first is fixed, and one function follows and another precedes:
the notes tell in which order the legs were taken, and with which values. -/
theorem chain_applies_once_noting :
    ∃ (derived : Callable) (after : World),
      (noting .two "base").callable.Chain [.reverse, .fixFirst (.int 1),
        .andThen (noting .one "last"), .compose (noting .one "first")] derived ∧
      ({} : World).InTurn 0 [.apply (noting .one "first").callable, .route (.pair (.int 1)),
        .route .swap, .apply (noting .two "base").callable, .apply (noting .one "last").callable]
        (.int 2) after (.ok (.value (.pair (.int 2) (.int 1)))) ∧
      after.log = [.call "last" [.pair (.int 2) (.int 1)], .call "base" [.pair (.int 2) (.int 1)],
        .call "first" [.int 2]] := by
  have begun : (noting .two "base").callable.Chain [] (noting .two "base").callable := .base
  have chain := (((begun.link .reverse {}).link (.fixFirst (.int 1)) {}).link
    (.andThen (noting .one "last")) {}).link (.compose (noting .one "first")) {}
  have follows := (chain_applies_once chain (by simp [Transformation.isPassing])).1
    ⟨.one, .plain, _⟩ [.int 2] _ rfl (by simp) rfl
  exact ⟨_, _, chain, (follows 0 {} _ _).mp ⟨17, rfl⟩, rfl⟩

end FunctionValue

end FunctionValues
