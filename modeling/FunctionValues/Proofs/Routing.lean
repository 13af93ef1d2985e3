import FunctionValues.Proofs.Chains
import FunctionValues.Proofs.InnerRuns
import FunctionValues.Proofs.Unwinding

/-!
# On the way to a memoized function

A function that was derived from a memoized one by a chain of transformations that only route the
arguments and follow the result. To apply it is to head for one application of the memoized function,
to the argument that the chain routes its own to: code is entered and frames are put up that wait for
the result, and nothing else happens. The frames hand a failure on, and take the legs that follow with
a result.
-/

namespace FunctionValues

namespace Transformation

/-- Whether what a transformation makes applies its source, and nothing before that. -/
def isRouting : Transformation → Bool
  | curry | memoize .. | compose _ => false
  | _ => true

/-- The argument that what a transformation makes applies its source to. -/
def route : Transformation → Value → Value
  | fixFirst first => .pair first
  | reverse => .swap
  | _ => id

/-- The argument that what a chain made applies the function to that the chain began with. -/
def routed (links : List Transformation) (argument : Value) : Value :=
  links.foldr route argument

theorem routed_concat (links : List Transformation) (link : Transformation) (argument : Value) :
    routed (links ++ [link]) argument = routed links (link.route argument) := by
  simp [routed]

/-- Equal arguments are routed to equal ones. -/
theorem routed_same (links : List Transformation) {argument other : Value}
    (equal : argument.same other = true) :
    (routed links argument).same (routed links other) = true := by
  induction links with
  | nil => exact equal
  | cons link links induction =>
      have step : ∀ {left right : Value}, left.same right = true →
          (link.route left).same (link.route right) = true := by
        intro left right equal
        cases link with
        | fixFirst first => simp [route, Value.same, equal]
        | reverse =>
            cases left <;> cases right <;> simp_all [route, Value.swap, Value.same]
        | _ => exact equal
      exact step induction

end Transformation

/-- Frames that take legs with a value that is handed to them, and hand a failure on. -/
inductive Frame.Relays : List Leg → List Frame → Prop
  | nil : Relays [] []
  | bind {next : Reply → Computation} {legs later : List Leg} {frames : List Frame}
      (handsOn : ∀ failure, Frame.HandsOn failure (.bind next))
      (follows : ∀ value, (next (.ok value)).Follows legs value) (outer : Relays later frames) :
      Relays (legs ++ later) (.bind next :: frames)

/-- A computation that does nothing before it applies a memoized function to an argument, fails where
that fails, and takes legs with the value that it comes back with. -/
inductive Computation.Heads (number : Nat) (target : Value) : List Leg → Computation → Prop
  | apply : Heads number target [] (.apply (.memoized number) target)
  | code {legs : List Leg} {identity : Nat} {code : Code} {argument : Value}
      (heads : Heads number target legs (code argument)) :
      Heads number target legs (.apply (.plain identity code) argument)
  | bind {legs later : List Leg} {first : Computation} {next : Reply → Computation}
      (heads : Heads number target legs first)
      (handsOn : ∀ failure, Frame.HandsOn failure (.bind next))
      (follows : ∀ value, (next (.ok value)).Follows later value) :
      Heads number target (legs ++ later) (.bind first next)

/-- Code that hands a failure on fails with it in its next step. -/
theorem Activity.next_of_handsOn {thread : Thread} {world : World} {failure : Failure}
    {next : Reply → Computation} (handsOn : Frame.HandsOn failure (.bind next))
    (frames : List Frame) :
    Activity.next thread world ⟨.answer (.error failure), .bind next :: frames⟩ =
      .step world ⟨.run (.finish (.error failure)), frames⟩ := by
  rw [← show next (.error failure) = .finish (.error failure) from handsOn]
  rfl

namespace Frame.Relays

variable {legs later : List Leg} {inner outer frames : List Frame} {frame : Frame}

theorem append (relays : Relays legs inner) (outward : Relays later outer) :
    Relays (legs ++ later) (inner ++ outer) := by
  induction relays with
  | nil => exact outward
  | bind handsOn follows rest induction =>
      rw [List.append_assoc]
      exact .bind handsOn follows induction

/-- What is not a value passes through the frames, and nothing else happens. -/
theorem passes_iff (relays : Relays legs frames) {thread : Thread} {world after : World}
    {outcome last : Outcome} (stops : ∀ value, outcome ≠ .ok (.value value)) :
    Activity.Comes thread world ⟨.answer outcome, frames⟩ after ⟨.answer last, []⟩ ↔
      after = world ∧ last = outcome := by
  induction relays with
  | nil => exact Activity.comes_answer
  | @bind next _ _ frames handsOn follows outer induction =>
      rcases outcome with failure | (value | callable)
      · exact (Activity.comes_iff_of_step (Activity.next_of_handsOn (handsOn failure) frames)).trans
          ((Activity.comes_iff_of_step rfl).trans induction)
      · exact absurd rfl (stops value)
      · exact (Activity.comes_iff_of_step rfl).trans induction

/-- The frames take their legs with a value that is handed to them. -/
theorem comes_iff (relays : Relays legs frames) {thread : Thread} {world after : World}
    {value : Value} {outcome : Outcome} :
    Activity.Comes thread world ⟨.answer (.ok (.value value)), frames⟩ after ⟨.answer outcome, []⟩ ↔
      world.InTurn thread legs value after outcome := by
  induction relays generalizing world value with
  | nil => exact Activity.comes_answer.trans World.inTurn_nil.symm
  | @bind next legs later frames handsOn follows outer induction =>
      rw [World.inTurn_append]
      refine (Activity.comes_iff_of_step rfl).trans (World.comes_within_iff.trans ?_)
      constructor
      · rintro ⟨middle, reached, ends, onward⟩
        have turns := (follows value thread world middle reached).mp ends
        by_cases valued : ∃ result, reached = .ok (.value result)
        · obtain ⟨result, rfl⟩ := valued
          exact .inl ⟨middle, result, turns, induction.mp onward⟩
        · have stops := not_exists.mp valued
          obtain ⟨rfl, rfl⟩ := (outer.passes_iff stops).mp onward
          exact .inr ⟨turns, stops⟩
      · rintro (⟨middle, result, first, rest⟩ | ⟨turns, stops⟩)
        · exact ⟨middle, _, (follows value thread world middle _).mpr first, induction.mpr rest⟩
        · exact ⟨after, outcome, (follows value thread world after outcome).mpr turns,
            (outer.passes_iff stops).mpr ⟨rfl, rfl⟩⟩

end Frame.Relays

namespace Computation.Heads

variable {number : Nat} {target : Value} {legs : List Leg} {computation : Computation}

/-- The computation comes to the application of the memoized function, inside of frames that relay
what it comes back with. -/
theorem comes (heads : Heads number target legs computation) :
    ∃ waits, Frame.Relays legs waits ∧ ∀ thread world frames,
      Activity.Comes thread world ⟨.run computation, frames⟩ world
        ⟨.run (.apply (.memoized number) target), waits ++ frames⟩ := by
  induction heads with
  | apply => exact ⟨[], .nil, fun thread world frames => .refl ..⟩
  | code heads induction =>
      obtain ⟨waits, relays, comes⟩ := induction
      exact ⟨waits, relays, fun thread world frames => .trans (.single rfl) (comes thread world frames)⟩
  | @bind legs later first next heads handsOn follows induction =>
      obtain ⟨waits, relays, comes⟩ := induction
      have last : Frame.Relays later [.bind next] := by
        simpa using Frame.Relays.bind handsOn follows .nil
      refine ⟨waits ++ [.bind next], relays.append last, fun thread world frames => ?_⟩
      rw [List.append_assoc]
      exact .trans (.single rfl) (comes thread world (.bind next :: frames))

end Computation.Heads

/-- To apply what a routing chain made is to head for the function that the chain began with. -/
theorem Callable.Chain.heads {number : Nat} {links : List Transformation} {derived : Callable}
    (chain : (Callable.memoized number).Chain links derived)
    (routing : ∀ link ∈ links, link.isRouting = true) (argument : Value) :
    (Computation.apply derived argument).Heads number (Transformation.routed links argument)
      (links.flatMap Transformation.after) := by
  induction chain generalizing argument with
  | base => exact .apply
  | @link links source chain link world induction =>
      have before := induction fun link member => routing link (by simp [member])
      have here := routing link (by simp)
      rw [Transformation.routed_concat, List.flatMap_append, List.flatMap_singleton]
      have directly : ∀ identity (code : Code),
          (code argument) = .apply source (link.route argument) → link.after = [] →
          (Computation.apply (.plain identity code) argument).Heads number
            (Transformation.routed links (link.route argument))
            (links.flatMap Transformation.after ++ link.after) := by
        intro identity code same none
        rw [none, List.append_nil]
        refine .code ?_
        rw [same]
        exact before _
      have followed : ∀ (after : Code), link.route argument = argument →
          (∀ value, (after value).Follows link.after value) →
          ((Computation.apply source argument).andThen after).Heads number
            (Transformation.routed links (link.route argument))
            (links.flatMap Transformation.after ++ link.after) := by
        intro after same follows
        rw [same]
        exact .bind (before argument) (fun failure => rfl) follows
      cases link with
      | clone =>
          have same := before argument
          rwa [← List.append_nil (links.flatMap Transformation.after)] at same
      | rewrap | tuple | fixFirst first | reverse => exact directly _ _ rfl rfl
      | coerce kind =>
          refine .code (followed _ rfl fun value thread world after outcome => ?_)
          exact World.ends_value.trans (World.inTurn_route.trans World.inTurn_nil).symm
      | andThen next =>
          exact .code (followed _ rfl fun value thread world after outcome =>
            World.inTurn_singleton.symm)
      | curry | memoize policy retention | compose first => cases here

end FunctionValues
