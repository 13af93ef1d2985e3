import FunctionValues.Interleaving
import FunctionValues.Session.Answer
import FunctionValues.Session.Step

/-!
# Sessions

A session is a sequence of steps that define functions, derive functions from them, apply them and
ask about them. `World.perform` is one step: its answer, and the world after it. A step that is not
defined for the functions it names is refused.
-/

namespace FunctionValues

/-- An outcome as a reply; a callable is none. -/
def Outcome.reply? : Outcome → Option Reply
  | .ok (.value value) => some (.ok value)
  | .ok (.callable _) => none
  | .error failure => some (.error failure)

namespace World

/-! ## Making functions -/

/-- The function that a step names. -/
def require (world : World) (name : String) : Except Refusal FunctionValue :=
  (Refusal.unknownFunction name).unlessSome (world.function? name)

/-- Store a new function under a name. -/
def introduce (world : World) (target : String) (function : FunctionValue) : Answer × World :=
  (.made function, world.define target function)

/-- Store a function of some code under a name. -/
def introduceCode (world : World) (target : String) (shape : Shape) (kind : Kind) (code : Code) :
    Answer × World :=
  let (callable, world) := world.create code
  world.introduce target ⟨shape, kind, callable⟩

/-- Derive a function and store it under a name. -/
def derive (world : World) (target source : String) (transformation : Transformation)
    (times : Nat) : Except Refusal (Answer × World) := do
  let function ← world.require source
  let (function, world) ←
    Refusal.unsupported.unlessSome (transformation.repeated times world function)
  .ok (world.introduce target function)

/-! ## Applying functions -/

/-- Let threads run computations, in at most so many steps. -/
def run (world : World) (limit : Nat) (computations : List (List Computation)) :
    Except Refusal System :=
  Refusal.unfinished.unlessSome
    (System.finish limit (.ofTasks world (computations.map (·.map .run))))

/-- Let threads apply a function to lists of arguments. -/
def applyAll (world : World) (limit : Nat) (source : String)
    (arguments : List (List (List Value))) : Except Refusal (List (List Reply) × World) := do
  let function ← world.require source
  let computations ← Refusal.unsupported.unlessSome (arguments.mapM (·.mapM function.invoke?))
  let system ← world.run limit computations
  let replies ← Refusal.unsupported.unlessSome (system.outcomes.mapM (·.mapM Outcome.reply?))
  .ok (replies, system.world)

/-- Supply a curried function with its first argument and store what it gives. -/
def supply (world : World) (limit : Nat) (function : FunctionValue) (argument : Value)
    (target : String) : Except Refusal (Answer × World) := do
  let system ← world.run limit [[.apply function.callable argument]]
  match system.outcomes with
  | [[.ok (.callable callable)]] =>
    .ok (system.world.introduce target ⟨.one, function.kind, callable⟩)
  | [[.error failure]] => .ok (.reply (.error failure), system.world)
  | _ => .error .unsupported

/-! ## Steps -/

/-- Perform a step of a session; applying functions may take at most so many steps of threads. -/
def perform (world : World) (limit : Nat) : Step → Except Refusal (Answer × World)
  | .define target definition =>
    .ok (world.introduceCode target definition.shape definition.kind definition.code)
  | .identity target => .ok (world.introduceCode target .one .plain .identity)
  | .constant target kind value =>
    .ok (world.introduceCode target .one kind (.constant (kind.coerce value)))
  | .derive target source transformation times => world.derive target source transformation times
  | .andThen target source after | .tryAndThen target source (some after) => do
    world.derive target source (.andThen (← world.require after)) 1
  | .tryAndThen _ source none => do
    let function ← world.require source
    if function.shape = .curried then .error .unsupported
    else .ok (.missing ⟨"after"⟩, world)
  | .compose target source before => do
    world.derive target source (.compose (← world.require before)) 1
  | .apply source arguments target => do
    let function ← world.require source
    match function.shape, arguments, target with
    | .curried, [argument], some target => world.supply limit function argument target
    | _, _, _ => do
      match ← world.applyAll limit source [[arguments]] with
      | ([[reply]], world) => .ok (.reply reply, world)
      | _ => .error .unsupported
  | .map source arguments => do
    let (replies, world) ← world.applyAll limit source [arguments]
    .ok (.replies replies.flatten, world)
  | .describe source => do
    .ok (.description (world.description (← world.require source)), world)
  | .compare left right => do
    let left ← world.require left
    let right ← world.require right
    if left.shape = right.shape ∧ left.kind = right.kind then
      .ok (.shared (left.callable.shares right.callable), world)
    else .error .unsupported
  | .threads source arguments => do
    let (replies, after) ← world.applyAll limit source arguments
    .ok (.threads replies (after.entriesSince world), after)

/-- Perform a step and report it. The log of threads is part of their answer. -/
def report (world : World) (limit : Nat) (step : Step) : Except Refusal (Report × World) := do
  let (answer, after) ← world.perform limit step
  let trace := match answer with
    | .threads .. => []
    | _ => after.entriesSince world
  .ok (⟨answer, trace, after.sizes⟩, after)

/-- Perform the steps of a session. -/
def session (world : World) (limit : Nat) : List Step → Except Refusal (List Report × World)
  | [] => .ok ([], world)
  | step :: steps => do
    let (report, world) ← world.report limit step
    let (reports, world) ← world.session limit steps
    .ok (report :: reports, world)

end World

end FunctionValues
