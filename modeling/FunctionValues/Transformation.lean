import FunctionValues.World

/-!
# Transformations

The ways to derive a function value from another. `Transformation.type?` says for which functions a
transformation is defined, and the shape and kind of what it makes; `Transformation.perform` makes
it. Making a function runs no code. Cloning, and memoizing a memoized function, share the callable;
every other transformation makes a callable of its own.
-/

namespace FunctionValues

/-- A way to derive a function value. -/
inductive Transformation where
  /-- Share the function. -/
  | clone
  /-- Make a plain function that applies it. -/
  | rewrap
  /-- Fix the first argument. -/
  | fixFirst (first : Value)
  /-- Take the arguments one after another. -/
  | curry
  /-- Take the arguments as a pair. -/
  | tuple
  /-- Take the arguments in the other order. -/
  | reverse
  /-- Keep the results in a cache. -/
  | memoize (policy : Policy) (retention : Retention)
  /-- Read the results as results of another kind. -/
  | coerce (kind : Kind)
  /-- Apply a function to the results. -/
  | andThen (after : FunctionValue)
  /-- Apply a function to the argument first. -/
  | compose (before : FunctionValue)

namespace Transformation

/-- The shape and kind that a transformation makes of those of a function. -/
def type? : Transformation → Shape → Kind → Option (Shape × Kind)
  | clone, shape, kind | rewrap, shape, kind | memoize _ .all, shape, kind => some (shape, kind)
  | fixFirst _, .two, kind => some (.one, kind)
  | curry, .two, kind => some (.curried, kind)
  | tuple, .two, kind => some (.tupled, kind)
  | reverse, .two, kind => some (.two, kind)
  | memoize _ .successes, shape, .fallible =>
    if shape = .curried then none else some (shape, .fallible)
  | coerce kind, shape, _ => if shape = .curried then none else some (shape, kind)
  | andThen after, shape, _ =>
    if shape ≠ .curried ∧ after.shape = .one then some (shape, after.kind) else none
  | compose before, .one, kind =>
    if before.shape = .one ∨ before.shape = .tupled then some (before.shape, kind) else none
  | _, _, _ => none

/-- The callable that a transformation makes of another, and the world with it. -/
def callable (world : World) (source : Callable) : Transformation → Callable × World
  | clone => (source, world)
  | rewrap | tuple => world.create (.ofCallable source)
  | fixFirst first => world.create (.fixed source first)
  | curry => world.create (.curried source)
  | reverse => world.create (.reversed source)
  | memoize policy retention => world.memoize policy retention source
  | coerce kind => world.create (.coerce kind (.ofCallable source))
  | andThen after => world.create (.andThen source (.ofCallable after.callable))
  | compose before => world.create (.compose source (.ofCallable before.callable))

/-- Derive a function value, if the transformation is defined for it. -/
def perform (transformation : Transformation) (world : World) (function : FunctionValue) :
    Option (FunctionValue × World) := do
  let (shape, kind) ← transformation.type? function.shape function.kind
  let (callable, world) := transformation.callable world function.callable
  some (⟨shape, kind, callable⟩, world)

/-- Derive a function value by a transformation that is repeated, each time from the last. -/
def repeated (transformation : Transformation) :
    Nat → World → FunctionValue → Option (FunctionValue × World)
  | 0, world, function => some (function, world)
  | times + 1, world, function => do
    let (function, world) ← transformation.perform world function
    transformation.repeated times world function

end Transformation

end FunctionValues
