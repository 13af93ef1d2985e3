import FunctionValues.Cache.Application
import FunctionValues.Cache.Counting
import FunctionValues.FunctionValue

/-!
# The world

What function values share: the functions that names stand for, the caches, the next free identity,
the tick counter and the log. Memoizing a callable that is memoized already gives it back, so there
is one cache for every time a plain callable was memoized.
-/

namespace FunctionValues

/-- The state that running functions read and change. -/
structure World where
  /-- The function of each name. -/
  functions : List (String × FunctionValue) := []
  /-- The caches by number. -/
  caches : List Cache := []
  /-- The identity of the next callable that is made. -/
  identities : Nat := 0
  /-- How often the tick counter was read. -/
  ticks : Nat := 0
  /-- What happened, the latest first. -/
  log : List Entry := []
  deriving Inhabited

namespace World

/-- The function that a name stands for. -/
def function? (world : World) (name : String) : Option FunctionValue :=
  world.functions.lookup name

/-- Let a name stand for a function. -/
def define (world : World) (name : String) (function : FunctionValue) : World :=
  { world with functions := (name, function) :: world.functions.filter (·.1 != name) }

private theorem lookup_filter_ne (name other : String) (different : other ≠ name)
    (functions : List (String × FunctionValue)) :
    (functions.filter (·.1 != name)).lookup other = functions.lookup other := by
  induction functions with
  | nil => rfl
  | cons entry entries induction =>
      obtain ⟨stored, function⟩ := entry
      by_cases dropped : stored = name
      · have unequal : (other == stored) = false := by simp [dropped, different]
        simp [dropped, List.lookup_cons, dropped ▸ unequal, induction]
      · simp [dropped, List.lookup_cons, induction]

/-- A name stands for the function that it was last defined as. -/
theorem function?_define (world : World) (name other : String) (function : FunctionValue) :
    (world.define name function).function? other =
      if other = name then some function else world.function? other := by
  by_cases asked : other = name
  · simp [function?, define, asked]
  · have unequal : (other == name) = false := by simp [asked]
    simp [function?, define, List.lookup_cons, unequal, lookup_filter_ne name other asked, asked]

/-- Add an entry to the log. -/
def record (world : World) (entry : Entry) : World :=
  { world with log := entry :: world.log }

/-- Add an event of a cache to the log, if there is one. -/
def recordEvent (world : World) (cache : Nat) (key : Value) : Option Event → World
  | none => world
  | some event => world.record (.event cache (some key) event)

/-- Replace the storage of a cache. -/
def setStorage (world : World) (number : Nat) (storage : Storage) : World :=
  { world with caches := world.caches.modify number ({ · with storage := storage }) }

/-- Make a callable of some code. -/
def create (world : World) (code : Code) : Callable × World :=
  (.plain world.identities code, { world with identities := world.identities + 1 })

/-- Memoize a callable. -/
def memoize (world : World) (policy : Policy) (retention : Retention) :
    Callable → Callable × World
  | .memoized cache => (.memoized cache, world)
  | underlying =>
    let cache : Cache := { underlying, retention, storage := .empty policy }
    let number := world.caches.length
    (.memoized number,
      { world with caches := world.caches ++ [cache] }.record
        (.event number none (.created policy)))

/-- The cache of a callable. -/
def cache? (world : World) : Callable → Option Cache
  | .plain .. => none
  | .memoized cache => world.caches[cache]?

/-- The computation of applying the function of a name. -/
def resolve (world : World) (name : String) (arguments : List Value) : Computation :=
  match world.function? name with
  | none => .raise ("unknown function " ++ name)
  | some function => (function.invoke? arguments).getD (.raise "wrong argument count")

/-- The entries that were added since an earlier world and are shown, in order. -/
def entriesSince (world earlier : World) : List Entry :=
  ((world.log.take (world.log.length - earlier.log.length)).filter (·.isShown)).reverse

end World

end FunctionValues
