import FunctionValues.Execution

/-!
# Interleaving

Several threads that share a world. Each has a list of tasks that it does one after another; a step
of the whole is a step of any one thread, and `System.step` is that choice. `System.finish` is the
schedule that lets every thread finish before the next one starts. A single thread has no other.
-/

namespace FunctionValues

/-- Something for a thread to do. -/
inductive Task where
  /-- Run a computation. -/
  | run (computation : Computation)
  /-- Count the results of a cache. -/
  | count (cache : Nat) (traversal : Traversal)

namespace Task

/-- A thread that has just begun a task. -/
def begin : Task → Activity
  | run computation => ⟨.run computation, []⟩
  | count cache traversal => ⟨.counting cache (.collect traversal), []⟩

end Task

/-- A thread with its tasks. -/
structure Worker where
  /-- The task that it is at. -/
  current : Option Activity := none
  /-- The tasks that it has not begun. -/
  pending : List Task := []
  /-- How its tasks ended, in order. -/
  outcomes : List Outcome := []

namespace Worker

/-- Whether a worker has done all its tasks. -/
def isDone (worker : Worker) : Bool :=
  worker.current.isNone && worker.pending.isEmpty

/-- The next step of a worker; there is none while it waits and after its last task. -/
def next (thread : Thread) (world : World) : Worker → Option (World × Worker)
  | ⟨none, [], _⟩ => none
  | ⟨none, task :: pending, outcomes⟩ => some (world, ⟨some task.begin, pending, outcomes⟩)
  | ⟨some activity, pending, outcomes⟩ =>
    match activity.next thread world with
    | .step world activity => some (world, ⟨some activity, pending, outcomes⟩)
    | .wait => none
    | .done outcome => some (world, ⟨none, pending, outcomes ++ [outcome]⟩)

end Worker

/-- Threads that share a world. The number of a thread is its position. -/
structure System where
  world : World
  workers : List Worker

namespace System

/-- Threads that have not begun any of their tasks. -/
def ofTasks (world : World) (tasks : List (List Task)) : System where
  world := world
  workers := tasks.map fun tasks => { pending := tasks }

/-- Let one thread make a step. -/
def step (system : System) (thread : Thread) : Option System := do
  let worker ← system.workers[thread]?
  let (world, worker) ← worker.next thread system.world
  some ⟨world, system.workers.set thread worker⟩

/-- The first thread that is not done. -/
def first? (system : System) : Option Thread :=
  system.workers.findIdx? (!·.isDone)

/-- Let the threads finish one after another, in at most so many steps. -/
def finish : Nat → System → Option System
  | 0, _ => none
  | limit + 1, system =>
    match system.first? with
    | none => some system
    | some thread => do finish limit (← system.step thread)

/-- How the tasks of every thread ended. -/
def outcomes (system : System) : List (List Outcome) :=
  system.workers.map (·.outcomes)

end System

end FunctionValues
