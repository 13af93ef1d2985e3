import FunctionValues.World

/-!
# Execution

The steps of one thread. A thread runs a computation, hands an outcome to the frame that waits for
it, or is somewhere in an application of a memoized function. The frames say what remains to be
done: code that waits for a reply, a second argument to supply, or a cache under whose latch the
outcome was computed. A failure travels through the frames like any other outcome, so each cache on
its way gives up what it holds.
-/

namespace FunctionValues

/-- What waits for an outcome. -/
inductive Frame where
  /-- Code that continues with the reply. -/
  | bind (next : Reply → Computation)
  /-- An argument for the callable that comes back. -/
  | feed (argument : Value)
  /-- An application of a memoized function that computes at a place of its cache. -/
  | computing (cache : Nat) (key : Value) (place : Nat)

/-- What a thread is about to do. -/
inductive Focus where
  /-- Run a computation. -/
  | run (computation : Computation)
  /-- Hand an outcome to the innermost frame. -/
  | answer (outcome : Outcome)
  /-- Go on with an application of a memoized function. -/
  | applying (cache : Nat) (key : Value) (stage : Stage)
  /-- Go on with counting the results of a cache. -/
  | counting (cache : Nat) (counting : Counting)

/-- A thread at work: its focus, and the frames around it from the innermost out. -/
structure Activity where
  focus : Focus
  frames : List Frame := []

/-- What a step of a thread comes to. -/
inductive Progress where
  | step (world : World) (activity : Activity)
  /-- A lock that the thread asks for is held, or it asks for a cache that does not exist. -/
  | wait
  | done (outcome : Outcome)

namespace Computation

/-- Run the outermost part of a computation. -/
def next (world : World) (frames : List Frame) : Computation → World × Activity
  | finish reply => (world, ⟨.answer (reply.map Result.value), frames⟩)
  | give callable => (world, ⟨.answer (.ok (.callable callable)), frames⟩)
  | apply (.plain _ code) argument => (world, ⟨.run (code argument), frames⟩)
  | apply (.memoized cache) argument => (world, ⟨.applying cache argument .seek, frames⟩)
  | bind first next => (world, ⟨.run first, .bind next :: frames⟩)
  | feed first argument => (world, ⟨.run first, .feed argument :: frames⟩)
  | call name arguments => (world, ⟨.run (world.resolve name arguments), frames⟩)
  | tick => ({ world with ticks := world.ticks + 1 }, ⟨.run (.value (.int world.ticks)), frames⟩)
  | note label arguments rest => (world.record (.call label arguments), ⟨.run rest, frames⟩)
  | fresh rest =>
    ({ world with identities := world.identities + 1 }, ⟨.run (rest world.identities), frames⟩)

end Computation

namespace Outcome

/-- Hand an outcome to a frame. -/
def next (world : World) (frames : List Frame) : Outcome → Frame → World × Activity
  | .ok (.value value), .bind next => (world, ⟨.run (next (.ok value)), frames⟩)
  | .error failure, .bind next => (world, ⟨.run (next (.error failure)), frames⟩)
  | .ok (.callable callable), .feed argument => (world, ⟨.run (.apply callable argument), frames⟩)
  | outcome, .computing cache key place =>
    (world.record (.ended cache key outcome), ⟨.applying cache key (.settle place outcome), frames⟩)
  | outcome, _ => (world, ⟨.answer outcome, frames⟩)

end Outcome

namespace Move

/-- What the move of an application comes to for the thread that makes it. -/
def progress (world : World) (number : Nat) (underlying : Callable) (key : Value)
    (frames : List Frame) : Move → Progress
  | wait => .wait
  | go storage event stage =>
    .step ((world.setStorage number storage).recordEvent number key event)
      ⟨.applying number key stage, frames⟩
  | compute storage place =>
    .step ((world.setStorage number storage).record (.started number key))
      ⟨.run (.apply underlying key), .computing number key place :: frames⟩
  | finish storage outcome => .step (world.setStorage number storage) ⟨.answer outcome, frames⟩

end Move

namespace CountMove

/-- What a move of counting comes to for the thread that makes it. -/
def progress (world : World) (number : Nat) (frames : List Frame) : CountMove → Progress
  | wait => .wait
  | go storage counting =>
    .step (world.setStorage number storage) ⟨.counting number counting, frames⟩
  | finish count => .step world ⟨.answer (.ok (.value (.int count))), frames⟩

end CountMove

namespace Activity

/-- The next step of a thread. -/
def next (thread : Thread) (world : World) : Activity → Progress
  | ⟨.run computation, frames⟩ =>
    let (world, activity) := computation.next world frames
    .step world activity
  | ⟨.answer outcome, []⟩ => .done outcome
  | ⟨.answer outcome, frame :: frames⟩ =>
    let (world, activity) := Outcome.next world frames outcome frame
    .step world activity
  | ⟨.applying number key stage, frames⟩ =>
    match world.caches[number]? with
    | none => .wait
    | some cache =>
      (cache.storage.advance cache.retention thread key stage).progress world number
        cache.underlying key frames
  | ⟨.counting number counting, frames⟩ =>
    match world.caches[number]? with
    | none => .wait
    | some cache => (cache.storage.count counting).progress world number frames

end Activity

end FunctionValues
