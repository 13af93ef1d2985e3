import FunctionValues.Proofs.Applications
import FunctionValues.Proofs.Unwinding

/-!
# Applications that are not refused

A thread is refused exactly when it computes an equal argument of the same cache, or any argument
where one lock serves them all. An application that is not refused at first is not refused later: as
long as it lasts its thread computes what it computed before, so the log tells of no refusal of it,
and it comes back with a result that it found or with what its own run of the function ended with.
It may wait for what other threads compute, but it does not fail for it.
-/

namespace FunctionValues

namespace System

variable {limit : Nat} {system after : System} {thread : Thread} {number : Nat} {cache : Cache}
  {key : Value} {frames : List Frame}

/-- No step of an application tells of a refusal while its thread computes nothing that blocks its
argument. -/
theorem At.unrefused {stage : Stage} {policy : Policy} {added : List Entry}
    (at' : system.At thread ⟨.applying number key stage, frames⟩) (reached : system.Reached limit)
    (found : system.world.caches[number]? = some cache)
    (open' : cache.storage.policy.blocks (Frame.keys number frames) key = false)
    (stepped : system.step thread = some after)
    (log : after.world.log = added ++ system.world.log) :
    .event number (some key) (.reentryRejected policy) ∉ added := by
  intro member
  rcases at'.advance found stepped with ⟨storage, event, next, moved, -, told⟩ |
    ⟨place, -, -, told⟩ | ⟨place, outcome, -, -, told⟩
  · obtain rfl := List.append_cancel_right (log.symm.trans told)
    obtain rfl : event = some (.reentryRejected policy) := by simpa using member
    cases Storage.goes_of_go moved with
    | refused owned =>
        have blocked : cache.storage.policy.blocks (Frame.keys number frames) key = true :=
          ((reached.sound.present found).owner_iff at'.getElem?_phases
            (Frame.inward_phases number frames)).mp owned
        rw [open'] at blocked
        cases blocked
  · obtain rfl : added = [.started number key] := List.append_cancel_right (log.symm.trans told)
    simp at member
  · obtain rfl : added = [] := List.append_cancel_right (log.symm.trans told)
    cases member

/-- What an application comes to that is not refused, whatever others do between its steps. -/
structure Admits (limit : Nat) (system : System) (thread : Thread) (number : Nat) (cache : Cache)
    (key : Value) (frames : List Frame) : Prop where
  /-- Its first steps: the thread finds a place and asks for the latch there. -/
  enters : system.Next thread fun before sought =>
    sought.world.log = before.world.log ∧
      sought.Next thread fun before checked => ∃ place, checked.world = before.world ∧
        checked.At thread ⟨.applying number key (.lock place), frames⟩
  /-- None of its steps tells of a refusal, until it is back. -/
  unrefused : ∀ {middle next stage policy added}, During limit thread frames system middle →
    middle.At thread ⟨.applying number key stage, frames⟩ → middle.step thread = some next →
      next.world.log = added ++ middle.world.log →
        .event number (some key) (.reentryRejected policy) ∉ added
  /-- It comes back with a result that it found, or with what its run of the function ended with. -/
  ends : ∀ {after outcome}, During limit thread frames system after →
    after.At thread ⟨.answer outcome, frames⟩ →
      (∃ result, outcome = .ok result ∧
        Found limit thread number cache key frames system after result) ∨
      Ran limit thread number cache.underlying key frames system after outcome

private theorem enters_of_open (reached : system.Reached limit)
    (found : system.world.caches[number]? = some cache)
    (at' : system.At thread ⟨.applying number key .seek, frames⟩)
    (open' : cache.storage.policy.blocks (Frame.keys number frames) key = false) :
    system.Next thread fun before sought =>
      sought.world.log = before.world.log ∧
        sought.Next thread fun before checked => ∃ place, checked.world = before.world ∧
          checked.At thread ⟨.applying number key (.lock place), frames⟩ := by
  intro before sought idle stepped
  obtain ⟨storage, found, policy⟩ := caches_meanwhile idle found
  obtain ⟨place, there, log⟩ := (at'.meanwhile idle).of_seek found stepped
  refine ⟨log, ?_⟩
  have happens : Happens limit before sought := .step thread stepped
  have reached : sought.Reached limit := .tail (reached.meanwhile idle) happens
  obtain ⟨storage', found, policy'⟩ := happens.caches found
  intro before checked idle stepped
  obtain ⟨storage'', found, policy''⟩ := caches_meanwhile idle found
  have same : storage''.policy = cache.storage.policy := policy''.trans (policy'.trans policy)
  have progress := (there.meanwhile idle).next_check (reached.meanwhile idle) found
  rw [if_neg (by rw [same, open']; exact Bool.false_ne_true)] at progress
  obtain ⟨world, there⟩ := (there.meanwhile idle).eq_of_progress stepped progress
  exact ⟨place, world, there⟩

/-- The frames stay around an application, so what they do not block at first they never block. -/
private theorem unrefused_of_open {middle next : System} {stage : Stage} {policy : Policy}
    {added : List Entry} (reached : system.Reached limit)
    (found : system.world.caches[number]? = some cache)
    (open' : cache.storage.policy.blocks (Frame.keys number frames) key = false)
    (before : During limit thread frames system middle)
    (at' : middle.At thread ⟨.applying number key stage, frames⟩)
    (stepped : middle.step thread = some next)
    (log : next.world.log = added ++ middle.world.log) :
    .event number (some key) (.reentryRejected policy) ∉ added := by
  obtain ⟨storage, kept, same⟩ := Reaches.caches before.reaches found
  exact at'.unrefused (Relation.ReflTransGen.trans reached before.reaches) kept
    (by rw [same]; exact open') stepped log

theorem admits_of_open (reached : system.Reached limit)
    (found : system.world.caches[number]? = some cache)
    (at' : system.At thread ⟨.applying number key .seek, frames⟩)
    (open' : cache.storage.policy.blocks (Frame.keys number frames) key = false) :
    system.Admits limit thread number cache key frames := by
  refine ⟨enters_of_open reached found at' open', unrefused_of_open reached found open',
    fun {after outcome} during back => ?_⟩
  cases resolved_of_during reached found (.searching at' rfl) during back with
  | rejected rejected =>
      obtain ⟨place, middle, next, before, there, stepped, log, -⟩ := rejected
      exact absurd (List.mem_singleton_self _)
        (unrefused_of_open reached found open' before there stepped log)
  | found held => exact .inl ⟨_, rfl, held⟩
  | ran ran => exact .inr ran

/-- Whenever a thread applies a memoized function, whatever other threads do meanwhile: if the thread
computes an equal argument of the same cache, or any argument of one with a single lock, it is
refused, and as soon as the others let it go on it comes back with the failure and only the log has
changed. If it computes no such argument it is not refused: none of its steps tells of a refusal, and
if it comes back, it does so with a result that it found or with what its own run of the function
ended with. To apply a function that is derived from the memoized one is to apply the memoized one
with the same computations in progress. -/
theorem refused_exactly_on_reentry (reached : system.Reached limit)
    (found : system.world.caches[number]? = some cache) :
    (∀ thread key frames, system.At thread ⟨.applying number key .seek, frames⟩ →
      ((∃ other ∈ Frame.keys number frames,
          cache.storage.policy = .global ∨ other.same key = true) →
        system.Refuses thread number key frames cache.storage.policy ∧
        ∃ threads middle after, thread ∉ threads ∧ system.follow threads = some middle ∧
          middle.follow (List.replicate 3 thread) = some after ∧
          after.world = middle.world.record
            (.event number (some key) (.reentryRejected cache.storage.policy)) ∧
          after.At thread ⟨.answer (.error (.reentered cache.storage.policy)), frames⟩) ∧
      ((¬∃ other ∈ Frame.keys number frames,
          cache.storage.policy = .global ∨ other.same key = true) →
        system.Admits limit thread number cache key frames)) ∧
    ∀ callable, callable.Shares number → ∀ thread argument frames, ∃ after activity,
      Activity.Comes thread system.world ⟨.run (.apply callable argument), frames⟩ after activity ∧
        after.caches = system.world.caches ∧ after.log = system.world.log ∧
        activity.Arrives number frames := by
  refine ⟨fun thread key frames at' => ⟨fun blocked => ?_, fun open' => ?_⟩, ?_⟩
  · have blocked := (Policy.blocks_iff ..).mpr blocked
    exact ⟨refuses_of_blocked reached found at' blocked, at'.comes_of_blocked reached found blocked⟩
  · refine admits_of_open reached found at' ?_
    rwa [← Policy.blocks_iff, Bool.not_eq_true] at open'
  · intro callable shares thread argument frames
    exact Activity.arrives_of_shares shares thread system.world argument frames

/-- A thread applies the function again inside of the computation for an argument, and is refused.
Another thread waits for that computation with the same argument, and is not refused: it comes back
when the first thread has caught its failure and has ended. -/
theorem refused_exactly_on_reentry_catching :
    ∃ system cache waiting after next,
      (callers .perKey catching [[.int 1], [.int 1]]).follow
        (List.replicate 10 0 ++ List.replicate 2 1) = some system ∧
      system.At 0 ⟨.applying 0 (.int 1) .seek, [.bind next, .computing 0 (.int 1) 0]⟩ ∧
      system.Refuses 0 0 (.int 1) [.bind next, .computing 0 (.int 1) 0] .perKey ∧
      system.At 1 ⟨.applying 0 (.int 1) .seek, []⟩ ∧
      system.Admits 2 1 0 cache (.int 1) [] ∧
      system.follow (List.replicate 2 1) = some waiting ∧ waiting.step 1 = none ∧
      system.follow (List.replicate 2 1 ++ List.replicate 11 0 ++ List.replicate 4 1) = some after ∧
      after.world.log.head? = some (.event 0 (some (.int 1)) (.hit .perKey)) ∧
      (Found 2 1 0 cache (.int 1) [] system after (.value .absent) ∨
        Ran 2 1 0 cache.underlying (.int 1) [] system after (.ok (.value .absent))) := by
  have followed : ∃ system cache waiting after next,
      (callers .perKey catching [[.int 1], [.int 1]]).follow
        (List.replicate 10 0 ++ List.replicate 2 1) = some system ∧
      system.world.caches[0]? = some cache ∧ cache.storage.policy = .perKey ∧
      (system.workers[0]?).bind (·.current) =
        some ⟨.applying 0 (.int 1) .seek, [.bind next, .computing 0 (.int 1) 0]⟩ ∧
      (system.workers[1]?).bind (·.current) = some ⟨.applying 0 (.int 1) .seek, []⟩ ∧
      system.follow (List.replicate 2 1) = some waiting ∧ waiting.step 1 = none ∧
      system.follow (List.replicate 2 1 ++ List.replicate 11 0 ++ List.replicate 4 1) = some after ∧
      after.world.log.head? = some (.event 0 (some (.int 1)) (.hit .perKey)) ∧
      (after.workers[1]?).bind (·.current) = some ⟨.answer (.ok (.value .absent)), []⟩ ∧
      Along (·.Inside 1 []) system
        (List.replicate 2 1 ++ List.replicate 11 0 ++ List.replicate 4 1) :=
    ⟨_, _, _, _, _, rfl, rfl, rfl, rfl, rfl, rfl, rfl, rfl, rfl, rfl, by decide⟩
  obtain ⟨system, cache, waiting, after, next, followed, found, policy, again, begun, waited, waits,
    onward, hit, back, inside⟩ := followed
  rw [Option.bind_eq_some_iff] at again begun back
  have reached : system.Reached 2 :=
    (reached_callers .perKey catching [[.int 1], [.int 1]]).trans (Reaches.of_follow followed)
  obtain ⟨refused, -⟩ := refused_exactly_on_reentry reached found
  obtain ⟨refuses, -⟩ := (refused 0 (.int 1) _ again).1 ⟨.int 1, List.mem_singleton.mpr rfl, .inr rfl⟩
  have admits := (refused 1 (.int 1) [] begun).2 (by rintro ⟨other, member, -⟩; cases member)
  have ends : Found 2 1 0 cache (.int 1) [] system after (.value .absent) ∨
      Ran 2 1 0 cache.underlying (.int 1) [] system after (.ok (.value .absent)) := by
    rcases admits.ends (reaches_along onward inside) back with ⟨result, same, held⟩ | ran
    · obtain rfl := Except.ok.inj same
      exact .inl held
    · exact .inr ran
  rw [policy] at refuses
  exact ⟨system, cache, waiting, after, next, followed, again, refuses, begun, admits, waited, waits,
    onward, hit, ends⟩

end System

end FunctionValues
