import FunctionValues.Proofs.Nesting
import FunctionValues.Proofs.Reentry

/-!
# Failures that nobody catches

A failure travels outward through the frames of a thread until code catches it. Every computation
on its way ends with it, and no cache on its way stores anything. So nothing is stored for a
computation in which the cache rejected an application, unless code inside of the computation caught
the rejection; then the computation can end with a result, which is stored like any other.
-/

namespace FunctionValues

/-- Whether a frame hands a failure on: everything does but code that goes on after it. -/
def Frame.HandsOn (failure : Failure) : Frame → Prop
  | bind next => next (.error failure) = .finish (.error failure)
  | feed _ | computing .. => True

/-- The caches of a world hold the same results as those of an earlier one. -/
def World.SameResults (world after : World) : Prop :=
  ∀ number key result, System.Stores ⟨after, []⟩ number key result ↔
    System.Stores ⟨world, []⟩ number key result

namespace World.SameResults

variable {world middle after : World}

theorem refl (world : World) : world.SameResults world :=
  fun _ _ _ => Iff.rfl

theorem trans (first : world.SameResults middle) (second : middle.SameResults after) :
    world.SameResults after :=
  fun number key result => (second number key result).trans (first number key result)

theorem of_caches (same : after.caches = world.caches) : world.SameResults after := by
  intro number key result
  simp only [System.Stores, same]

/-- A cache whose storage agrees with what it was holds the same results. -/
theorem amend {number : Nat} {cache : Cache} {storage : Storage}
    (found : world.caches[number]? = some cache) (agrees : cache.storage.Agrees storage)
    (entries : List Entry) : world.SameResults (world.amend number storage entries) := by
  intro other key result
  by_cases here : number = other
  · subst here
    have now := World.caches_amend found storage entries
    simp [System.Stores, now, found, agrees.stored]
  · have elsewhere :
        (world.amend number storage entries).caches[other]? = world.caches[other]? := by
      simp [World.amend, here]
    simp only [System.Stores, elsewhere]

end World.SameResults

namespace Activity

/-- A failure comes out of some frames. Every computation among them ends with it, and the caches
hold the results that they held. -/
def Unwinds (world : World) (failure : Failure) (inner outer : List Frame) : Prop :=
  ∃ after added, Comes 0 world ⟨.answer (.error failure), inner ++ outer⟩ after
      ⟨.answer (.error failure), outer⟩ ∧
    after.log = added ++ world.log ∧ world.SameResults after ∧
    ∀ number key place, .computing number key place ∈ inner →
      .ended number key (.error failure) ∈ added

variable {world : World} {failure : Failure} {frame : Frame} {inner outer : List Frame}

/-- Code that hands a failure on changes nothing. -/
private theorem Unwinds.of_code (code : frame.computation? = none)
    (passed : Comes 0 world ⟨.answer (.error failure), frame :: inner ++ outer⟩ world
      ⟨.answer (.error failure), inner ++ outer⟩)
    (unwinds : Unwinds world failure inner outer) :
    Unwinds world failure (frame :: inner) outer := by
  obtain ⟨after, added, comes, log, same, ended⟩ := unwinds
  refine ⟨after, added, passed.trans comes, log, same, fun number key place member => ?_⟩
  rcases List.mem_cons.mp member with rfl | member
  · cases code
  · exact ended number key place member

/-- A failure comes out of frames none of which catches it. -/
theorem unwinds_of_uncaught (uncaught : ∀ frame ∈ inner, frame.HandsOn failure)
    (sound : world.SoundAt ⟨.answer (.error failure), inner ++ outer⟩) :
    Unwinds world failure inner outer := by
  induction inner generalizing world with
  | nil => exact ⟨world, [], .refl .., rfl, .refl world, fun _ _ _ member => nomatch member⟩
  | cons frame inner induction =>
      rw [List.forall_mem_cons] at uncaught
      obtain ⟨hands, uncaught⟩ := uncaught
      cases frame with
      | bind next =>
          have finished : next (.error failure) = .finish (.error failure) := hands
          have passed : Comes 0 world ⟨.answer (.error failure), .bind next :: inner ++ outer⟩ world
              ⟨.answer (.error failure), inner ++ outer⟩ := by
            refine .trans (.single rfl) (.single ?_)
            simp only [Activity.next, Computation.next, finished, Except.map]
            rfl
          exact .of_code rfl passed (induction uncaught (sound.of_comes passed))
      | feed argument =>
          have passed : Comes 0 world ⟨.answer (.error failure), .feed argument :: inner ++ outer⟩
              world ⟨.answer (.error failure), inner ++ outer⟩ := .single rfl
          exact .of_code rfl passed (induction uncaught (sound.of_comes passed))
      | computing number key place =>
          obtain ⟨cache, found⟩ := sound.exists_cache
          have vain : cache.retention.retains (.error failure) = false := rfl
          obtain ⟨storage, removals, passed, agrees, -, -⟩ :=
            comes_of_vain (inner ++ outer) found (sound.computing found) vain
          obtain ⟨after, added, comes, log, same, ended⟩ :=
            induction uncaught (sound.of_comes passed)
          refine ⟨after, _, passed.trans comes, log.trans (List.append_assoc ..).symm,
            (World.SameResults.amend found agrees _).trans same, ?_⟩
          intro other argument other' member
          rcases List.mem_cons.mp member with here | member
          · cases here
            simp
          · exact List.mem_append_left _ (ended other argument other' member)

end Activity

/-! ## Rejections -/

/-- A thread whose application is rejected is about to give the failure back, and no cache has
changed. -/
theorem Activity.next_of_rejected {thread : Thread} {world after : World} {focus : Focus}
    {frames : List Frame} {next : Activity} {number : Nat} {key : Value} {policy : Policy}
    (stepped : Activity.next thread world ⟨focus, frames⟩ = .step after next)
    (log : after.log = .event number (some key) (.reentryRejected policy) :: world.log) :
    ∃ cache place, world.caches[number]? = some cache ∧ after.caches = world.caches ∧
      next = ⟨.applying number key (.drop place (.error (.reentered policy))), frames⟩ := by
  obtain ⟨cache, stage, following, storage, found, -, moved, caches, rfl⟩ :=
    Activity.next_of_event stepped log
  cases Storage.goes_of_go moved with
  | refused _ =>
      rw [World.setStorage_self found] at caches
      exact ⟨cache, _, found, caches, rfl⟩

namespace System

variable {system rejected : System} {focus : Focus} {frames inner outer : List Frame}
  {number place : Nat} {key other : Value} {policy : Policy}

/-- The step with which an application is rejected changes no cache, and neither does the next, with
which the application comes back with the failure. -/
theorem At.comes_of_rejected (at' : system.At 0 ⟨focus, frames⟩)
    (stepped : system.step 0 = some rejected)
    (log : rejected.world.log =
      .event number (some other) (.reentryRejected policy) :: system.world.log)
    (inside : frames ≠ []) :
    ∃ activity back, rejected.At 0 activity ∧
      Activity.Comes 0 rejected.world activity back
        ⟨.answer (.error (.reentered policy)), frames⟩ ∧
      back.log = rejected.world.log ∧ system.world.SameResults back := by
  cases progress : Activity.next 0 system.world ⟨focus, frames⟩ with
  | wait =>
      rw [at'.step_of_wait progress] at stepped
      cases stepped
  | done outcome =>
      have ended := Activity.eq_answer_of_next_done progress
      cases ended
      exact absurd rfl inside
  | step world next =>
      obtain ⟨rfl, there⟩ := at'.eq_of_progress stepped progress
      obtain ⟨cache, place, found, caches, rfl⟩ := Activity.next_of_rejected progress log
      rw [← caches] at found
      have released : cache.storage.Agrees (cache.storage.release place) :=
        .of_drop (Storage.drop_eq_finish cache.storage place (.error (.reentered policy)))
      exact ⟨_, _, there, .single (next_drop found), rfl,
        (World.SameResults.of_caches caches).trans (.amend found released [])⟩

/-- Nothing is stored for an argument that a thread computes. -/
theorem At.unstored (reached : system.Reached 1) (at' : system.At 0 ⟨focus, frames⟩)
    (computing : .computing number key place ∈ frames) (result : Result) :
    ¬system.Stores number key result := by
  rintro ⟨cache, found, stored⟩
  have sound := (at'.soundAt reached).present found
  have member : Phase.computing key place ∈ [Activity.phases number ⟨focus, frames⟩].getD 0 [] :=
    Activity.mem_phases.mpr (.inr (.inr ⟨key, place, rfl, computing⟩))
  have missing := sound.guarded.missing member rfl
  rw [sound.find?_eq_stored? member rfl, stored] at missing
  cases missing

/-- In a program of a single thread: inside of the computation for an argument, however deep, the
same cache rejects an application, and no code between the two catches that. Then the rejection
comes out of the computation, for which nothing is stored, and on its way no cache stores
anything. -/
theorem uncaught_rejection_stores_nothing (reached : system.Reached 1)
    (at' : system.At 0 ⟨focus, inner ++ .computing number key place :: outer⟩)
    (stepped : system.step 0 = some rejected)
    (log : rejected.world.log =
      .event number (some other) (.reentryRejected policy) :: system.world.log)
    (uncaught : ∀ frame ∈ inner, frame.HandsOn (.reentered policy)) :
    ∃ steps later added, rejected.follow (List.replicate steps 0) = some later ∧
      later.At 0 ⟨.answer (.error (.reentered policy)), outer⟩ ∧
      later.world.log = added ++ rejected.world.log ∧
      .ended number key (.error (.reentered policy)) ∈ added ∧
      (∀ result, ¬later.Stores number key result) ∧
      ∀ cache argument result,
        later.Stores cache argument result ↔ system.Stores cache argument result := by
  obtain ⟨activity, back, there, comes, log', first⟩ :=
    at'.comes_of_rejected stepped log (by simp)
  have happens : Happens 1 system rejected := .step 0 stepped
  have sound := (there.soundAt (.tail reached happens)).of_comes comes
  rw [List.append_cons] at sound comes
  have hands : ∀ frame ∈ inner ++ [.computing number key place],
      frame.HandsOn (.reentered policy) := by
    intro frame member
    rcases List.mem_append.mp member with member | member
    · exact uncaught frame member
    · rw [List.mem_singleton.mp member]
      trivial
  obtain ⟨after, added, onward, grown, second, ended⟩ := Activity.unwinds_of_uncaught hands sound
  obtain ⟨steps, later, followed, rfl, last⟩ := there.follow (comes.trans onward)
  have same : ∀ cache argument result,
      later.Stores cache argument result ↔ system.Stores cache argument result :=
    first.trans second
  refine ⟨steps, later, added, followed, last, by rw [grown, log'],
    ended number key place (by simp), fun result stores => ?_, same⟩
  have computing :
      Frame.computing number key place ∈ inner ++ .computing number key place :: outer :=
    List.mem_append_right _ (List.mem_cons_self ..)
  exact at'.unstored reached computing result ((same number key result).mp stores)

/-- Code that applies the memoized function to the other of two numbers. -/
def alternating : Code
  | .int number => (Computation.apply (.memoized 0) (.int (1 - number))).andThen .value
  | _ => .value .unit

/-- A function that applies itself to the other of two numbers is rejected by the cache inside of
the second computation. Both computations end with that, and nothing is stored for either. -/
theorem uncaught_rejection_stores_nothing_alternating :
    ∃ system rejected steps later,
      (callers .perKey alternating [[.int 1]]).follow (List.replicate 19 0) = some system ∧
      system.step 0 = some rejected ∧
      rejected.world.log.head? = some (.event 0 (some (.int 1)) (.reentryRejected .perKey)) ∧
      rejected.follow (List.replicate steps 0) = some later ∧
      later.At 0 ⟨.answer (.error (.reentered .perKey)), []⟩ ∧
      (∀ result, ¬later.Stores 0 (.int 1) result) ∧
      ∀ cache argument result,
        later.Stores cache argument result ↔ system.Stores cache argument result := by
  have followed : ∃ system rejected stage next,
      (callers .perKey alternating [[.int 1]]).follow (List.replicate 19 0) = some system ∧
      (system.workers[0]?).bind (·.current) = some ⟨.applying 0 (.int 1) stage,
        [.bind next, .computing 0 (.int 0) 1, .bind next] ++ [.computing 0 (.int 1) 0]⟩ ∧
      next (.error (.reentered .perKey)) = .finish (.error (.reentered .perKey)) ∧
      system.step 0 = some rejected ∧
      rejected.world.log =
        .event 0 (some (.int 1)) (.reentryRejected .perKey) :: system.world.log :=
    ⟨_, _, _, _, rfl, rfl, rfl, rfl, rfl⟩
  obtain ⟨system, rejected, stage, next, followed, begun, passes, stepped, log⟩ := followed
  rw [Option.bind_eq_some_iff] at begun
  have reached : system.Reached 1 :=
    (reached_callers .perKey alternating [[.int 1]]).trans (Reaches.of_follow followed)
  have uncaught : ∀ frame ∈ [.bind next, .computing 0 (.int 0) 1, .bind next],
      Frame.HandsOn (.reentered .perKey) frame := by
    simpa [Frame.HandsOn] using passes
  obtain ⟨steps, later, -, onward, back, -, -, empty, same⟩ :=
    uncaught_rejection_stores_nothing reached begun stepped log uncaught
  exact ⟨system, rejected, steps, later, followed, stepped, by rw [log]; rfl, onward, back, empty,
    same⟩

/-- Code that applies the memoized function to its own argument and goes on without a result when
that fails. -/
def catching : Code := fun argument => (Computation.apply (.memoized 0) argument).attempt

/-- Inside of the computation for an argument, the cache rejects an application to it; the code goes
on after that, and what it ends with is stored for the argument. -/
theorem caught_rejection_stored :
    ∃ (system rejected later : System) (stage : Stage) (next : Reply → Computation),
      system.Reached 1 ∧
      system.At 0 ⟨.applying 0 (.int 1) stage, [.bind next, .computing 0 (.int 1) 0]⟩ ∧
      system.step 0 = some rejected ∧
      rejected.world.log =
        .event 0 (some (.int 1)) (.reentryRejected .global) :: system.world.log ∧
      rejected.follow (List.replicate 9 0) = some later ∧
      later.workers.all (·.isDone) = true ∧
      later.Stores 0 (.int 1) (.value .absent) := by
  have followed : ∃ system rejected later stage next,
      (callers .global catching [[.int 1]]).follow (List.replicate 11 0) = some system ∧
      (system.workers[0]?).bind (·.current) = some ⟨.applying 0 (.int 1) stage,
        [.bind next, .computing 0 (.int 1) 0]⟩ ∧
      system.step 0 = some rejected ∧
      rejected.world.log =
        .event 0 (some (.int 1)) (.reentryRejected .global) :: system.world.log ∧
      rejected.follow (List.replicate 9 0) = some later ∧
      later.workers.all (·.isDone) = true ∧
      ∃ cache, later.world.caches[0]? = some cache ∧
        cache.storage.stored? (.int 1) = some (.value .absent) :=
    ⟨_, _, _, _, _, rfl, rfl, rfl, rfl, rfl, rfl, _, rfl, rfl⟩
  obtain ⟨system, rejected, later, stage, next, followed, begun, stepped, log, rest⟩ := followed
  rw [Option.bind_eq_some_iff] at begun
  have reached : system.Reached 1 :=
    (reached_callers .global catching [[.int 1]]).trans (Reaches.of_follow followed)
  exact ⟨system, rejected, later, stage, next, reached, begun, stepped, log, rest⟩

end System

end FunctionValues
