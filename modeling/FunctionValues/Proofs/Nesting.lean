import FunctionValues.Proofs.Enclosure

/-!
# Nested applications

A thread can be in the middle of several applications of memoized functions, each inside of the
computation of the one around it. A step begins one more, ends the innermost, or leaves them as they
are. What they are about is a list of caches with arguments, the innermost first.
-/

namespace FunctionValues

/-- The cache and the argument of the computation that a frame waits for. -/
def Frame.computation? : Frame → Option (Nat × Value)
  | computing number key _ => some (number, key)
  | bind _ | feed _ => none

/-- The computations that a thread is inside of, by cache and argument, the innermost first. -/
def Frame.computations (frames : List Frame) : List (Nat × Value) :=
  frames.filterMap Frame.computation?

namespace Frame

@[simp]
theorem computations_nil : computations [] = [] :=
  rfl

@[simp]
theorem computations_bind (next : Reply → Computation) (frames : List Frame) :
    computations (.bind next :: frames) = computations frames :=
  rfl

@[simp]
theorem computations_feed (argument : Value) (frames : List Frame) :
    computations (.feed argument :: frames) = computations frames :=
  rfl

@[simp]
theorem computations_computing (number : Nat) (key : Value) (place : Nat) (frames : List Frame) :
    computations (.computing number key place :: frames) = (number, key) :: computations frames :=
  rfl

@[simp]
theorem computations_append (inner outer : List Frame) :
    computations (inner ++ outer) = computations inner ++ computations outer :=
  List.filterMap_append

theorem keys_eq (number : Nat) (frames : List Frame) :
    keys number frames = (computations frames).filterMap fun target =>
      if target.1 = number then some target.2 else none := by
  induction frames with
  | nil => rfl
  | cons frame frames induction =>
      cases frame with
      | bind next | feed argument => exact induction
      | computing other key place =>
          by_cases here : other = number
          · simpa [keys, phases, Phase.computed?, here] using induction
          · simpa [keys, phases, here] using induction

theorem mem_keys {number : Nat} {key : Value} {frames : List Frame} :
    key ∈ keys number frames ↔ (number, key) ∈ computations frames := by
  simp [keys_eq]

end Frame

namespace Activity

/-- The application of a memoized function that a thread is about to begin. -/
def applies? : Activity → Option (Nat × Value)
  | ⟨.run (.apply (.memoized number) key), _⟩ => some (number, key)
  | _ => none

/-- The applications that a thread has begun and has not come to the end of, the innermost first. -/
def applications : Activity → List (Nat × Value)
  | ⟨.applying number key _, frames⟩ => (number, key) :: Frame.computations frames
  | ⟨_, frames⟩ => Frame.computations frames

variable {thread : Thread} {world after : World} {activity next : Activity}

@[simp]
theorem applies?_within (outer : List Frame) (activity : Activity) :
    (activity.within outer).applies? = activity.applies? := by
  obtain ⟨focus, frames⟩ := activity
  cases focus with
  | run computation =>
      cases computation with
      | apply callable argument => cases callable <;> rfl
      | _ => rfl
  | _ => rfl

private theorem applications_run (world : World) (frames : List Frame) (computation : Computation) :
    (computation.next world frames).2.applications =
      (applies? ⟨.run computation, frames⟩).toList ++ Frame.computations frames := by
  cases computation with
  | apply callable argument => cases callable <;> rfl
  | _ => rfl

private theorem applications_answer (world : World) (frames : List Frame) (outcome : Outcome)
    (frame : Frame) :
    (outcome.next world frames frame).2.applications = Frame.computations (frame :: frames) := by
  rcases outcome with failure | (value | callable) <;> cases frame <;> rfl

/-- A step begins the application that the thread is about to begin, if there is one, or it ends the
innermost. -/
theorem applications_of_next (stepped : activity.next thread world = .step after next) :
    next.applications = activity.applies?.toList ++ activity.applications ∨
      ∃ target, activity.applications = target :: next.applications := by
  obtain ⟨focus, frames⟩ := activity
  cases focus with
  | run computation =>
      cases stepped
      exact .inl (applications_run ..)
  | answer outcome =>
      cases frames with
      | nil => cases stepped
      | cons frame frames =>
          cases stepped
          exact .inl (applications_answer ..)
  | applying number key stage =>
      simp only [Activity.next] at stepped
      split at stepped
      · cases stepped
      · unfold Move.progress at stepped
        split at stepped <;> cases stepped
        · exact .inl rfl
        · exact .inl rfl
        · exact .inr ⟨(number, key), rfl⟩
  | counting number progress =>
      simp only [Activity.next] at stepped
      split at stepped
      · cases stepped
      · unfold CountMove.progress at stepped
        split at stepped <;> cases stepped <;> exact .inl rfl

end Activity

/-! ## Policies -/

/-- The policy of a cache, if there is one of this number. -/
def World.policy? (world : World) (number : Nat) : Option Policy :=
  (world.caches[number]?).map (·.storage.policy)

theorem World.policy?_eq_some {world : World} {number : Nat} {policy : Policy} :
    world.policy? number = some policy ↔
      ∃ cache, world.caches[number]? = some cache ∧ cache.storage.policy = policy := by
  simp [policy?]

/-- A thread on its own keeps the caches, apart from what they store. -/
theorem Activity.Comes.caches {thread : Thread} {world after : World} {activity next : Activity}
    {number : Nat} {cache : Cache} (comes : Comes thread world activity after next)
    (found : world.caches[number]? = some cache) :
    ∃ storage, after.caches[number]? = some { cache with storage } ∧
      storage.policy = cache.storage.policy := by
  obtain ⟨steps, proceeded⟩ := comes
  induction steps generalizing world activity cache with
  | zero =>
      obtain ⟨rfl, -⟩ : world = after ∧ activity = next := by simpa [proceed] using proceeded
      exact ⟨cache.storage, found, rfl⟩
  | succ steps induction =>
      simp only [proceed] at proceeded
      split at proceeded
      next stepped =>
        obtain ⟨middle, marks, present, -, moves⟩ := Activity.moves_of_next found stepped
        obtain ⟨storage, kept, policy⟩ := induction present proceeded
        exact ⟨storage, kept, policy.trans moves.policy⟩
      · cases proceeded
      · cases proceeded

theorem Activity.Comes.policy? {thread : Thread} {world after : World} {activity next : Activity}
    {number : Nat} {policy : Policy} (comes : Comes thread world activity after next)
    (before : world.policy? number = some policy) : after.policy? number = some policy := by
  obtain ⟨cache, found, rfl⟩ := World.policy?_eq_some.mp before
  obtain ⟨storage, kept, same⟩ := comes.caches found
  exact World.policy?_eq_some.mpr ⟨_, kept, same⟩

/-- A step of a thread keeps the policies. -/
theorem Activity.policy?_of_next {thread : Thread} {world after : World} {activity next : Activity}
    {number : Nat} {policy : Policy} (stepped : activity.next thread world = .step after next)
    (before : world.policy? number = some policy) : after.policy? number = some policy :=
  Comes.policy? (.single stepped) before

theorem System.Happens.policy? {limit : Nat} {system after : System} {number : Nat}
    {policy : Policy} (happens : Happens limit system after)
    (before : system.world.policy? number = some policy) :
    after.world.policy? number = some policy := by
  obtain ⟨cache, found, rfl⟩ := World.policy?_eq_some.mp before
  obtain ⟨storage, kept, same⟩ := happens.caches found
  exact World.policy?_eq_some.mpr ⟨_, kept, same⟩

end FunctionValues
