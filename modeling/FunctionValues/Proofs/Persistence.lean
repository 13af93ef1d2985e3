import FunctionValues.Proofs.Reachability

/-!
# What lasts

The log only grows, a cache keeps its function, its retention and its policy, and a stored result
stays stored. While a result is stored no run for its argument starts.
-/

namespace FunctionValues

/-! ## The log -/

theorem World.log_recordEvent (world : World) (cache : Nat) (key : Value) (event : Option Event) :
    world.log <:+ (world.recordEvent cache key event).log := by
  cases event with
  | none => exact List.suffix_refl _
  | some event => exact List.suffix_cons ..

theorem Computation.log_next (world : World) (frames : List Frame) (computation : Computation) :
    world.log <:+ (computation.next world frames).1.log := by
  cases computation with
  | apply callable argument => cases callable <;> exact List.suffix_refl _
  | note label arguments rest => exact List.suffix_cons ..
  | _ => exact List.suffix_refl _

theorem Outcome.log_next (world : World) (frames : List Frame) (outcome : Outcome) (frame : Frame) :
    world.log <:+ (outcome.next world frames frame).1.log := by
  unfold Outcome.next
  split <;> first | exact List.suffix_refl _ | exact List.suffix_cons ..

theorem Activity.log_of_next {thread : Thread} {world after : World} {activity next : Activity}
    (stepped : activity.next thread world = .step after next) : world.log <:+ after.log := by
  obtain ⟨focus, frames⟩ := activity
  cases focus with
  | run computation =>
      cases stepped
      exact Computation.log_next ..
  | answer outcome =>
      cases frames with
      | nil => cases stepped
      | cons frame frames =>
          cases stepped
          exact Outcome.log_next ..
  | applying number key stage =>
      simp only [Activity.next] at stepped
      split at stepped
      · cases stepped
      · unfold Move.progress at stepped
        split at stepped <;> cases stepped
        · exact World.log_recordEvent (world.setStorage number _) number key _
        · exact List.suffix_cons ..
        · exact List.suffix_refl _
  | counting number progress =>
      simp only [Activity.next] at stepped
      split at stepped
      · cases stepped
      · unfold CountMove.progress at stepped
        split at stepped <;> cases stepped <;> exact List.suffix_refl _

/-- A step that leaves an event of a cache is one of an application there. -/
theorem Activity.next_of_event {thread : Thread} {world after : World} {activity next : Activity}
    {number : Nat} {key : Value} {event : Event}
    (stepped : activity.next thread world = .step after next)
    (log : after.log = .event number (some key) event :: world.log) :
    ∃ cache stage following storage, world.caches[number]? = some cache ∧
      activity = ⟨.applying number key stage, activity.frames⟩ ∧
      cache.storage.advance cache.retention thread key stage =
        .go storage (some event) following ∧
      after.caches = (world.setStorage number storage).caches ∧
      next = ⟨.applying number key following, activity.frames⟩ := by
  obtain ⟨focus, frames⟩ := activity
  cases focus with
  | run computation =>
      cases stepped
      cases computation with
      | apply callable argument => cases callable <;> simp at log
      | _ => simp [World.record] at log
  | answer outcome =>
      cases frames with
      | nil => cases stepped
      | cons frame frames =>
          cases stepped
          rcases outcome with failure | (value | callable) <;> cases frame <;>
            simp [World.record] at log
  | applying other argument stage =>
      simp only [Activity.next] at stepped
      split at stepped
      · cases stepped
      next cache found =>
        cases moved : cache.storage.advance cache.retention thread argument stage with
        | wait => simp [moved, Move.progress] at stepped
        | compute storage place | finish storage outcome =>
            rw [moved] at stepped
            cases stepped
            simp [World.setStorage, World.record] at log
        | go storage event following =>
            rw [moved] at stepped
            cases stepped
            cases event with
            | none => simp [World.recordEvent, World.setStorage] at log
            | some event =>
                simp only [World.recordEvent, World.record, World.setStorage, List.cons.injEq,
                  Entry.event.injEq, Option.some.injEq, and_true] at log
                obtain ⟨rfl, rfl, rfl⟩ := log
                exact ⟨cache, stage, following, storage, found, rfl, moved, rfl, rfl⟩
  | counting other progress =>
      simp only [Activity.next] at stepped
      split at stepped
      · cases stepped
      next cache found =>
        cases moved : cache.storage.count progress with
        | wait => simp [moved, CountMove.progress] at stepped
        | go storage next | finish count =>
            rw [moved] at stepped
            cases stepped
            simp [World.setStorage] at log

theorem Worker.log_of_next {thread : Thread} {world after : World} {worker next : Worker}
    (stepped : worker.next thread world = some (after, next)) : world.log <:+ after.log := by
  obtain ⟨_ | activity, pending, outcomes⟩ := worker
  · cases pending with
    | nil => cases stepped
    | cons task pending =>
        cases stepped
        exact List.suffix_refl _
  · simp only [Worker.next] at stepped
    split at stepped
    next moved =>
      cases stepped
      exact Activity.log_of_next moved
    next => cases stepped
    next =>
      cases stepped
      exact List.suffix_refl _

/-! ## Making functions -/

namespace World.Makes

variable {world after : World} {number : Nat}

theorem caches (made : world.Makes after) {cache : Cache}
    (found : world.caches[number]? = some cache) : after.caches[number]? = some cache := by
  cases made with
  | define name function | create code => exact found
  | memoize policy retention callable =>
      cases callable with
      | memoized other => exact found
      | plain identity code =>
          have inside : number < world.caches.length := (List.getElem?_eq_some_iff.mp found).1
          change (world.caches ++ [_])[number]? = _
          rw [List.getElem?_append_left inside, found]

theorem log (made : world.Makes after) : world.log <:+ after.log := by
  cases made with
  | define name function | create code => exact List.suffix_refl _
  | memoize policy retention callable =>
      cases callable with
      | memoized cache => exact List.suffix_refl _
      | plain identity code => exact List.suffix_cons ..

theorem marks (made : world.Makes after) : after.marks number = world.marks number := by
  cases made with
  | define name function | create code => rfl
  | memoize policy retention callable => cases callable <;> rfl

end World.Makes

namespace System

variable {limit : Nat} {system after : System}

theorem log_of_step {thread : Thread} (stepped : system.step thread = some after) :
    system.world.log <:+ after.world.log := by
  obtain ⟨worker, next, world, -, moved, rfl⟩ := step_eq_some stepped
  exact Worker.log_of_next moved

theorem Happens.log (happens : Happens limit system after) : system.world.log <:+ after.world.log := by
  cases happens with
  | step thread stepped => exact log_of_step stepped
  | make made => exact made.log
  | start tasks few done => exact List.suffix_refl _

/-- What leaves a single entry in the log leaves the latest. -/
theorem Happens.log_eq_cons {entry : Entry} (happens : Happens limit system after)
    (latest : after.world.log.head? = some entry)
    (length : after.world.log.length = system.world.log.length + 1) :
    after.world.log = entry :: system.world.log := by
  obtain ⟨added, same⟩ := happens.log
  have one : added.length = 1 := by
    have lengths := congrArg List.length same
    rw [List.length_append] at lengths
    omega
  obtain ⟨other, rfl⟩ := List.length_eq_one_iff.mp one
  rw [← same] at latest ⊢
  obtain rfl : other = entry := Option.some.inj latest
  rfl

theorem Reaches.log (reaches : Reaches limit system after) :
    system.world.log <:+ after.world.log := by
  induction reaches with
  | refl => exact List.suffix_refl _
  | tail _ happens induction => exact induction.trans happens.log

/-! ## Caches -/

variable {number : Nat} {cache : Cache}

/-- A cache keeps its function, its retention and its policy. -/
theorem Happens.caches (happens : Happens limit system after)
    (found : system.world.caches[number]? = some cache) :
    ∃ storage, after.world.caches[number]? = some { cache with storage } ∧
      storage.policy = cache.storage.policy := by
  cases happens with
  | step thread stepped =>
      obtain ⟨_, _, storage, _, _, kept, _, _, moves⟩ := moves_of_step stepped found
      exact ⟨storage, kept, moves.policy⟩
  | make made => exact ⟨cache.storage, made.caches found, rfl⟩
  | start tasks few done => exact ⟨cache.storage, found, rfl⟩

theorem Reaches.caches (reaches : Reaches limit system after)
    (found : system.world.caches[number]? = some cache) :
    ∃ storage, after.world.caches[number]? = some { cache with storage } ∧
      storage.policy = cache.storage.policy := by
  induction reaches with
  | refl => exact ⟨cache.storage, found, rfl⟩
  | tail _ happens induction =>
      obtain ⟨storage, present, policy⟩ := induction
      obtain ⟨storage', kept, policy'⟩ := happens.caches present
      exact ⟨storage', kept, policy'.trans policy⟩

/-! ## Stored results -/

/-- A result is stored in a cache for an argument. -/
def Stores (system : System) (number : Nat) (key : Value) (result : Result) : Prop :=
  ∃ cache, system.world.caches[number]? = some cache ∧ cache.storage.stored? key = some result

/-- The entries that were added to the log since an earlier world start no run for an argument. -/
def Spares (system after : System) (number : Nat) (key : Value) : Prop :=
  ∃ added, after.world.log = added ++ system.world.log ∧
    ∀ other, key.same other = true → Entry.started number other ∉ added

variable {key : Value} {result : Result}

private theorem spares_of_marks (added : List Mark) (grown : system.world.log <:+ after.world.log)
    (marked : after.world.marks number = added ++ system.world.marks number)
    (without : ∀ other, key.same other = true → Mark.started other ∉ added) :
    system.Spares after number key := by
  obtain ⟨entries, split⟩ := grown
  refine ⟨entries, split.symm, fun other equal member => without other equal ?_⟩
  have same : entries.filterMap (Entry.mark? number) = added := by
    rw [World.marks, ← split, List.filterMap_append] at marked
    exact List.append_cancel_right marked
  rw [← same, List.mem_filterMap]
  exact ⟨_, member, by simp [Entry.mark?]⟩

theorem Spares.refl (system : System) (number : Nat) (key : Value) :
    system.Spares system number key :=
  ⟨[], rfl, by simp⟩

theorem Spares.trans {later : System} (first : system.Spares after number key)
    (second : after.Spares later number key) : system.Spares later number key := by
  obtain ⟨added, grown, without⟩ := first
  obtain ⟨entries, grown', without'⟩ := second
  refine ⟨entries ++ added, by rw [grown', grown, List.append_assoc], ?_⟩
  intro other equal member
  rcases List.mem_append.mp member with member | member
  · exact without' other equal member
  · exact without other equal member

/-- A stored result stays, and no run for its argument starts. -/
theorem Stores.of_happens (stores : system.Stores number key result) (sound : system.Sound)
    (happens : Happens limit system after) :
    after.Stores number key result ∧ system.Spares after number key := by
  obtain ⟨cache, found, stored⟩ := stores
  cases happens with
  | step thread stepped =>
      have grown := log_of_step stepped
      obtain ⟨phases, phases', storage, added, present, kept, marked, moved, moves⟩ :=
        moves_of_step stepped found
      have cached := sound.present found
      refine ⟨⟨_, kept, cached.stored_of_moves present moves stored⟩,
        spares_of_marks added grown marked ?_⟩
      intro other equal member
      have missing := cached.missing_of_started present moves member
      rw [← cache.storage.stored?_congr equal, stored] at missing
      cases missing
  | make made =>
      exact ⟨⟨cache, made.caches found, stored⟩, spares_of_marks [] made.log made.marks (by simp)⟩
  | start tasks few done => exact ⟨⟨cache, found, stored⟩, .refl ..⟩

theorem Stores.of_reaches (stores : system.Stores number key result) (sound : system.Sound)
    (reaches : Reaches limit system after) :
    after.Stores number key result ∧ system.Spares after number key := by
  induction reaches with
  | refl => exact ⟨stores, .refl ..⟩
  | tail before happens induction =>
      obtain ⟨stores', spares⟩ := induction
      obtain ⟨stores'', spares'⟩ := stores'.of_happens (sound.of_reaches before) happens
      exact ⟨stores'', spares.trans spares'⟩

/-! ## Threads -/

/-- A thread is in the middle of a task. -/
def At (system : System) (thread : Thread) (activity : Activity) : Prop :=
  ∃ worker, system.workers[thread]? = some worker ∧ worker.current = some activity

variable {thread : Thread} {activity : Activity}

/-- What happens is a step of a thread that is in the middle of a task, or leaves it there. -/
theorem At.of_happens (at' : system.At thread activity) (happens : Happens limit system after) :
    system.step thread = some after ∨ after.At thread activity := by
  obtain ⟨worker, present, current⟩ := at'
  cases happens with
  | step other stepped =>
      by_cases same : other = thread
      · exact .inl (same ▸ stepped)
      · right
        obtain ⟨_, next, world, -, -, rfl⟩ := step_eq_some stepped
        refine ⟨worker, ?_, current⟩
        rw [List.getElem?_set_ne same, present]
  | make made => exact .inr ⟨worker, present, current⟩
  | start tasks few done =>
      have idle := done worker (List.mem_of_getElem? present)
      simp [Worker.isDone, current] at idle

theorem At.eq_of_step (at' : system.At thread activity) {world : World} {next : Activity}
    (progress : activity.next thread system.world = .step world next) :
    ∃ after, system.step thread = some after ∧ after.world = world ∧ after.At thread next := by
  obtain ⟨worker, present, current⟩ := at'
  obtain ⟨_, pending, outcomes⟩ := worker
  obtain rfl : _ = some activity := current
  have inside : thread < system.workers.length := (List.getElem?_eq_some_iff.mp present).1
  refine ⟨⟨world, system.workers.set thread ⟨some next, pending, outcomes⟩⟩, ?_, rfl,
    ⟨some next, pending, outcomes⟩, by simp [inside], rfl⟩
  simp [step, present, Worker.next, progress]

/-- What leaves an event of a cache is a step of an application there. -/
theorem Happens.of_event {event : Event} (happens : Happens limit system after)
    (log : after.world.log = .event number (some key) event :: system.world.log) :
    ∃ thread cache stage next storage frames, system.world.caches[number]? = some cache ∧
      cache.storage.advance cache.retention thread key stage = .go storage (some event) next ∧
      after.world.caches[number]? = some { cache with storage } ∧
      after.At thread ⟨.applying number key next, frames⟩ := by
  cases happens with
  | step thread stepped =>
      obtain ⟨⟨current, pending, outcomes⟩, worker, world, present, moved, rfl⟩ :=
        step_eq_some stepped
      have inside : thread < system.workers.length := (List.getElem?_eq_some_iff.mp present).1
      cases current with
      | none =>
          cases pending with
          | nil => cases moved
          | cons task pending =>
              cases moved
              simp at log
      | some activity =>
          simp only [Worker.next] at moved
          split at moved
          next progress =>
            cases moved
            obtain ⟨cache, stage, next, storage, found, -, moved, caches, rfl⟩ :=
              Activity.next_of_event progress log
            refine ⟨thread, cache, stage, next, storage, activity.frames, found, moved, ?_, _,
              List.getElem?_set_self inside, rfl⟩
            rw [caches, World.caches_setStorage, if_pos rfl, found]
            rfl
          · cases moved
          · cases moved
            simp at log
  | make made =>
      cases made with
      | define name function | create code => simp [World.define, World.create] at log
      | memoize policy retention callable =>
          cases callable <;> simp [World.memoize, World.record] at log
  | start tasks few done => simp [ofTasks] at log

end System

end FunctionValues
