import FunctionValues.Interleaving

/-!
# Phases of threads at a cache

What every thread is in the middle of at one cache: applications of its function, each at a stage or
computing, and counting its results. A thread has the phases of the computations that it is inside
of, the innermost first. `Phase.Moves` says how a step of a thread changes its phases and the storage
of the cache, whatever the thread does elsewhere; `Worker.moves_of_next` is the law that a step of
the program is such a move at every cache.
-/

namespace FunctionValues

/-- The beginning or the end of a run of the function behind a cache. -/
inductive Mark where
  | started (key : Value)
  | ended (key : Value) (outcome : Outcome)

/-- The argument of the run. -/
def Mark.key : Mark → Value
  | started key | ended key _ => key

/-- What an entry of the log marks at a cache. -/
def Entry.mark? (number : Nat) : Entry → Option Mark
  | started cache key => if cache = number then some (.started key) else none
  | ended cache key outcome => if cache = number then some (.ended key outcome) else none
  | _ => none

/-- What a thread is in the middle of at one cache. -/
inductive Phase where
  | applying (key : Value) (stage : Stage)
  | computing (key : Value) (place : Nat)
  | counting (counting : Counting)

namespace Stage

/-- The place that an application refers to. -/
def place? : Stage → Option Nat
  | seek => none
  | check place | lock place | look place | start place | settle place _ | keep place _
  | unlock place _ _ | enter place _ | inspect place _ | clear place _ | leave place _
  | drop place _ => some place

/-- The place whose latch is held. -/
def latched? : Stage → Option Nat
  | look place | start place | settle place _ | keep place _ | unlock place _ _ => some place
  | _ => none

/-- Whether the lock of the slot map is held. -/
def locksMap : Stage → Bool
  | inspect .. | clear .. | leave .. => true
  | _ => false

end Stage

namespace Phase

/-- The place whose latch is held. -/
def latched? : Phase → Option Nat
  | applying _ stage => stage.latched?
  | computing _ place => some place
  | counting _ => none

/-- The place of which the thread is the owner. -/
def owned? : Phase → Option Nat
  | applying _ (.settle place _) | computing _ place => some place
  | _ => none

/-- The argument that was missed and whose result is not stored yet, with its place. -/
def missed? : Phase → Option (Value × Nat)
  | applying key (.start place) | applying key (.settle place _) | applying key (.keep place _)
  | computing key place => some (key, place)
  | _ => none

/-- The argument of an application whose slot is still in the map, with its place. -/
def mapped? : Phase → Option (Value × Nat)
  | applying _ (.leave ..) | applying _ (.drop ..) | counting _ => none
  | applying key stage => stage.place?.map (key, ·)
  | computing key place => some (key, place)

/-- The argument of an application that is about to end, with its place. -/
def leaving? : Phase → Option (Value × Nat)
  | applying key (.leave place _) | applying key (.drop place _) => some (key, place)
  | _ => none

/-- The place that is about to be cleared. -/
def clearing? : Phase → Option Nat
  | applying _ (.clear place _) => some place
  | _ => none

/-- The places that are referred to. -/
def references : Phase → List Nat
  | applying _ stage => stage.place?.toList
  | computing _ place => [place]
  | counting (.collect _) => []
  | counting (.visit ahead behind _) => ahead ++ behind
  | counting (.drop held _) => held

/-- Whether the lock of the slot map is held. -/
def locksMap : Phase → Bool
  | applying _ stage => stage.locksMap
  | _ => false

/-- The argument that is being computed. -/
def computed? : Phase → Option Value
  | computing key _ => some key
  | _ => none

/-- Whether nothing has happened at the cache yet. -/
def isFresh : Phase → Bool
  | applying _ .seek | counting (.collect _) => true
  | _ => false

theorem eq_of_computed? {phase : Phase} {key : Value} (computed : phase.computed? = some key) :
    ∃ place, phase = .computing key place := by
  cases phase with
  | computing argument place =>
      obtain rfl : argument = key := by simpa [computed?] using computed
      exact ⟨place, rfl⟩
  | applying argument stage => cases computed
  | counting progress => cases computed

/-- How a step of a thread changes the storage of a cache and the phases of the thread there, and
which marks it leaves. -/
inductive Moves (retention : Retention) (thread : Thread) :
    Storage → List Phase → List Mark → Storage → List Phase → Prop
  | stay {storage phases} : Moves retention thread storage phases [] storage phases
  | apply {storage phases} (key) :
      Moves retention thread storage phases [] storage (.applying key .seek :: phases)
  | count {storage phases} (traversal) :
      Moves retention thread storage phases [] storage (.counting (.collect traversal) :: phases)
  | go {storage phases key stage after event next}
      (moved : storage.advance retention thread key stage = .go after event next) :
      Moves retention thread storage (.applying key stage :: phases) [] after
        (.applying key next :: phases)
  | compute {storage phases key stage after place}
      (moved : storage.advance retention thread key stage = .compute after place) :
      Moves retention thread storage (.applying key stage :: phases) [.started key] after
        (.computing key place :: phases)
  | settle {storage phases key place} (outcome) :
      Moves retention thread storage (.computing key place :: phases) [.ended key outcome] storage
        (.applying key (.settle place outcome) :: phases)
  | finish {storage phases key stage after outcome}
      (moved : storage.advance retention thread key stage = .finish after outcome) :
      Moves retention thread storage (.applying key stage :: phases) [] after phases
  | tally {storage phases counting after next}
      (moved : storage.count counting = .go after next) :
      Moves retention thread storage (.counting counting :: phases) [] after
        (.counting next :: phases)
  | counted {storage phases counting number}
      (moved : storage.count counting = .finish number) :
      Moves retention thread storage (.counting counting :: phases) [] storage phases

/-! ## The phases of one thread among those of all -/

section Threads

variable {threads : List (List Phase)} {thread other : Thread} {rest : List Phase} {phase : Phase}

theorem mem_of_mem_set (now : List Phase) (inside : thread < threads.length)
    (member : phase ∈ (threads.set thread (now ++ rest)).getD other []) :
    thread = other ∧ phase ∈ now ∨ phase ∈ (threads.set thread rest).getD other [] := by
  by_cases here : thread = other
  · subst here
    simp only [List.getD_eq_getElem?_getD, List.getElem?_set_self inside, Option.getD_some,
      List.mem_append] at member ⊢
    exact member.imp (⟨trivial, ·⟩) id
  · right
    simpa [List.getElem?_set_ne here] using member

/-- The first phase of a thread, or any other. -/
theorem eq_or_mem_of_mem_set {next : Phase} (inside : thread < threads.length)
    (member : phase ∈ (threads.set thread (next :: rest)).getD other []) :
    phase = next ∨ phase ∈ (threads.set thread rest).getD other [] := by
  simpa using (mem_of_mem_set [next] inside member).imp And.right id

theorem mem_set_of_mem (now : List Phase) (inside : thread < threads.length)
    (member : phase ∈ (threads.set thread rest).getD other []) :
    phase ∈ (threads.set thread (now ++ rest)).getD other [] := by
  by_cases here : thread = other
  · subst here
    simp only [List.getD_eq_getElem?_getD, List.getElem?_set_self inside, Option.getD_some,
      List.mem_append] at member ⊢
    exact .inr member
  · simpa [List.getElem?_set_ne here] using member

private theorem set_of_getElem? (present : threads[thread]? = some rest) :
    threads.set thread rest = threads := by
  obtain ⟨inside, value⟩ := List.getElem?_eq_some_iff.mp present
  rw [← value, List.set_getElem_self]

theorem mem_of_mem_elsewhere (before : List Phase)
    (present : threads[thread]? = some (before ++ rest))
    (member : phase ∈ (threads.set thread rest).getD other []) :
    phase ∈ threads.getD other [] := by
  have inside : thread < threads.length := (List.getElem?_eq_some_iff.mp present).1
  exact set_of_getElem? present ▸ mem_set_of_mem before inside member

theorem mem_elsewhere_of_mem (before : List Phase)
    (present : threads[thread]? = some (before ++ rest)) (member : phase ∈ threads.getD other []) :
    thread = other ∧ phase ∈ before ∨ phase ∈ (threads.set thread rest).getD other [] := by
  have inside : thread < threads.length := (List.getElem?_eq_some_iff.mp present).1
  rw [← set_of_getElem? present] at member
  exact mem_of_mem_set before inside member

theorem eq_or_mem_elsewhere {next : Phase} (present : threads[thread]? = some (next :: rest))
    (member : phase ∈ threads.getD other []) :
    phase = next ∨ phase ∈ (threads.set thread rest).getD other [] := by
  simpa using (mem_elsewhere_of_mem [next] present member).imp And.right id

theorem exists_mem_getD (member : phase ∈ threads.flatten) :
    ∃ thread, phase ∈ threads.getD thread [] := by
  obtain ⟨phases, present, inside⟩ := List.mem_flatten.mp member
  obtain ⟨thread, found⟩ := List.getElem?_of_mem present
  exact ⟨thread, by simpa [found] using inside⟩

theorem isFresh_of_idle (idle : ∀ phases ∈ threads, ∀ phase ∈ phases, phase.isFresh = true)
    (member : phase ∈ threads.getD thread []) : phase.isFresh = true := by
  rw [List.getD_eq_getElem?_getD] at member
  cases found : threads[thread]? with
  | none => simp [found] at member
  | some phases =>
      exact idle phases (List.mem_of_getElem? found) phase (by simpa [found] using member)

theorem getD_of_idle (idle : ∀ phases ∈ threads, phases = []) : threads.getD thread [] = [] := by
  rw [List.getD_eq_getElem?_getD]
  cases found : threads[thread]? with
  | none => rfl
  | some phases => exact idle phases (List.mem_of_getElem? found)

end Threads

end Phase

/-! ## The phases of a program -/

/-- The phases of the computations that a thread is inside of at a cache. -/
def Frame.phases (number : Nat) : List Frame → List Phase
  | [] => []
  | .computing cache key place :: frames =>
      if cache = number then .computing key place :: phases number frames
      else phases number frames
  | _ :: frames => phases number frames

/-- The phases of a thread at a cache. -/
def Activity.phases (number : Nat) : Activity → List Phase
  | ⟨.applying cache key stage, frames⟩ =>
      if cache = number then .applying key stage :: Frame.phases number frames
      else Frame.phases number frames
  | ⟨.counting cache progress, frames⟩ =>
      if cache = number then .counting progress :: Frame.phases number frames
      else Frame.phases number frames
  | ⟨_, frames⟩ => Frame.phases number frames

namespace Activity

@[simp]
theorem phases_run (number : Nat) (computation : Computation) (frames : List Frame) :
    phases number ⟨.run computation, frames⟩ = Frame.phases number frames :=
  rfl

@[simp]
theorem phases_answer (number : Nat) (outcome : Outcome) (frames : List Frame) :
    phases number ⟨.answer outcome, frames⟩ = Frame.phases number frames :=
  rfl

@[simp]
theorem phases_applying (number cache : Nat) (key : Value) (stage : Stage) (frames : List Frame) :
    phases number ⟨.applying cache key stage, frames⟩ =
      if cache = number then .applying key stage :: Frame.phases number frames
      else Frame.phases number frames :=
  rfl

@[simp]
theorem phases_counting (number cache : Nat) (progress : Counting) (frames : List Frame) :
    phases number ⟨.counting cache progress, frames⟩ =
      if cache = number then .counting progress :: Frame.phases number frames
      else Frame.phases number frames :=
  rfl

end Activity

/-- The phases of a worker at a cache. -/
def Worker.phases (number : Nat) (worker : Worker) : List Phase :=
  (worker.current.map (·.phases number)).getD []

/-- The phases of every thread at a cache. -/
def System.phases (system : System) (number : Nat) : List (List Phase) :=
  system.workers.map (·.phases number)

namespace World

/-- The runs of the function behind a cache, the latest mark first. -/
def marks (world : World) (number : Nat) : List Mark :=
  world.log.filterMap (Entry.mark? number)

@[simp]
theorem marks_recordEvent (world : World) (cache number : Nat) (key : Value)
    (event : Option Event) : (world.recordEvent cache key event).marks number = world.marks number := by
  cases event <;> rfl

theorem marks_record_started (world : World) (cache number : Nat) (key : Value) :
    (world.record (.started cache key)).marks number =
      if cache = number then .started key :: world.marks number else world.marks number := by
  by_cases here : cache = number <;> simp [marks, record, Entry.mark?, here]

theorem marks_record_ended (world : World) (cache number : Nat) (key : Value)
    (outcome : Outcome) :
    (world.record (.ended cache key outcome)).marks number =
      if cache = number then .ended key outcome :: world.marks number
      else world.marks number := by
  by_cases here : cache = number <;> simp [marks, record, Entry.mark?, here]

@[simp]
theorem marks_setStorage (world : World) (cache number : Nat) (storage : Storage) :
    (world.setStorage cache storage).marks number = world.marks number :=
  rfl

@[simp]
theorem caches_record (world : World) (entry : Entry) : (world.record entry).caches = world.caches :=
  rfl

@[simp]
theorem caches_recordEvent (world : World) (number : Nat) (key : Value) (event : Option Event) :
    (world.recordEvent number key event).caches = world.caches := by
  cases event <;> rfl

theorem caches_setStorage (world : World) (number other : Nat) (storage : Storage) :
    (world.setStorage number storage).caches[other]? =
      if number = other then world.caches[other]?.map ({ · with storage := storage })
      else world.caches[other]? := by
  simp only [setStorage, List.getElem?_modify]
  split <;> simp

end World

/-! ## Steps of threads are moves -/

namespace Computation

/-- Running the outermost part of a computation changes no cache. -/
theorem caches_next (world : World) (frames : List Frame) (computation : Computation) :
    (computation.next world frames).1.caches = world.caches := by
  cases computation with
  | apply callable argument => cases callable <;> rfl
  | _ => rfl

/-- Running the outermost part of a computation leaves no mark. -/
theorem marks_next (world : World) (frames : List Frame) (computation : Computation)
    (number : Nat) : (computation.next world frames).1.marks number = world.marks number := by
  cases computation with
  | apply callable argument => cases callable <;> rfl
  | _ => rfl

/-- Running the outermost part of a computation at most begins an application. -/
theorem phases_next (world : World) (frames : List Frame) (computation : Computation)
    (number : Nat) :
    (computation.next world frames).2.phases number = Frame.phases number frames ∨
      ∃ key, (computation.next world frames).2.phases number =
        .applying key .seek :: Frame.phases number frames := by
  cases computation with
  | apply callable argument =>
      cases callable with
      | plain identity code => exact .inl rfl
      | memoized cache =>
          by_cases here : cache = number
          · exact .inr ⟨argument, by simp [next, here]⟩
          · exact .inl (by simp [next, here])
  | _ => exact .inl rfl

end Computation

namespace Outcome

/-- Handing an outcome to a frame changes no cache. -/
theorem caches_next (world : World) (frames : List Frame) (outcome : Outcome) (frame : Frame) :
    (outcome.next world frames frame).1.caches = world.caches := by
  unfold Outcome.next
  split <;> rfl

/-- Handing an outcome to a frame at most ends a computation, which leaves a mark. -/
theorem phases_next (world : World) (frames : List Frame) (outcome : Outcome) (frame : Frame)
    (number : Nat) :
    (outcome.next world frames frame).2.phases number = Frame.phases number (frame :: frames) ∧
        (outcome.next world frames frame).1.marks number = world.marks number ∨
      ∃ key place, frame = .computing number key place ∧
        (outcome.next world frames frame).2.phases number =
          .applying key (.settle place outcome) :: Frame.phases number frames ∧
        (outcome.next world frames frame).1.marks number =
          .ended key outcome :: world.marks number := by
  cases frame with
  | bind next | feed argument =>
      left
      unfold Outcome.next
      split <;> simp_all [Frame.phases]
  | computing cache key place =>
      by_cases here : cache = number
      · subst here
        exact .inr ⟨key, place, rfl, by simp [Outcome.next], by
          simp [Outcome.next, World.marks_record_ended]⟩
      · exact .inl ⟨by simp [Outcome.next, Frame.phases, here], by
          simp [Outcome.next, World.marks_record_ended, here]⟩

end Outcome

namespace Activity

variable {thread : Thread} {world after : World} {activity next : Activity} {number : Nat}

/-- A step of a thread at a stage of an application, at the cache that it is about. -/
private theorem moves_of_progress {cache : Cache} {key : Value} {frames : List Frame}
    {stage : Stage} (present : world.caches[number]? = some cache)
    (stepped : (cache.storage.advance cache.retention thread key stage).progress world number
      cache.underlying key frames = .step after next) :
    ∃ storage marks, after.caches[number]? = some { cache with storage } ∧
      after.marks number = marks ++ world.marks number ∧
      Phase.Moves cache.retention thread cache.storage
        (.applying key stage :: Frame.phases number frames) marks storage
        (next.phases number) := by
  cases moved : cache.storage.advance cache.retention thread key stage with
  | wait => simp [moved, Move.progress] at stepped
  | go storage event stage' =>
      simp only [moved, Move.progress, Progress.step.injEq] at stepped
      obtain ⟨rfl, rfl⟩ := stepped
      refine ⟨storage, [], by simp [World.caches_setStorage, present], by simp, ?_⟩
      simpa using Phase.Moves.go moved
  | compute storage place =>
      simp only [moved, Move.progress, Progress.step.injEq] at stepped
      obtain ⟨rfl, rfl⟩ := stepped
      refine ⟨storage, [.started key], by simp [World.caches_setStorage, present],
        by simp [World.marks_record_started], ?_⟩
      simpa [Frame.phases] using Phase.Moves.compute moved
  | finish storage outcome =>
      simp only [moved, Move.progress, Progress.step.injEq] at stepped
      obtain ⟨rfl, rfl⟩ := stepped
      refine ⟨storage, [], by simp [World.caches_setStorage, present], by simp, ?_⟩
      simpa using Phase.Moves.finish moved

/-- A step of a thread that is counting, at the cache that it counts. -/
private theorem moves_of_count {cache : Cache} {progress : Counting} {frames : List Frame}
    (present : world.caches[number]? = some cache)
    (stepped : (cache.storage.count progress).progress world number frames = .step after next) :
    ∃ storage, after.caches[number]? = some { cache with storage } ∧
      after.marks number = world.marks number ∧
      Phase.Moves cache.retention thread cache.storage
        (.counting progress :: Frame.phases number frames) [] storage (next.phases number) := by
  cases moved : cache.storage.count progress with
  | wait => simp [moved, CountMove.progress] at stepped
  | go storage progress' =>
      simp only [moved, CountMove.progress, Progress.step.injEq] at stepped
      obtain ⟨rfl, rfl⟩ := stepped
      refine ⟨storage, by simp [World.caches_setStorage, present], by simp, ?_⟩
      simpa using Phase.Moves.tally moved
  | finish count =>
      simp only [moved, CountMove.progress, Progress.step.injEq] at stepped
      obtain ⟨rfl, rfl⟩ := stepped
      refine ⟨cache.storage, present, rfl, ?_⟩
      simpa using Phase.Moves.counted moved

/-- A step of a thread at one cache leaves every other cache and the phases there as they are. -/
private theorem apart_of_progress {other : Nat} {move : Move} {underlying : Callable} {key : Value}
    {frames : List Frame} (different : other ≠ number)
    (stepped : move.progress world other underlying key frames = .step after next) :
    after.caches[number]? = world.caches[number]? ∧ after.marks number = world.marks number ∧
      next.phases number = Frame.phases number frames := by
  cases move <;> simp only [Move.progress, Progress.step.injEq, reduceCtorEq] at stepped <;>
    obtain ⟨rfl, rfl⟩ := stepped <;>
    simp [World.caches_setStorage, World.marks_record_started, Frame.phases, different]

private theorem apart_of_count {other : Nat} {move : CountMove} {frames : List Frame}
    (different : other ≠ number)
    (stepped : move.progress world other frames = .step after next) :
    after.caches[number]? = world.caches[number]? ∧ after.marks number = world.marks number ∧
      next.phases number = Frame.phases number frames := by
  cases move <;> simp only [CountMove.progress, Progress.step.injEq, reduceCtorEq] at stepped <;>
    obtain ⟨rfl, rfl⟩ := stepped <;>
    simp [World.caches_setStorage, different]

/-- A step of a thread is a move at every cache. -/
theorem moves_of_next {cache : Cache} (present : world.caches[number]? = some cache)
    (stepped : activity.next thread world = .step after next) :
    ∃ storage marks, after.caches[number]? = some { cache with storage } ∧
      after.marks number = marks ++ world.marks number ∧
      Phase.Moves cache.retention thread cache.storage (activity.phases number) marks storage
        (next.phases number) := by
  obtain ⟨focus, frames⟩ := activity
  cases focus with
  | run computation =>
      simp only [Activity.next, Progress.step.injEq] at stepped
      obtain ⟨rfl, rfl⟩ := stepped
      refine ⟨cache.storage, [], by rw [Computation.caches_next]; exact present,
        Computation.marks_next .., ?_⟩
      rcases Computation.phases_next world frames computation number with same | ⟨key, begun⟩
      · exact same ▸ .stay
      · exact begun ▸ .apply key
  | answer outcome =>
      cases frames with
      | nil => simp [Activity.next] at stepped
      | cons frame frames =>
          simp only [Activity.next, Progress.step.injEq] at stepped
          obtain ⟨rfl, rfl⟩ := stepped
          have kept : (Outcome.next world frames outcome frame).1.caches[number]? = some cache := by
            rw [Outcome.caches_next]
            exact present
          rcases Outcome.phases_next world frames outcome frame number with
            ⟨same, unmarked⟩ | ⟨key, place, rfl, ended, marked⟩
          · exact ⟨cache.storage, [], kept, unmarked, same ▸ .stay⟩
          · refine ⟨cache.storage, [.ended key outcome], kept, marked, ?_⟩
            simpa [Frame.phases, ended] using Phase.Moves.settle outcome
  | applying other key stage =>
      simp only [Activity.next] at stepped
      by_cases here : other = number
      · subst here
        simp only [present] at stepped
        simpa using moves_of_progress present stepped
      · cases found : world.caches[other]? with
        | none => simp [found] at stepped
        | some _ =>
            simp only [found] at stepped
            obtain ⟨same, unmarked, kept⟩ := apart_of_progress here stepped
            refine ⟨cache.storage, [], by rw [same]; exact present, unmarked, ?_⟩
            simpa [here, kept] using Phase.Moves.stay
  | counting other progress =>
      simp only [Activity.next] at stepped
      by_cases here : other = number
      · subst here
        simp only [present] at stepped
        obtain ⟨storage, kept, unmarked, moves⟩ := moves_of_count present stepped
        exact ⟨storage, [], kept, unmarked, by simpa using moves⟩
      · cases found : world.caches[other]? with
        | none => simp [found] at stepped
        | some _ =>
            simp only [found] at stepped
            obtain ⟨same, unmarked, kept⟩ := apart_of_count here stepped
            refine ⟨cache.storage, [], by rw [same]; exact present, unmarked, ?_⟩
            simpa [here, kept] using Phase.Moves.stay

/-- A thread is done when it has an outcome and nothing waits for it. -/
theorem eq_answer_of_next_done {outcome : Outcome}
    (done : activity.next thread world = .done outcome) : activity = ⟨.answer outcome, []⟩ := by
  obtain ⟨focus, frames⟩ := activity
  cases focus with
  | run computation => simp [Activity.next] at done
  | answer other =>
      cases frames with
      | nil =>
          simp only [Activity.next, Progress.done.injEq] at done
          rw [done]
      | cons frame frames => simp [Activity.next] at done
  | applying cache key stage =>
      simp only [Activity.next] at done
      split at done
      · simp at done
      · unfold Move.progress at done
        split at done <;> simp at done
  | counting cache progress =>
      simp only [Activity.next] at done
      split at done
      · simp at done
      · unfold CountMove.progress at done
        split at done <;> simp at done

/-- A thread waits at a cache that does not exist. -/
theorem fresh_of_next (absent : world.caches[number]? = none)
    (stepped : activity.next thread world = .step after next)
    (fresh : ∀ phase ∈ activity.phases number, phase.isFresh = true) :
    after.caches[number]? = none ∧ after.marks number = world.marks number ∧
      ∀ phase ∈ next.phases number, phase.isFresh = true := by
  obtain ⟨focus, frames⟩ := activity
  cases focus with
  | run computation =>
      simp only [Activity.next, Progress.step.injEq] at stepped
      obtain ⟨rfl, rfl⟩ := stepped
      refine ⟨by rw [Computation.caches_next]; exact absent, Computation.marks_next .., ?_⟩
      rcases Computation.phases_next world frames computation number with same | ⟨key, begun⟩
      · simpa [same] using fresh
      · simpa [begun, Phase.isFresh] using fresh
  | answer outcome =>
      cases frames with
      | nil => simp [Activity.next] at stepped
      | cons frame frames =>
          simp only [Activity.next, Progress.step.injEq] at stepped
          obtain ⟨rfl, rfl⟩ := stepped
          refine ⟨by rw [Outcome.caches_next]; exact absent, ?_⟩
          rcases Outcome.phases_next world frames outcome frame number with
            ⟨same, unmarked⟩ | ⟨key, place, rfl, -⟩
          · exact ⟨unmarked, by simpa [same] using fresh⟩
          · simp [Frame.phases, Phase.isFresh] at fresh
  | applying other key stage =>
      simp only [Activity.next] at stepped
      cases found : world.caches[other]? with
      | none => simp [found] at stepped
      | some _ =>
          have different : other ≠ number := fun here => by simp [here, absent] at found
          simp only [found] at stepped
          obtain ⟨same, unmarked, kept⟩ := apart_of_progress different stepped
          refine ⟨by rw [same]; exact absent, unmarked, ?_⟩
          simpa [different, kept] using fresh
  | counting other progress =>
      simp only [Activity.next] at stepped
      cases found : world.caches[other]? with
      | none => simp [found] at stepped
      | some _ =>
          have different : other ≠ number := fun here => by simp [here, absent] at found
          simp only [found] at stepped
          obtain ⟨same, unmarked, kept⟩ := apart_of_count different stepped
          refine ⟨by rw [same]; exact absent, unmarked, ?_⟩
          simpa [different, kept] using fresh

end Activity

namespace Worker

variable {thread : Thread} {world after : World} {worker next : Worker} {number : Nat}

/-- A step of a worker is a move at every cache. -/
theorem moves_of_next {cache : Cache} (present : world.caches[number]? = some cache)
    (stepped : worker.next thread world = some (after, next)) :
    ∃ storage marks, after.caches[number]? = some { cache with storage } ∧
      after.marks number = marks ++ world.marks number ∧
      Phase.Moves cache.retention thread cache.storage (worker.phases number) marks storage
        (next.phases number) := by
  obtain ⟨_ | activity, pending, outcomes⟩ := worker
  · cases pending with
    | nil => simp [Worker.next] at stepped
    | cons task pending =>
        simp only [Worker.next, Option.some.injEq, Prod.mk.injEq] at stepped
        obtain ⟨rfl, rfl⟩ := stepped
        refine ⟨cache.storage, [], present, rfl, ?_⟩
        cases task with
        | run computation => exact .stay
        | count other traversal =>
            by_cases here : other = number
            · simpa [phases, Task.begin, here, Frame.phases] using Phase.Moves.count traversal
            · simpa [phases, Task.begin, here, Frame.phases] using Phase.Moves.stay
  · simp only [Worker.next] at stepped
    cases progress : activity.next thread world with
    | step world' activity' =>
        simp only [progress, Option.some.injEq, Prod.mk.injEq] at stepped
        obtain ⟨rfl, rfl⟩ := stepped
        exact activity.moves_of_next present progress
    | wait => simp [progress] at stepped
    | done outcome =>
        simp only [progress, Option.some.injEq, Prod.mk.injEq] at stepped
        obtain ⟨rfl, rfl⟩ := stepped
        refine ⟨cache.storage, [], present, rfl, ?_⟩
        rw [Activity.eq_answer_of_next_done progress]
        exact .stay

/-- A worker waits at a cache that does not exist. -/
theorem fresh_of_next (absent : world.caches[number]? = none)
    (stepped : worker.next thread world = some (after, next))
    (fresh : ∀ phase ∈ worker.phases number, phase.isFresh = true) :
    after.caches[number]? = none ∧ after.marks number = world.marks number ∧
      ∀ phase ∈ next.phases number, phase.isFresh = true := by
  obtain ⟨_ | activity, pending, outcomes⟩ := worker
  · cases pending with
    | nil => simp [Worker.next] at stepped
    | cons task pending =>
        simp only [Worker.next, Option.some.injEq, Prod.mk.injEq] at stepped
        obtain ⟨rfl, rfl⟩ := stepped
        refine ⟨absent, rfl, ?_⟩
        cases task with
        | run computation => simp [phases, Task.begin, Frame.phases]
        | count other =>
            by_cases here : other = number <;>
              simp [phases, Task.begin, here, Frame.phases, Phase.isFresh]
  · simp only [Worker.next] at stepped
    cases progress : activity.next thread world with
    | step world' activity' =>
        simp only [progress, Option.some.injEq, Prod.mk.injEq] at stepped
        obtain ⟨rfl, rfl⟩ := stepped
        exact activity.fresh_of_next absent progress fresh
    | wait => simp [progress] at stepped
    | done outcome =>
        simp only [progress, Option.some.injEq, Prod.mk.injEq] at stepped
        obtain ⟨rfl, rfl⟩ := stepped
        exact ⟨absent, rfl, by simp [phases]⟩

end Worker

end FunctionValues
