import FunctionValues.Proofs.Applications
import FunctionValues.Proofs.Vacancies

/-!
# Timelines

The systems that a program comes through, one after another. Beside what can happen in a program
otherwise, a thread that runs code may stop there to count the results of any cache, and then go on
with any code that is given the number; so it need not be at leisure to count. At every instant of a
timeline all caches are sound, and what steps keep of a cache holds of it.
-/

namespace FunctionValues

namespace System

/-- What can happen next in a program whose code may count the results of caches. -/
inductive Occurs (limit : Nat) : System → System → Prop
  | happens {system after : System} (happens : Happens limit system after) :
      Occurs limit system after
  /-- A thread that runs code begins to count the results of a cache. -/
  | ask {world : World} {workers : List Worker} {thread : Thread} {computation : Computation}
      {frames : List Frame} {pending : List Task} {outcomes : List Outcome} (number : Nat)
      (traversal : Traversal) (next : Reply → Computation)
      (present : workers[thread]? = some ⟨some ⟨.run computation, frames⟩, pending, outcomes⟩) :
      Occurs limit ⟨world, workers⟩
        ⟨world, workers.set thread
          ⟨some ⟨.counting number (.collect traversal), .bind next :: frames⟩, pending, outcomes⟩⟩

variable {limit number : Nat} {system after : System} {thread : Thread} {cache : Cache}

/-- To begin to count is a move at every cache. -/
private theorem moves_of_ask (retention : Retention) (storage : Storage) (computation : Computation)
    (frames : List Frame) (pending : List Task) (outcomes : List Outcome) (asked number : Nat)
    (traversal : Traversal) (next : Reply → Computation) :
    Phase.Moves retention thread storage
      (Worker.phases number ⟨some ⟨.run computation, frames⟩, pending, outcomes⟩) [] storage
      (Worker.phases number
        ⟨some ⟨.counting asked (.collect traversal), .bind next :: frames⟩, pending, outcomes⟩) := by
  simp only [Worker.phases, Option.map_some, Option.getD_some, Activity.phases_run,
    Activity.phases_counting]
  split
  · exact .count traversal
  · exact .stay

/-- What occurs at a cache is a move of some thread, or leaves the cache and the phases there as
they are, or no thread was in the middle of anything. -/
theorem Occurs.moves (occurs : Occurs limit system after)
    (found : system.world.caches[number]? = some cache) :
    (∃ thread phases phases' storage added, (system.phases number)[thread]? = some phases ∧
      after.world.caches[number]? = some { cache with storage } ∧
      after.phases number = (system.phases number).set thread phases' ∧
      Phase.Moves cache.retention thread cache.storage phases added storage phases') ∨
    after.world.caches[number]? = some cache ∧ (after.phases number = system.phases number ∨
      ∀ worker ∈ system.workers, worker.isDone = true) := by
  cases occurs with
  | happens happens =>
      cases happens with
      | step thread stepped =>
          obtain ⟨phases, phases', storage, added, present, kept, -, moved, moves⟩ :=
            moves_of_step stepped found
          exact .inl ⟨thread, phases, phases', storage, added, present, kept, moved, moves⟩
      | make made => exact .inr ⟨made.caches found, .inl rfl⟩
      | start tasks few done => exact .inr ⟨found, .inr done⟩
  | @ask world workers thread computation frames pending outcomes asked traversal next present =>
      refine .inl ⟨thread, _, _, cache.storage, [], ?_, found, phases_set ..,
        moves_of_ask cache.retention cache.storage computation frames pending outcomes asked number
          traversal next⟩
      simp only [phases, List.getElem?_map, present, Option.map_some]

theorem Sound.of_occurs (sound : system.Sound) (occurs : Occurs limit system after) :
    after.Sound := by
  cases occurs with
  | happens happens => exact sound.of_happens happens
  | @ask world workers thread computation frames pending outcomes asked traversal next present =>
      constructor
      · intro number cache found
        rw [phases_set]
        refine (sound.present found).moves ?_ (moves_of_ask cache.retention cache.storage
          computation frames pending outcomes asked number traversal next)
        simp only [phases, List.getElem?_map, present, Option.map_some]
      · intro number missing
        obtain ⟨unmarked, idle⟩ := sound.absent missing
        have fresh := idle
          (Worker.phases number ⟨some ⟨.run computation, frames⟩, pending, outcomes⟩)
          (List.mem_of_getElem? (i := thread) (by simp [phases, present]))
        refine ⟨unmarked, ?_⟩
        rw [phases_set]
        intro phases member
        rcases List.mem_or_eq_of_mem_set member with member | rfl
        · exact idle phases member
        · simp only [Worker.phases, Option.map_some, Option.getD_some, Activity.phases_run,
            Activity.phases_counting] at fresh ⊢
          split
          · simpa [Phase.isFresh, Frame.phases] using fresh
          · simpa [Frame.phases] using fresh

theorem Occurs.caches (occurs : Occurs limit system after)
    (found : system.world.caches[number]? = some cache) :
    ∃ storage, after.world.caches[number]? = some { cache with storage } ∧
      storage.policy = cache.storage.policy := by
  cases occurs with
  | happens happens => exact happens.caches found
  | ask => exact ⟨cache.storage, found, rfl⟩

/-- What occurs is a step of a thread that is in the middle of a task and runs no code, or leaves it
there. -/
theorem At.of_occurs {focus : Focus} {frames : List Frame}
    (at' : system.At thread ⟨focus, frames⟩) (busy : ∀ computation, focus ≠ .run computation)
    (occurs : Occurs limit system after) :
    system.step thread = some after ∨ after.At thread ⟨focus, frames⟩ := by
  cases occurs with
  | happens happens => exact at'.of_happens happens
  | @ask world workers other computation inner pending outcomes asked traversal next present =>
      right
      obtain ⟨worker, here, current⟩ := at'
      have different : other ≠ thread := by
        rintro rfl
        obtain rfl : _ = worker := Option.some.inj (present.symm.trans here)
        cases current
        exact busy computation rfl
      exact ⟨worker, by rw [List.getElem?_set_ne different, here], current⟩

/-- A thread that makes a step at a cache finds it. -/
theorem At.cache_of_step {focus : Focus} {frames : List Frame}
    (at' : system.At thread ⟨focus, frames⟩)
    (there : (∃ key stage, focus = .applying number key stage) ∨
      ∃ counting, focus = .counting number counting)
    (stepped : system.step thread = some after) :
    ∃ cache, system.world.caches[number]? = some cache := by
  cases found : system.world.caches[number]? with
  | some cache => exact ⟨cache, rfl⟩
  | none =>
      have waits : Activity.next thread system.world ⟨focus, frames⟩ = .wait := by
        rcases there with ⟨key, stage, rfl⟩ | ⟨counting, rfl⟩ <;> simp only [Activity.next, found]
      rw [at'.step_of_wait waits] at stepped
      cases stepped

end System

/-- An invariant that needs nothing beside it is kept by whatever occurs. -/
theorem Cache.Invariant.of_occurs {holds : Cache → List (List Phase) → List Mark → Prop}
    {limit number : Nat} {system after : System}
    (invariant : Cache.Invariant (fun _ _ => True) holds) (sound : system.Sound)
    (before : system.Holds number holds) (occurs : System.Occurs limit system after) :
    after.Holds number holds := by
  cases occurs with
  | happens happens => exact invariant.of_happens sound before (fun _ _ => trivial) happens
  | @ask world workers thread computation frames pending outcomes asked traversal next present =>
      intro cache found
      rw [System.phases_set]
      refine invariant.moves (sound.present found) (before cache found) trivial
        (Worker.inward_phases ⟨some ⟨.run computation, frames⟩, pending, outcomes⟩ number) ?_
        (System.moves_of_ask cache.retention cache.storage computation frames pending outcomes asked
          number traversal next)
      simp only [System.phases, List.getElem?_map, present, Option.map_some]

namespace System

/-! ## Instants -/

/-- The systems that a program comes through, up to the last instant. -/
structure IsTimeline (limit : Nat) (line : Nat → System) (last : Nat) : Prop where
  reached : (line 0).Reached limit
  occurs {instant : Nat} (before : instant < last) :
    Occurs limit (line instant) (line (instant + 1))

namespace IsTimeline

variable {limit last instant number : Nat} {line : Nat → System}

theorem sound (timeline : IsTimeline limit line last) (within : instant ≤ last) :
    (line instant).Sound := by
  induction instant with
  | zero => exact timeline.reached.sound
  | succ instant induction =>
      exact (induction (Nat.le_of_succ_le within)).of_occurs (timeline.occurs within)

/-- An invariant that needs nothing beside it holds of every cache at every instant. -/
theorem holds {holds : Cache → List (List Phase) → List Mark → Prop}
    (timeline : IsTimeline limit line last) (invariant : Cache.Invariant (fun _ _ => True) holds)
    (within : instant ≤ last) : (line instant).Holds number holds := by
  induction instant with
  | zero => exact invariant.of_reached timeline.reached
  | succ instant induction =>
      have earlier := Nat.le_of_succ_le within
      exact invariant.of_occurs (timeline.sound earlier) (induction earlier)
        (timeline.occurs within)

theorem upto (timeline : IsTimeline limit line last) (within : instant ≤ last) :
    IsTimeline limit line instant :=
  ⟨timeline.reached, fun before => timeline.occurs (Nat.lt_of_lt_of_le before within)⟩

end IsTimeline

/-- Every system that a program can come to is the last one of a timeline from its beginning. -/
theorem Reached.exists_timeline {limit : Nat} {system : System} (reached : system.Reached limit) :
    ∃ line last, IsTimeline limit line last ∧ line 0 = ⟨{}, []⟩ ∧ line last = system := by
  induction reached with
  | refl =>
      exact ⟨fun _ => ⟨{}, []⟩, 0, ⟨.refl, fun before => absurd before (Nat.not_lt_zero _)⟩, rfl, rfl⟩
  | @tail middle after reaches happens induction =>
      obtain ⟨line, last, timeline, began, rfl⟩ := induction
      refine ⟨fun instant => if instant ≤ last then line instant else after, last + 1,
        ⟨by simpa using timeline.reached, fun {instant} before => ?_⟩, by simpa using began,
        by simp⟩
      rcases Nat.lt_or_eq_of_le (Nat.le_of_lt_succ before) with earlier | rfl
      · simpa [Nat.le_of_lt earlier, Nat.succ_le_of_lt earlier] using timeline.occurs earlier
      · simpa [Nat.not_succ_le_self instant] using Occurs.happens happens

/-- The system that a schedule has led to at an instant. -/
def line (system : System) : List Thread → Nat → System
  | [], _ | _ :: _, 0 => system
  | thread :: schedule, instant + 1 =>
    match system.step thread with
    | none => system
    | some after => after.line schedule instant

theorem step_line {system : System} {schedule : List Thread} {instant : Nat}
    (followed : (system.follow schedule).isSome = true) (before : instant < schedule.length) :
    (system.line schedule instant).step schedule[instant] =
      some (system.line schedule (instant + 1)) := by
  induction schedule generalizing system instant with
  | nil => cases before
  | cons thread schedule induction =>
      cases stepped : system.step thread with
      | none => simp [follow, stepped] at followed
      | some after =>
          cases instant with
          | zero => cases schedule <;> simp [line, stepped]
          | succ instant =>
              have rest : (after.follow schedule).isSome = true := by
                simpa [follow, stepped] using followed
              simpa [line, stepped] using induction rest (Nat.lt_of_succ_lt_succ before)

/-- A schedule that can be followed gives a timeline. -/
theorem isTimeline_line {schedule : List Thread} {limit : Nat} {system : System}
    (reached : system.Reached limit) (followed : (system.follow schedule).isSome = true) :
    IsTimeline limit (system.line schedule) schedule.length :=
  ⟨by cases schedule <;> exact reached,
    fun before => .happens (.step _ (step_line followed before))⟩

end System

end FunctionValues
