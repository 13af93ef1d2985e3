import FunctionValues.Proofs.InnerRuns
import FunctionValues.Proofs.Requests

/-!
# Which caches an evaluation changes

What a cache has stored changes only where an application of its own function stores a result for an
equal argument, and the log tells of that. The thread that makes the change has begun the application
inside of whatever it evaluates.
-/

namespace FunctionValues

/-- A step that changes what is stored in a cache is one of an application of its function. -/
theorem Activity.stores_of_next {thread : Thread} {world after : World} {activity next : Activity}
    {number : Nat} {before now : Cache} {key : Value} {threads : List (List Phase)}
    {marks : List Mark} (sound : before.Sound threads marks)
    (present : threads[thread]? = some (activity.phases number))
    (found : world.caches[number]? = some before) (found' : after.caches[number]? = some now)
    (changed : now.storage.stored? key ≠ before.storage.stored? key)
    (stepped : activity.next thread world = .step after next) :
    ∃ argument stage count, activity.focus = .applying number argument stage ∧
      argument.same key = true ∧
      after.log = .event number (some argument) (.stored count) :: world.log := by
  by_cases applies : ∃ argument stage, activity.focus = .applying number argument stage
  · obtain ⟨argument, stage, focus⟩ := applies
    obtain ⟨_, frames⟩ := activity
    obtain rfl : _ = Focus.applying number argument stage := focus
    have member : Phase.applying argument stage ∈ threads.getD thread [] := by simp [present]
    simp only [Activity.next, found] at stepped
    cases moved : before.storage.advance before.retention thread argument stage with
    | wait => simp [moved, Move.progress] at stepped
    | go storage event following =>
        rw [moved] at stepped
        cases stepped
        obtain rfl : now = { before with storage := storage } := by
          simpa [World.caches_setStorage, found] using found'.symm
        by_cases keeps : ∃ place outcome, stage = .keep place outcome
        · obtain ⟨place, outcome, rfl⟩ := keeps
          cases Storage.goes_of_go moved with
          | @stored result place keeps =>
              refine ⟨argument, _, _, rfl, ?_, rfl⟩
              by_contra different
              refine changed ((sound.stored?_insert member rfl key).trans ?_)
              rw [if_neg different]
          | notRetained | failed => exact absurd rfl changed
          | passed place outcome flat cleans =>
              rcases cleans with same | same | same | same <;> cases same
        · push Not at keeps
          exact absurd ((sound.agrees_of_go member keeps moved).stored key) changed
    | compute storage place =>
        rw [moved] at stepped
        cases stepped
        obtain ⟨rfl, rfl⟩ := Storage.eq_start_of_compute moved
        obtain rfl : now = { before with storage := _ } := by
          simpa [World.caches_setStorage, found] using found'.symm
        have agrees := Storage.Agrees.of_modifyLatch before.storage place
          ({ · with owner := some thread })
        exact absurd (agrees.stored key) changed
    | finish storage outcome =>
        rw [moved] at stepped
        cases stepped
        obtain ⟨place, rfl, dropped⟩ := Storage.eq_drop_of_finish moved
        obtain rfl : now = { before with storage := storage } := by
          simpa [World.caches_setStorage, found] using found'.symm
        exact absurd ((Storage.Agrees.of_drop dropped).stored key) changed
  · simp only [not_exists] at applies
    obtain ⟨storage, kept, agrees⟩ := Activity.agrees_of_next found applies stepped
    obtain rfl := Option.some.inj (found'.symm.trans kept)
    exact absurd (agrees.stored key) changed

namespace System

variable {limit number : Nat} {thread : Thread} {system middle after : System} {before now : Cache}
  {key : Value} {frames : List Frame}

/-- A step of a thread that changes what is stored in a cache is one of an application of its
function. -/
theorem stores_of_step (reached : system.Reached limit) (stepped : system.step thread = some after)
    (found : system.world.caches[number]? = some before)
    (found' : after.world.caches[number]? = some now)
    (changed : now.storage.stored? key ≠ before.storage.stored? key) :
    ∃ argument stage frames count, system.At thread ⟨.applying number argument stage, frames⟩ ∧
      argument.same key = true ∧
      after.world.log = .event number (some argument) (.stored count) :: system.world.log := by
  obtain ⟨⟨current, pending, outcomes⟩, worker, world, present, moved, rfl⟩ := step_eq_some stepped
  have same : world ≠ system.world := by
    rintro rfl
    cases found.symm.trans found'
    exact changed rfl
  cases current with
  | none =>
      cases pending <;> cases moved
      exact absurd rfl same
  | some activity =>
      have phases : (system.phases number)[thread]? = some (activity.phases number) := by
        simp [System.phases, present, Worker.phases]
      simp only [Worker.next] at moved
      split at moved <;> cases moved
      next progress =>
        obtain ⟨argument, stage, count, focus, equal, log⟩ := Activity.stores_of_next
          (reached.sound.present found) phases found found' changed progress
        obtain ⟨_, frames⟩ := activity
        obtain rfl : _ = Focus.applying number argument stage := focus
        exact ⟨argument, stage, frames, count, ⟨_, present, rfl⟩, equal, log⟩
      next => exact absurd rfl same

/-- What changes in a cache while a computation is evaluated was stored by an application of its
function to an equal argument, which began during the evaluation. -/
theorem During.applied {computation : Computation} (reached : system.Reached limit)
    (begun : system.At thread ⟨.run computation, frames⟩)
    (during : During limit thread frames system middle)
    (stepped : middle.step thread = some after)
    (found : middle.world.caches[number]? = some before)
    (found' : after.world.caches[number]? = some now)
    (changed : now.storage.stored? key ≠ before.storage.stored? key) :
    ∃ argument inner applied, argument.same key = true ∧
      During limit thread frames system applied ∧
      applied.At thread ⟨.run (.apply (.memoized number) argument), inner ++ frames⟩ ∧
      During limit thread (inner ++ frames) applied middle := by
  have reached' : middle.Reached limit :=
    Relation.ReflTransGen.trans reached (During.reaches during)
  obtain ⟨argument, stage, around, count, at', equal, -⟩ :=
    stores_of_step reached' stepped found found' changed
  obtain ⟨inner, rfl⟩ : ∃ inner, around = inner ++ frames := by
    rcases during.cases_tail with same | ⟨_, _, _, focus, inner, there⟩
    · cases (same ▸ begun).unique at'
    · exact ⟨inner, (congrArg Activity.frames (there.unique at')).symm⟩
  have within : middle.In thread number argument (inner ++ frames) := .inl ⟨stage, at'⟩
  obtain ⟨applied, earlier, applies, onward⟩ := within.begun begun during
  exact ⟨argument, inner, applied, equal, earlier, applies, onward⟩

/-- What has changed in a cache was stored by an application of its function to an equal argument,
of which the log tells. -/
theorem Reaches.stored_of_changed (reached : system.Reached limit)
    (reaches : Reaches limit system after) (found : system.world.caches[number]? = some before)
    (found' : after.world.caches[number]? = some now)
    (changed : now.storage.stored? key ≠ before.storage.stored? key) :
    ∃ argument count added, argument.same key = true ∧
      after.world.log = added ++ system.world.log ∧
      .event number (some argument) (.stored count) ∈ added := by
  induction reaches generalizing now with
  | refl =>
      cases found.symm.trans found'
      exact absurd rfl changed
  | @tail middle after earlier happens induction =>
      obtain ⟨storage, kept, -⟩ := Reaches.caches earlier found
      have reached' : middle.Reached limit := Relation.ReflTransGen.trans reached earlier
      by_cases here : storage.stored? key = before.storage.stored? key
      · obtain ⟨middleAdded, log⟩ := Reaches.log earlier
        have changed' : now.storage.stored? key ≠ storage.stored? key := here ▸ changed
        cases happens with
        | step thread stepped =>
            obtain ⟨argument, stage, frames, count, -, equal, log'⟩ :=
              stores_of_step reached' stepped kept found' changed'
            exact ⟨argument, count, _ :: middleAdded, equal, by rw [log', ← log]; rfl,
              List.mem_cons_self⟩
        | make makes =>
            cases (makes.caches kept).symm.trans found'
            exact absurd rfl changed'
        | start tasks few done =>
            cases kept.symm.trans found'
            exact absurd rfl changed'
      · obtain ⟨argument, count, added, equal, log, stored⟩ := induction kept here
        obtain ⟨later, log'⟩ := happens.log
        exact ⟨argument, count, later ++ added, equal, by rw [← log', log, List.append_assoc],
          List.mem_append_right _ stored⟩

end System

end FunctionValues
