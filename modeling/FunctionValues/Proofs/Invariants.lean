import FunctionValues.Proofs.Strides

/-!
# Invariants of caches

A property of a cache, of what the threads are in the middle of there, and of the runs of its
function, that every step keeps, perhaps as long as something else holds beside it. It is stated and
proved for one cache; `Cache.Invariant.of_happens` is what it says of programs.
-/

namespace FunctionValues

/-- A thread is inside of computations, whatever else it is in the middle of. -/
theorem Worker.inward_phases (worker : Worker) (number : Nat) :
    Cache.Sound.Inward (worker.phases number).tail := by
  obtain ⟨_ | ⟨focus, frames⟩, pending, outcomes⟩ := worker
  · simp [Worker.phases, Cache.Sound.Inward]
  · have inward := Frame.inward_phases number frames
    have within : Cache.Sound.Inward (Frame.phases number frames).tail :=
      fun phase member => inward phase (List.mem_of_mem_tail member)
    cases focus with
    | run computation | answer outcome => exact within
    | applying cache key stage =>
        by_cases here : cache = number
        · simpa [Worker.phases, here] using inward
        · simpa [Worker.phases, here] using within
    | counting cache progress =>
        by_cases here : cache = number
        · simpa [Worker.phases, here] using inward
        · simpa [Worker.phases, here] using within

/-- A cache that was made is empty. -/
theorem World.Makes.empty_of_absent {world after : World} {number : Nat} {cache : Cache}
    (makes : world.Makes after) (absent : world.caches[number]? = none)
    (found : after.caches[number]? = some cache) : ∃ policy, cache.storage = .empty policy := by
  have same : after.caches ≠ world.caches := by
    intro same
    rw [same, absent] at found
    cases found
  cases makes with
  | define name function | create code => exact absurd rfl same
  | memoize policy retention callable =>
      cases callable with
      | memoized other => exact absurd rfl same
      | plain identity code =>
          have beyond := List.getElem?_eq_none_iff.mp absent
          change (world.caches ++ [_])[number]? = _ at found
          rw [List.getElem?_append_right beyond, List.getElem?_singleton] at found
          split at found <;> cases found
          exact ⟨policy, rfl⟩

/-- A property that holds of new caches and that steps keep where another one holds as well. -/
structure Cache.Invariant (beside : Cache → List (List Phase) → Prop)
    (holds : Cache → List (List Phase) → List Mark → Prop) : Prop where
  moves {cache : Cache} {threads : List (List Phase)} {marks added : List Mark} {thread : Thread}
    {phases phases' : List Phase} {after : Storage} (sound : cache.Sound threads marks)
    (before : holds cache threads marks) (along : beside cache threads)
    (inward : Cache.Sound.Inward phases.tail) (present : threads[thread]? = some phases)
    (moves : Phase.Moves cache.retention thread cache.storage phases added after phases') :
    holds { cache with storage := after } (threads.set thread phases') (added ++ marks)
  fresh {cache : Cache} {threads : List (List Phase)} {policy : Policy}
    (empty : cache.storage = .empty policy)
    (idle : ∀ phases ∈ threads, ∀ phase ∈ phases, phase.isFresh = true) : holds cache threads []
  restart {cache : Cache} {threads threads' : List (List Phase)} {marks : List Mark}
    (sound : cache.Sound threads marks) (before : holds cache threads marks)
    (idle : ∀ phases ∈ threads, phases = []) (idle' : ∀ phases ∈ threads', phases = []) :
    holds cache threads' marks

namespace System

/-- A property holds of a cache, if there is one of this number. -/
def Holds (system : System) (number : Nat)
    (holds : Cache → List (List Phase) → List Mark → Prop) : Prop :=
  ∀ cache, system.world.caches[number]? = some cache →
    holds cache (system.phases number) (system.world.marks number)

/-- A program that has done nothing is sound. -/
theorem sound_empty : Sound ⟨{}, []⟩ :=
  Reached.sound (show Reached 0 ⟨{}, []⟩ from .refl)

theorem phases_of_done {world : World} {workers : List Worker}
    (done : ∀ worker ∈ workers, worker.isDone = true) (number : Nat) :
    ∀ phases ∈ System.phases ⟨world, workers⟩ number, phases = [] := by
  intro phases member
  obtain ⟨worker, present, rfl⟩ := List.mem_map.mp member
  have idle := done worker present
  simp only [Worker.isDone, Bool.and_eq_true, Option.isNone_iff_eq_none] at idle
  simp [Worker.phases, idle.1]

theorem phases_ofTasks (world : World) (tasks : List (List Task)) (number : Nat) :
    ∀ phases ∈ (ofTasks world tasks).phases number, phases = [] := by
  intro phases member
  simp only [System.phases, ofTasks, List.map_map, List.mem_map] at member
  obtain ⟨_, _, rfl⟩ := member
  rfl

end System

namespace Cache.Invariant

open FunctionValues.System

variable {beside : Cache → List (List Phase) → Prop}
  {holds : Cache → List (List Phase) → List Mark → Prop} {limit number : Nat}
  {system after : System}

private theorem of_step {thread : Thread} (invariant : Invariant beside holds)
    (sound : system.Sound) (before : system.Holds number holds)
    (along : system.Holds number fun cache threads _ => beside cache threads)
    (stepped : system.step thread = some after) : after.Holds number holds := by
  intro cache' found'
  cases found : system.world.caches[number]? with
  | some cache =>
      obtain ⟨worker, next, world, present, moved, rfl⟩ := step_eq_some stepped
      obtain ⟨storage, added, kept, marked, moves⟩ := Worker.moves_of_next found moved
      rw [kept, Option.some.injEq] at found'
      rw [← found', marked, phases_set]
      exact invariant.moves (sound.present found) (before cache found) (along cache found)
        (worker.inward_phases number) (by simp [present]) moves
  | none =>
      obtain ⟨worker, next, world, present, moved, rfl⟩ := step_eq_some stepped
      have fresh := (sound.absent found).2 (worker.phases number)
        (List.mem_of_getElem? (i := thread) (by simp [System.phases, present]))
      rw [(Worker.fresh_of_next found moved fresh).1] at found'
      cases found'

private theorem of_make {world made : World} {workers : List Worker}
    (invariant : Invariant beside holds) (sound : System.Sound ⟨world, workers⟩)
    (before : System.Holds ⟨world, workers⟩ number holds) (makes : world.Makes made) :
    System.Holds ⟨made, workers⟩ number holds := by
  intro cache found
  have marks : made.marks number = world.marks number := makes.marks
  cases already : world.caches[number]? with
  | some other =>
      rw [makes.caches already, Option.some.injEq] at found
      subst found
      rw [marks]
      exact before other already
  | none =>
      obtain ⟨unmarked, idle⟩ := sound.absent already
      rw [marks, unmarked]
      obtain ⟨policy, empty⟩ := makes.empty_of_absent already found
      exact invariant.fresh empty idle

/-- What happens in a program keeps an invariant of its caches. -/
theorem of_happens (invariant : Invariant beside holds) (sound : system.Sound)
    (before : system.Holds number holds)
    (along : system.Holds number fun cache threads _ => beside cache threads)
    (happens : Happens limit system after) : after.Holds number holds := by
  cases happens with
  | step thread stepped => exact invariant.of_step sound before along stepped
  | make made => exact invariant.of_make sound before made
  | start tasks few done =>
      intro cache found
      exact invariant.restart (sound.present found) (before cache found)
        (phases_of_done done number) (phases_ofTasks _ tasks number)

/-- An invariant holds of every cache as long as what it needs beside it does. -/
theorem of_reaches (invariant : Invariant beside holds) (sound : system.Sound)
    (before : system.Holds number holds)
    (reaches : Relation.ReflTransGen (fun middle next => Happens limit middle next ∧
      middle.Holds number fun cache threads _ => beside cache threads) system after) :
    after.Sound ∧ after.Holds number holds := by
  induction reaches with
  | refl => exact ⟨sound, before⟩
  | tail _ step induction =>
      obtain ⟨happens, along⟩ := step
      exact ⟨induction.1.of_happens happens,
        invariant.of_happens induction.1 induction.2 along happens⟩

/-- An invariant that needs nothing beside it holds of every cache of every reachable system. -/
theorem of_reached (invariant : Invariant (fun _ _ => True) holds) (reached : system.Reached limit) :
    system.Holds number holds := by
  have step : ∀ {middle next : System}, Happens limit middle next → Happens limit middle next ∧
      middle.Holds number fun _ _ _ => True := fun happens => ⟨happens, fun _ _ => trivial⟩
  have along := Relation.ReflTransGen.mono (fun _ _ => step) _ _ reached
  refine (invariant.of_reaches sound_empty ?_ along).2
  intro cache found
  cases found

end Cache.Invariant

end FunctionValues
