import FunctionValues.Proofs.Sound
import Mathlib.Logic.Relation

/-!
# Reachable systems

Everything that can happen to a program: a step of any thread, the making of a function at any
moment, and, when all threads are done, new tasks for any number of threads up to a limit. With a
limit of one these are the runs of a single thread. Every cache of every reachable system is sound.
-/

namespace FunctionValues

/-- Making a function, which runs nothing. -/
inductive World.Makes : World → World → Prop
  | define (world : World) (name : String) (function : FunctionValue) :
      Makes world (world.define name function)
  | create (world : World) (code : Code) : Makes world (world.create code).2
  | memoize (world : World) (policy : Policy) (retention : Retention) (callable : Callable) :
      Makes world (world.memoize policy retention callable).2

namespace System

/-- What can happen next in a program of at most so many threads at a time. -/
inductive Happens (limit : Nat) : System → System → Prop
  | step {system after : System} (thread : Thread) (stepped : system.step thread = some after) :
      Happens limit system after
  | make {world after : World} {workers : List Worker} (made : world.Makes after) :
      Happens limit ⟨world, workers⟩ ⟨after, workers⟩
  | start {world : World} {workers : List Worker} (tasks : List (List Task))
      (few : tasks.length ≤ limit) (done : ∀ worker ∈ workers, worker.isDone = true) :
      Happens limit ⟨world, workers⟩ (ofTasks world tasks)

/-- What can happen in the end. -/
abbrev Reaches (limit : Nat) : System → System → Prop :=
  Relation.ReflTransGen (Happens limit)

/-- The systems that a program of at most so many threads at a time can come to. -/
def Reached (limit : Nat) (system : System) : Prop :=
  Reaches limit ⟨{}, []⟩ system

/-- Let threads make steps in a given order. -/
def follow (system : System) : List Thread → Option System
  | [] => some system
  | thread :: threads => do follow (← system.step thread) threads

theorem Reaches.of_follow {limit : Nat} {threads : List Thread} {system after : System}
    (followed : system.follow threads = some after) : Reaches limit system after := by
  induction threads generalizing system with
  | nil =>
      obtain rfl : system = after := Option.some.inj followed
      exact .refl
  | cons thread threads induction =>
      simp only [follow, Option.bind_eq_bind, Option.bind_eq_some_iff] at followed
      obtain ⟨middle, stepped, rest⟩ := followed
      exact .head (.step thread stepped) (induction rest)

/-- No more threads are at work than the limit allows. -/
theorem Reached.length_le {limit : Nat} {system : System} (reached : system.Reached limit) :
    system.workers.length ≤ limit := by
  induction reached with
  | refl => exact Nat.zero_le _
  | tail _ happens induction =>
      cases happens with
      | step thread stepped =>
          simp only [step, Option.bind_eq_bind, Option.bind_eq_some_iff, Option.some.injEq,
            Prod.exists] at stepped
          obtain ⟨worker, found, world, next, moved, rfl⟩ := stepped
          simpa using induction
      | make made => exact induction
      | start tasks few done => simpa [ofTasks] using few

/-- Every cache is sound, and nobody has done anything at a cache that does not exist. -/
structure Sound (system : System) : Prop where
  present {number : Nat} {cache : Cache} (found : system.world.caches[number]? = some cache) :
    cache.Sound (system.phases number) (system.world.marks number)
  absent {number : Nat} (missing : system.world.caches[number]? = none) :
    system.world.marks number = [] ∧
      ∀ phases ∈ system.phases number, ∀ phase ∈ phases, phase.isFresh = true

theorem step_eq_some {system after : System} {thread : Thread}
    (stepped : system.step thread = some after) :
    ∃ worker next world, system.workers[thread]? = some worker ∧
      worker.next thread system.world = some (world, next) ∧
      after = ⟨world, system.workers.set thread next⟩ := by
  simp only [step, Option.bind_eq_bind, Option.bind_eq_some_iff, Option.some.injEq,
    Prod.exists] at stepped
  obtain ⟨worker, found, world, next, moved, rfl⟩ := stepped
  exact ⟨worker, next, world, found, moved, rfl⟩

theorem phases_set (world : World) (workers : List Worker) (thread : Thread) (next : Worker)
    (number : Nat) :
    (⟨world, workers.set thread next⟩ : System).phases number =
      ((workers.map (·.phases number)).set thread (next.phases number)) := by
  simp [phases, List.map_set]

/-- A step of a thread is a move at every cache, beside which the log stays as it is. -/
theorem moves_of_step {system after : System} {thread : Thread} {number : Nat} {cache : Cache}
    (stepped : system.step thread = some after)
    (found : system.world.caches[number]? = some cache) :
    ∃ phases phases' storage added, (system.phases number)[thread]? = some phases ∧
      after.world.caches[number]? = some { cache with storage } ∧
      after.world.marks number = added ++ system.world.marks number ∧
      after.phases number = (system.phases number).set thread phases' ∧
      Phase.Moves cache.retention thread cache.storage phases added storage phases' := by
  obtain ⟨worker, next, world, present, moved, rfl⟩ := step_eq_some stepped
  obtain ⟨storage, added, kept, marked, moves⟩ := Worker.moves_of_next found moved
  exact ⟨worker.phases number, next.phases number, storage, added, by simp [phases, present], kept,
    marked, phases_set .., moves⟩

namespace Sound

variable {system after : System}

theorem of_step {thread : Thread} (sound : system.Sound)
    (stepped : system.step thread = some after) : after.Sound := by
  constructor
  · intro number cache found
    cases before : system.world.caches[number]? with
    | some cache' =>
        obtain ⟨phases, phases', storage, added, present, kept, marked, moved, moves⟩ :=
          moves_of_step stepped before
        rw [kept, Option.some.injEq] at found
        rw [← found, marked, moved]
        exact (sound.present before).moves present moves
    | none =>
        obtain ⟨worker, next, world, present, moved, rfl⟩ := step_eq_some stepped
        have fresh := (sound.absent before).2 (worker.phases number)
          (List.mem_of_getElem? (i := thread) (by simp [phases, present]))
        have still := (Worker.fresh_of_next before moved fresh).1
        rw [still] at found
        cases found
  · intro number missing
    obtain ⟨worker, next, world, present, moved, rfl⟩ := step_eq_some stepped
    cases before : system.world.caches[number]? with
    | some cache =>
        obtain ⟨storage, added, kept, -⟩ := Worker.moves_of_next before moved
        rw [kept] at missing
        cases missing
    | none =>
        obtain ⟨unmarked, idle⟩ := sound.absent before
        have fresh := idle (worker.phases number)
          (List.mem_of_getElem? (i := thread) (by simp [phases, present]))
        obtain ⟨-, marked, now⟩ := Worker.fresh_of_next before moved fresh
        refine ⟨marked.trans unmarked, ?_⟩
        rw [phases_set]
        intro phases member
        rcases List.mem_or_eq_of_mem_set member with member | rfl
        · exact idle phases member
        · exact now

theorem of_make {world after : World} {workers : List Worker}
    (sound : System.Sound ⟨world, workers⟩) (made : world.Makes after) :
    System.Sound ⟨after, workers⟩ := by
  cases made with
  | define name function => exact ⟨sound.present, sound.absent⟩
  | create code => exact ⟨sound.present, sound.absent⟩
  | memoize policy retention callable =>
      cases callable with
      | memoized cache => exact sound
      | plain identity code =>
          have caches : (world.memoize policy retention (.plain identity code)).2.caches =
              world.caches ++ [⟨.plain identity code, retention, .empty policy⟩] := rfl
          have marks : ∀ number, (world.memoize policy retention (.plain identity code)).2.marks
              number = world.marks number := fun _ => rfl
          constructor
          · intro number cache found
            rw [marks]
            rw [caches, List.getElem?_append] at found
            split at found
            · exact sound.present found
            next beyond =>
              obtain ⟨unmarked, idle⟩ := sound.absent
                (List.getElem?_eq_none (Nat.le_of_not_lt beyond))
              have empty : cache.storage = .empty policy := by
                rw [List.getElem?_singleton] at found
                split at found <;> cases found
                rfl
              rw [unmarked]
              exact .of_idle empty idle
          · intro number missing
            rw [marks]
            refine sound.absent (List.getElem?_eq_none ?_)
            have beyond := List.getElem?_eq_none_iff.mp missing
            rw [caches, List.length_append] at beyond
            exact Nat.le_trans (Nat.le_add_right ..) beyond

theorem of_start {world : World} {workers : List Worker} (sound : System.Sound ⟨world, workers⟩)
    (tasks : List (List Task)) (done : ∀ worker ∈ workers, worker.isDone = true) :
    (ofTasks world tasks).Sound := by
  have idle : ∀ number, ∀ phases ∈ System.phases ⟨world, workers⟩ number, phases = [] := by
    intro number phases member
    obtain ⟨worker, present, rfl⟩ := List.mem_map.mp member
    have none : worker.current = none := by
      have idle := done worker present
      simp only [Worker.isDone, Bool.and_eq_true, Option.isNone_iff_eq_none] at idle
      exact idle.1
    simp [Worker.phases, none]
  have begun : ∀ number, ∀ phases ∈ (ofTasks world tasks).phases number, phases = [] := by
    intro number phases member
    simp only [System.phases, ofTasks, List.map_map, List.mem_map] at member
    obtain ⟨_, _, rfl⟩ := member
    rfl
  constructor
  · intro number cache found
    exact (sound.present found).restart (idle number) (begun number)
  · intro number missing
    refine ⟨(sound.absent missing).1, ?_⟩
    intro phases member phase inside
    rw [begun number phases member] at inside
    cases inside

theorem of_happens {limit : Nat} (sound : system.Sound) (happens : Happens limit system after) :
    after.Sound := by
  cases happens with
  | step thread stepped => exact sound.of_step stepped
  | make made => exact sound.of_make made
  | start tasks _ done => exact sound.of_start tasks done

theorem of_reaches {limit : Nat} (sound : system.Sound) (reaches : Reaches limit system after) :
    after.Sound := by
  induction reaches with
  | refl => exact sound
  | tail _ happens induction => exact induction.of_happens happens

end Sound

/-- Every cache of every reachable system is sound. -/
theorem Reached.sound {limit : Nat} {system : System} (reached : system.Reached limit) :
    system.Sound := by
  refine Sound.of_reaches ⟨?_, ?_⟩ reached
  · intro number cache found
    cases found
  · intro number _
    exact ⟨rfl, by simp [phases]⟩

/-! ## Properties along the way -/

section Along

variable {limit : Nat} {system after : System} {holds : System → Prop}

/-- A property holds after each step, if threads make steps in this order. -/
def Along (holds : System → Prop) : System → List Thread → Prop
  | _, [] => True
  | system, thread :: threads =>
    ∀ after ∈ system.step thread, holds after ∧ Along holds after threads

instance decidableAlong [DecidablePred holds] :
    (system : System) → (threads : List Thread) → Decidable (Along holds system threads)
  | _, [] => isTrue trivial
  | system, thread :: threads =>
    have (after : System) : Decidable (Along holds after threads) := decidableAlong after threads
    inferInstanceAs (Decidable (∀ after ∈ system.step thread, holds after ∧ Along holds after threads))

/-- What holds along an order in which threads make steps holds after everything that happens. -/
theorem reaches_along {threads : List Thread} (followed : system.follow threads = some after)
    (along : Along holds system threads) :
    Relation.ReflTransGen (fun middle next => Happens limit middle next ∧ holds next)
      system after := by
  induction threads generalizing system with
  | nil =>
      obtain rfl : system = after := Option.some.inj followed
      exact .refl
  | cons thread threads induction =>
      simp only [follow, Option.bind_eq_bind, Option.bind_eq_some_iff] at followed
      obtain ⟨middle, stepped, rest⟩ := followed
      obtain ⟨first, along⟩ := along middle stepped
      exact .head ⟨.step thread stepped, first⟩ (induction rest along)

/-- What holds at the beginning and after everything that happens holds before it, and at the end. -/
theorem holds_before (first : holds system)
    (reaches : Relation.ReflTransGen (fun middle next => Happens limit middle next ∧ holds next)
      system after) :
    Relation.ReflTransGen (fun middle next => Happens limit middle next ∧ holds middle)
      system after ∧ holds after := by
  induction reaches with
  | refl => exact ⟨.refl, first⟩
  | tail _ step induction => exact ⟨.tail induction.1 ⟨step.1, induction.2⟩, step.2⟩

end Along

/-! ## A program -/

/-- Threads that each apply the memoized identity to the same argument. -/
def identities (policy : Policy) (threads : Nat) : System :=
  ofTasks (World.memoize {} policy .all (.plain 0 Code.identity)).2
    (List.replicate threads [.run (.apply (.memoized 0) (.int 1))])

theorem reached_identities (policy : Policy) (threads : Nat) :
    (identities policy threads).Reached threads := by
  have made : Happens threads ⟨{}, []⟩
      ⟨(World.memoize {} policy .all (.plain 0 Code.identity)).2, []⟩ := .make (.memoize ..)
  have started : Happens threads
      ⟨(World.memoize {} policy .all (.plain 0 Code.identity)).2, []⟩
      (identities policy threads) := .start _ (by simp) (by simp)
  exact .head made (.single started)

/-- Threads that each apply a memoized function to some arguments. -/
def callers (policy : Policy) (code : Code) (arguments : List (List Value)) : System :=
  ofTasks (World.memoize {} policy .all (.plain 0 code)).2
    (arguments.map (·.map fun argument => .run (.apply (.memoized 0) argument)))

theorem reached_callers (policy : Policy) (code : Code) (arguments : List (List Value)) :
    (callers policy code arguments).Reached arguments.length := by
  have made : Happens arguments.length ⟨{}, []⟩
      ⟨(World.memoize {} policy .all (.plain 0 code)).2, []⟩ := .make (.memoize ..)
  have started : Happens arguments.length
      ⟨(World.memoize {} policy .all (.plain 0 code)).2, []⟩
      (callers policy code arguments) := .start _ (by simp) (by simp)
  exact .head made (.single started)

/-- Code that fails when it runs for the first time. -/
def faltering : Code := fun argument =>
  .bind .tick fun
    | .ok (.int count) => if 0 < count then .value argument else .raise "no result"
    | _ => .value argument

end System

end FunctionValues
