import FunctionValues.Proofs.Enclosure
import FunctionValues.Proofs.Provenance
import FunctionValues.Proofs.Reentry
import FunctionValues.Proofs.Standings

/-!
# What applications come back with

An application comes back with one of three things: with the failure of a refusal, with a result that
was stored, or with what the function ended with when it was run for the argument. This holds in
every program, whatever other threads do and whatever functions are made during the application. So
a result that the cache does not keep is what a run ended with.
-/

namespace FunctionValues

/-- The outcome that an application is to come back with, once there is one. -/
def Stage.outcome? : Stage → Option Outcome
  | settle _ outcome | keep _ outcome => some outcome
  | stage => stage.ending?

namespace Storage

variable {storage after : Storage} {retention : Retention} {thread : Thread} {key : Value}
  {stage next : Stage} {event : Option Event} {outcome : Outcome}

/-- An application that has an outcome goes on with it. -/
theorem outcome?_of_go (known : stage.outcome? = some outcome)
    (moved : storage.advance retention thread key stage = .go after event next) :
    next.outcome? = some outcome := by
  have late : ∀ stage : Stage, stage.ending? = some outcome → stage.outcome? = some outcome := by
    intro stage ends
    cases stage <;> first | exact ends | cases ends
  cases stage with
  | seek | check place | lock place | look place | start place => cases known
  | settle place reached =>
      cases moved
      exact known
  | keep place reached =>
      simp only [advance, keep] at moved
      split at moved
      · split at moved <;> cases moved <;> exact known
      · cases moved
        exact known
  | unlock place reached vacant | enter place reached | inspect place reached
  | clear place reached | leave place reached | drop place reached =>
      simp only [Stage.outcome?] at known
      exact late next (ending?_of_go known moved).1

/-- An application without an outcome gets one where it is refused, or where it finds a result. -/
theorem outcome?_of_first (unknown : stage.outcome? = none)
    (moved : storage.advance retention thread key stage = .go after event next) :
    next.outcome? = none ∨
      (∃ place, stage = .check place ∧ event = some (.reentryRejected storage.policy) ∧
        next.outcome? = some (.error (.reentered storage.policy))) ∨
      ∃ place result, stage = .look place ∧ storage.find? place key = some result ∧
        event = some (.hit storage.policy) ∧ next.outcome? = some (.ok result) := by
  cases goes_of_go moved with
  | sought found | admitted unowned | latched free | missed missing => exact .inl rfl
  | refused owned => exact .inr (.inl ⟨_, rfl, rfl, rfl⟩)
  | hit found => exact .inr (.inr ⟨_, _, rfl, found, rfl, rfl⟩)
  | passed place outcome flat cleans => rcases cleans with rfl | rfl | rfl | rfl <;> cases unknown
  | _ => cases unknown

end Storage

namespace System

variable {limit : Nat} {thread : Thread} {number : Nat} {underlying : Callable} {cache : Cache}
  {key : Value} {frames : List Frame} {system middle after : System} {storage : Storage}

/-! ## What happens inside of frames -/

/-- A thread is inside of some frames. -/
def Inside (system : System) (thread : Thread) (frames : List Frame) : Prop :=
  ∃ focus inner, system.At thread ⟨focus, inner ++ frames⟩

/-- To be inside of no frames is to be in the middle of a task. -/
theorem inside_nil_iff :
    system.Inside thread [] ↔ (system.workers[thread]?.bind (·.current)).isSome = true := by
  simp only [Option.isSome_iff_exists, Option.bind_eq_some_iff]
  constructor
  · rintro ⟨focus, inner, at'⟩
    exact ⟨_, at'⟩
  · rintro ⟨⟨focus, frames⟩, at'⟩
    exact ⟨focus, frames, by rwa [List.append_nil]⟩

instance : Decidable (system.Inside thread []) :=
  decidable_of_iff _ inside_nil_iff.symm

/-- What happens while a thread stays inside of some frames. -/
abbrev During (limit : Nat) (thread : Thread) (frames : List Frame) : System → System → Prop :=
  Relation.ReflTransGen fun system after => Happens limit system after ∧ after.Inside thread frames

theorem At.unique {activity other : Activity} (at' : system.At thread activity)
    (at'' : system.At thread other) : activity = other := by
  obtain ⟨worker, present, current⟩ := at'
  obtain ⟨worker', present', current'⟩ := at''
  rw [present, Option.some.injEq] at present'
  rw [← present', current] at current'
  exact Option.some.inj current'

theorem During.reaches (during : During limit thread frames system after) :
    Reaches limit system after :=
  Relation.ReflTransGen.mono (fun _ _ step => step.1) _ _ during

/-- What a thread does on its own happens inside of the frames around it. -/
theorem During.of_comes {activity next : Activity} {world : World}
    (at' : system.At thread (activity.within frames))
    (comes : Activity.Comes thread system.world activity world next) :
    ∃ after, During limit thread frames system after ∧ after.world = world ∧
      after.At thread (next.within frames) := by
  obtain ⟨steps, proceeded⟩ := comes
  induction steps generalizing system activity with
  | zero =>
      obtain ⟨rfl, rfl⟩ : system.world = world ∧ activity = next := by
        simpa [Activity.proceed] using proceeded
      exact ⟨system, .refl, rfl, at'⟩
  | succ steps induction =>
      simp only [Activity.proceed] at proceeded
      split at proceeded
      next moved stepped =>
        obtain ⟨following, happens, rfl, there⟩ :=
          at'.eq_of_step (Activity.step_within frames stepped)
        obtain ⟨after, during, same, there'⟩ := induction there proceeded
        exact ⟨after, .head ⟨.step thread happens, _, _, there⟩ during, same, there'⟩
      · cases proceeded
      · cases proceeded

/-- A computation that ends when a thread runs it on its own ends inside of any frames. -/
theorem During.of_ends {computation : Computation} {world : World} {outcome : Outcome}
    (at' : system.At thread ⟨.run computation, frames⟩)
    (ends : system.world.Ends thread computation world outcome) :
    ∃ after, During limit thread frames system after ∧ after.world = world ∧
      after.At thread ⟨.answer outcome, frames⟩ :=
  During.of_comes (show system.At thread (Activity.within frames ⟨.run computation, []⟩) from at')
    ends

/-- The first step of a thread past an outcome is not inside of the frames that it came to. -/
theorem At.leaves {outcome : Outcome} (at' : system.At thread ⟨.answer outcome, frames⟩)
    (stepped : system.step thread = some after) : ¬after.Inside thread frames := by
  rintro ⟨focus, inner, there⟩
  cases frames with
  | nil =>
      obtain ⟨⟨_, pending, outcomes⟩, present, rfl⟩ := at'
      simp only [step, present, Worker.next, Activity.next, Option.bind_eq_bind, Option.bind_some,
        Option.some.injEq] at stepped
      subst stepped
      have bound : thread < system.workers.length := (List.getElem?_eq_some_iff.mp present).1
      obtain ⟨worker, present', current⟩ := there
      rw [List.getElem?_set_self bound, Option.some.injEq] at present'
      subst present'
      cases current
  | cons frame frames =>
      obtain ⟨-, there'⟩ := at'.eq_of_progress stepped rfl
      have popped : (Outcome.next system.world frames outcome frame).2.frames = frames := by
        rcases outcome with failure | (value | callable) <;> cases frame <;> rfl
      have longer : inner ++ frame :: frames = frames :=
        (congrArg Activity.frames (there.unique there')).trans popped
      have lengths := congrArg List.length longer
      simp only [List.length_append, List.length_cons] at lengths
      omega

/-! ## Applications -/

/-- A step of an application leads to another stage, starts the run of the function, or ends it. -/
theorem At.advance {stage : Stage} (at' : system.At thread ⟨.applying number key stage, frames⟩)
    (found : system.world.caches[number]? = some cache)
    (stepped : system.step thread = some after) :
    (∃ storage event next,
      cache.storage.advance cache.retention thread key stage = .go storage event next ∧
      after.At thread ⟨.applying number key next, frames⟩ ∧
      after.world.log = event.toList.map (.event number (some key)) ++ system.world.log) ∨
    (∃ place, stage = .start place ∧
      after.At thread ⟨.run (.apply cache.underlying key), .computing number key place :: frames⟩ ∧
      after.world.log = .started number key :: system.world.log) ∨
    ∃ place outcome, stage = .drop place outcome ∧ after.At thread ⟨.answer outcome, frames⟩ ∧
      after.world.log = system.world.log := by
  have progress : Activity.next thread system.world ⟨.applying number key stage, frames⟩ =
      (cache.storage.advance cache.retention thread key stage).progress system.world number
        cache.underlying key frames := by
    simp only [Activity.next, found]
  cases moved : cache.storage.advance cache.retention thread key stage with
  | wait =>
      rw [moved] at progress
      rw [at'.step_of_wait progress] at stepped
      cases stepped
  | go storage event next =>
      rw [moved] at progress
      obtain ⟨world, there⟩ := at'.eq_of_progress stepped progress
      refine .inl ⟨storage, event, next, rfl, there, ?_⟩
      rw [world]
      cases event <;> rfl
  | compute storage place =>
      rw [moved] at progress
      obtain ⟨world, there⟩ := at'.eq_of_progress stepped progress
      obtain ⟨rfl, -⟩ := Storage.eq_start_of_compute moved
      exact .inr (.inl ⟨place, rfl, there, by rw [world]; rfl⟩)
  | finish storage outcome =>
      rw [moved] at progress
      obtain ⟨world, there⟩ := at'.eq_of_progress stepped progress
      obtain ⟨place, rfl, -⟩ := Storage.eq_drop_of_finish moved
      exact .inr (.inr ⟨place, outcome, rfl, there, by rw [world]; rfl⟩)

section Application

variable (limit thread number underlying cache key frames system)

/-- Inside of some frames the function of a cache was run for an argument, with this outcome. -/
def Ran (now : System) (outcome : Outcome) : Prop :=
  ∃ place middle last, During limit thread frames system middle ∧
    middle.At thread ⟨.run (.apply underlying key), .computing number key place :: frames⟩ ∧
    middle.world.log.head? = some (.started number key) ∧
    During limit thread (.computing number key place :: frames) middle last ∧
    last.At thread ⟨.answer outcome, .computing number key place :: frames⟩ ∧
    During limit thread frames last now

/-- Inside of some frames a cache refused an application to an argument, as its event tells. -/
def Rejected (now : System) : Prop :=
  ∃ place middle next, During limit thread frames system middle ∧
    middle.At thread ⟨.applying number key (.check place), frames⟩ ∧
    middle.step thread = some next ∧
    next.world.log =
      .event number (some key) (.reentryRejected cache.storage.policy) :: middle.world.log ∧
    During limit thread frames next now

/-- Inside of some frames an application found a stored result for an argument, as the event of a
hit tells. -/
def Found (now : System) (result : Result) : Prop :=
  ∃ place middle next, During limit thread frames system middle ∧
    middle.At thread ⟨.applying number key (.look place), frames⟩ ∧
    middle.Stores number key result ∧ middle.step thread = some next ∧
    next.world.log = .event number (some key) (.hit cache.storage.policy) :: middle.world.log ∧
    During limit thread frames next now

/-- How an application got the outcome that it comes back with. -/
inductive Resolved (now : System) : Outcome → Prop
  | rejected (rejected : Rejected limit thread number cache key frames system now) :
      Resolved now (.error (.reentered cache.storage.policy))
  | found {result : Result} (found : Found limit thread number cache key frames system now result) :
      Resolved now (.ok result)
  | ran {outcome : Outcome}
      (ran : Ran limit thread number cache.underlying key frames system now outcome) :
      Resolved now outcome

/-- How far an application has come. -/
inductive Underway (now : System) : Prop
  | begun (at' : now.At thread ⟨.run (.apply (.memoized number) key), frames⟩)
  | searching {stage : Stage} (at' : now.At thread ⟨.applying number key stage, frames⟩)
      (unknown : stage.outcome? = none)
  | running {place : Nat} {middle : System} {focus : Focus} {inner : List Frame}
      (before : During limit thread frames system middle)
      (started : middle.At thread
        ⟨.run (.apply cache.underlying key), .computing number key place :: frames⟩)
      (log : middle.world.log.head? = some (.started number key))
      (during : During limit thread (.computing number key place :: frames) middle now)
      (at' : now.At thread ⟨focus, inner ++ .computing number key place :: frames⟩)
  | settled {stage : Stage} {outcome : Outcome}
      (at' : now.At thread ⟨.applying number key stage, frames⟩)
      (known : stage.outcome? = some outcome)
      (resolved : Resolved limit thread number cache key frames system now outcome)
  | back {outcome : Outcome} (at' : now.At thread ⟨.answer outcome, frames⟩)
      (resolved : Resolved limit thread number cache key frames system now outcome)

end Application

theorem Resolved.onward {outcome : Outcome}
    (resolved : Resolved limit thread number cache key frames system middle outcome)
    (during : During limit thread frames middle after) :
    Resolved limit thread number cache key frames system after outcome := by
  cases resolved with
  | rejected rejected =>
      obtain ⟨place, checked, next, before, at', stepped, log, onward⟩ := rejected
      exact .rejected ⟨place, checked, next, before, at', stepped, log, onward.trans during⟩
  | found found =>
      obtain ⟨place, looked, next, before, at', stores, stepped, log, onward⟩ := found
      exact .found ⟨place, looked, next, before, at', stores, stepped, log, onward.trans during⟩
  | ran ran =>
      obtain ⟨place, begun, last, before, started, log, within, ended, onward⟩ := ran
      exact .ran ⟨place, begun, last, before, started, log, within, ended, onward.trans during⟩

namespace Underway

/-- A step of an application without an outcome. -/
private theorem of_open {stage : Stage} (reached : middle.Reached limit)
    (before : During limit thread frames system middle)
    (found : middle.world.caches[number]? = some { cache with storage := storage })
    (policy : storage.policy = cache.storage.policy)
    (at' : middle.At thread ⟨.applying number key stage, frames⟩)
    (unknown : stage.outcome? = none) (stepped : middle.step thread = some after)
    (along : During limit thread frames middle after) :
    Underway limit thread number cache key frames system after := by
  rcases at'.advance found stepped with ⟨storage', event, next, moved, there, log⟩ |
    ⟨place, rfl, there, log⟩ | ⟨place, outcome, rfl, -⟩
  · rcases Storage.outcome?_of_first unknown moved with
      unknown | ⟨place, rfl, rfl, refused⟩ | ⟨place, result, rfl, held, rfl, known⟩
    · exact .searching there unknown
    · rw [policy] at refused log
      exact .settled there refused (.rejected ⟨place, middle, after, before, at', stepped, log, .refl⟩)
    · rw [policy] at log
      have stored : storage.stored? key = some result :=
        ((reached.sound.present found).find?_eq_stored? at'.mem_phases rfl).symm.trans held
      exact .settled there known (.found ⟨place, middle, after, before, at', ⟨_, found, stored⟩,
        stepped, log, .refl⟩)
  · have inside : after.At thread
        ⟨.run (.apply cache.underlying key), [] ++ .computing number key place :: frames⟩ := there
    exact .running (before.trans along) there (by rw [log]; rfl) .refl inside
  · cases unknown

/-- A step of an application with an outcome. -/
private theorem of_settled {stage : Stage} {outcome : Outcome}
    (found : middle.world.caches[number]? = some { cache with storage := storage })
    (at' : middle.At thread ⟨.applying number key stage, frames⟩)
    (known : stage.outcome? = some outcome) (stepped : middle.step thread = some after)
    (resolved : Resolved limit thread number cache key frames system after outcome) :
    Underway limit thread number cache key frames system after := by
  rcases at'.advance found stepped with ⟨storage', event, next, moved, there, -⟩ |
    ⟨place, rfl, -⟩ | ⟨place, reached, rfl, there, -⟩
  · exact .settled there (Storage.outcome?_of_go known moved) resolved
  · cases known
  · cases known
    exact .back there resolved

/-- A step inside of the run of the function, or past the end of it. -/
private theorem of_running {place : Nat} {begun : System} {focus : Focus} {inner : List Frame}
    (before : During limit thread frames system begun)
    (started : begun.At thread
      ⟨.run (.apply cache.underlying key), .computing number key place :: frames⟩)
    (log : begun.world.log.head? = some (.started number key))
    (during : During limit thread (.computing number key place :: frames) begun middle)
    (at' : middle.At thread ⟨focus, inner ++ .computing number key place :: frames⟩)
    (stepped : middle.step thread = some after)
    (along : During limit thread frames middle after) :
    Underway limit thread number cache key frames system after := by
  by_cases ended : ∃ outcome, (⟨focus, inner⟩ : Activity) = ⟨.answer outcome, []⟩
  · obtain ⟨outcome, same⟩ := ended
    cases same
    obtain ⟨-, there⟩ := at'.eq_of_progress stepped (Activity.next_answer_computing ..)
    exact .settled there rfl
      (.ran ⟨place, begun, middle, before, started, log, during, at', along⟩)
  · rw [not_exists] at ended
    have same : Activity.next thread middle.world
        (Activity.within (.computing number key place :: frames) ⟨focus, inner⟩) =
        (Activity.next thread middle.world ⟨focus, inner⟩).within
          (.computing number key place :: frames) := Activity.next_within _ ended
    cases progress : Activity.next thread middle.world ⟨focus, inner⟩ with
    | step world next =>
        rw [progress] at same
        obtain ⟨-, there⟩ := at'.eq_of_progress stepped same
        exact .running before started log (during.tail ⟨.step thread stepped, _, _, there⟩) there
    | wait =>
        rw [progress] at same
        rw [at'.step_of_wait same] at stepped
        cases stepped
    | done outcome => exact absurd (Activity.eq_answer_of_next_done progress) (ended outcome)

/-- Whatever happens while the thread stays inside of its frames, the application goes on. -/
theorem of_happens (underway : Underway limit thread number cache key frames system middle)
    (reached : middle.Reached limit) (before : During limit thread frames system middle)
    (found : middle.world.caches[number]? = some { cache with storage := storage })
    (policy : storage.policy = cache.storage.policy)
    (happens : Happens limit middle after) (inside : after.Inside thread frames) :
    Underway limit thread number cache key frames system after := by
  have along : During limit thread frames middle after := .single ⟨happens, inside⟩
  cases underway with
  | begun at' =>
      rcases at'.of_happens happens with stepped | still
      · obtain ⟨-, there⟩ := at'.eq_of_progress stepped rfl
        exact .searching there rfl
      · exact .begun still
  | searching at' unknown =>
      rcases at'.of_happens happens with stepped | still
      · exact of_open reached before found policy at' unknown stepped along
      · exact .searching still unknown
  | running before started log during at' =>
      rcases at'.of_happens happens with stepped | still
      · exact of_running before started log during at' stepped along
      · exact .running before started log (during.tail ⟨happens, _, _, still⟩) still
  | settled at' known resolved =>
      rcases at'.of_happens happens with stepped | still
      · exact of_settled found at' known stepped (resolved.onward along)
      · exact .settled still known (resolved.onward along)
  | back at' resolved =>
      rcases at'.of_happens happens with stepped | still
      · exact absurd inside (at'.leaves stepped)
      · exact .back still (resolved.onward along)

end Underway

/-- An application that has come back was refused, found a stored result, or ran the function. -/
theorem resolved_of_during {outcome : Outcome} (reached : system.Reached limit)
    (found : system.world.caches[number]? = some cache)
    (begun : Underway limit thread number cache key frames system system)
    (during : During limit thread frames system after)
    (back : after.At thread ⟨.answer outcome, frames⟩) :
    Resolved limit thread number cache key frames system after outcome := by
  have underway : Underway limit thread number cache key frames system after := by
    clear back
    induction during with
    | refl => exact begun
    | tail before step induction =>
        obtain ⟨storage, kept, policy⟩ := Reaches.caches (During.reaches before) found
        have reached' := Relation.ReflTransGen.trans reached (During.reaches before)
        exact induction.of_happens reached' before kept policy step.1 step.2
  cases underway with
  | begun at' | searching at' unknown | settled at' known resolved => cases at'.unique back
  | running before started log during at' =>
      have lengths := congrArg (·.frames.length) (at'.unique back)
      simp only [List.length_append, List.length_cons] at lengths
      omega
  | back at' resolved =>
      cases at'.unique back
      exact resolved

/-- A result that an application finds is one that its cache keeps. -/
theorem Found.keeps {result : Result} (reached : system.Reached limit)
    (found : system.world.caches[number]? = some cache)
    (held : Found limit thread number cache key frames system after result) :
    cache.retention.keeps result = true := by
  obtain ⟨place, middle, next, before, -, ⟨cache', found', stored⟩, -⟩ := held
  obtain ⟨storage, kept, -⟩ := Reaches.caches (During.reaches before) found
  obtain rfl : { cache with storage := storage } = cache' :=
    Option.some.inj (kept.symm.trans found')
  have reached' : middle.Reached limit :=
    Relation.ReflTransGen.trans reached (During.reaches before)
  have backed : Cache.Backed { cache with storage := storage } (middle.phases number)
      (middle.world.marks number) := Cache.backed_invariant.of_reached reached' _ found'
  obtain ⟨argument, -, -, keeps⟩ := backed.stored stored
  exact keeps

/-- In any program: an application comes back with a result that its cache does not keep. Then the
function was run for its argument during the application, and ended with that result. -/
theorem ran_of_not_kept {result : Result} (reached : system.Reached limit)
    (found : system.world.caches[number]? = some cache)
    (begun : system.At thread ⟨.run (.apply (.memoized number) key), frames⟩)
    (during : During limit thread frames system after)
    (back : after.At thread ⟨.answer (.ok result), frames⟩)
    (passing : cache.retention.keeps result = false) :
    Ran limit thread number cache.underlying key frames system after (.ok result) := by
  cases resolved_of_during reached found (.begun begun) during back with
  | found held =>
      rw [held.keeps reached found] at passing
      cases passing
  | ran ran => exact ran

end System

end FunctionValues
