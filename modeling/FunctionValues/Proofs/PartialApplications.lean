import FunctionValues.Proofs.Chains
import FunctionValues.Proofs.InnerRuns
import FunctionValues.Proofs.Requests

/-!
# Memoized partial applications

A curried function takes its first argument without running any code of the function: it makes a
callable that waits for the second one. To memoize a curried function is to keep these callables. In
a program of a single thread the run behind such a cache makes one of them and nothing else, so it
never comes to another application of the memoized function, and nothing can refuse one. The cache
holds one callable for every class of equal first arguments, made of the first of them.
-/

namespace FunctionValues

/-- The outcome of taking a first argument: a callable that waits for the second one. -/
def Outcome.Takes (function : Callable) (first : Value) (outcome : Outcome) : Prop :=
  ∃ identity, outcome = .ok (.callable (.plain identity (Code.fixed function first)))

/-- A curried function taking its first argument, from its application to the outcome. -/
inductive Activity.Taking (function : Callable) (first : Value) : Activity → Prop
  | apply (identity : Nat) :
      Taking function first ⟨.run (.apply (.plain identity (Code.curried function)) first), []⟩
  | code : Taking function first ⟨.run (Code.curried function first), []⟩
  | give (identity : Nat) :
      Taking function first ⟨.run (.give (.plain identity (Code.fixed function first))), []⟩
  | done {outcome : Outcome} (takes : outcome.Takes function first) :
      Taking function first ⟨.answer outcome, []⟩

namespace Storage

variable {function : Callable} {storage after : Storage} {asked : List Value} {key first : Value}

/-- A storage holds one callable for every class of equal arguments, made of the first of them. -/
structure Represents (storage : Storage) (function : Callable) (asked : List Value) : Prop where
  size : storage.size = (Value.firsts asked).length
  stored {key first : Value} (known : Value.first? asked key = some first) :
    ∃ result, storage.stored? key = some result ∧ Outcome.Takes function first (.ok result)
  missing {key : Value} (new : Value.first? asked key = none) : storage.stored? key = none

/-- A storage lacks the callable for the latest argument, the first of its class. -/
def Lacks (storage : Storage) (function : Callable) (asked : List Value) (key : Value) : Prop :=
  ∃ earlier, asked = key :: earlier ∧ Value.first? earlier key = none ∧
    storage.Represents function earlier

namespace Represents

theorem empty (policy : Policy) : (Storage.empty policy).Represents function [] := by
  refine ⟨?_, fun known => ?_, fun new => ?_⟩
  · cases policy <;> rfl
  · cases known
  · cases policy <;> rfl

theorem of_agrees (represents : storage.Represents function asked) (agrees : storage.Agrees after) :
    after.Represents function asked where
  size := agrees.size.trans represents.size
  stored known := by
    rw [agrees.stored]
    exact represents.stored known
  missing new := by
    rw [agrees.stored]
    exact represents.missing new

/-- An argument of a class that is known changes nothing. -/
theorem again (represents : storage.Represents function asked)
    (known : Value.first? asked key = some first) :
    storage.Represents function (key :: asked) where
  size := by rw [Value.firsts_cons_of_known known, represents.size]
  stored known' := represents.stored (Value.first?_cons_of_known known _ ▸ known')
  missing new := represents.missing (Value.first?_cons_of_known known _ ▸ new)

end Represents

theorem Lacks.of_agrees (lacks : storage.Lacks function asked key) (agrees : storage.Agrees after) :
    after.Lacks function asked key := by
  obtain ⟨earlier, same, new, represents⟩ := lacks
  exact ⟨earlier, same, new, represents.of_agrees agrees⟩

/-- A storage that gets the callable that it lacks. -/
theorem Lacks.represents {result : Result} (lacks : storage.Lacks function asked key)
    (takes : Outcome.Takes function key (.ok result)) (size : after.size = storage.size + 1)
    (stored : ∀ other, after.stored? other =
      if key.same other then some result else storage.stored? other) :
    after.Represents function asked := by
  obtain ⟨earlier, rfl, new, represents⟩ := lacks
  have first : ∀ other, Value.first? (key :: earlier) other =
      if key.same other then some key else Value.first? earlier other := by
    intro other
    rw [Value.first?_cons]
    by_cases equal : key.same other = true
    · rw [← Value.first?_congr earlier equal, new]
      simp [equal]
    · simp [equal]
  refine ⟨?_, fun {other _} known => ?_, fun {other} new' => ?_⟩
  · rw [size, Value.firsts_cons_of_new new, represents.size, List.length_cons]
  · rw [first] at known
    rw [stored]
    split at known
    next equal =>
      obtain rfl := Option.some.inj known
      exact ⟨result, if_pos equal, takes⟩
    next different =>
      rw [if_neg different]
      exact represents.stored known
  · rw [first] at new'
    rw [stored]
    split at new'
    · cases new'
    next different =>
      rw [if_neg different]
      exact represents.missing new'

end Storage

/-! ## Stages -/

/-- What is stored and what the function was applied to fit the stage of an application. -/
inductive Stage.Fits (function : Callable) (storage : Storage) (asked : List Value) (key : Value) :
    Stage → Prop
  | searching {stage : Stage} (unknown : stage.outcome? = none)
      (early : ∀ place, stage ≠ .start place)
      (represents : storage.Represents function asked) : Fits function storage asked key stage
  | starting (place : Nat) (lacks : storage.Lacks function asked key) :
      Fits function storage asked key (.start place)
  | settling (place : Nat) {outcome : Outcome} (takes : outcome.Takes function key)
      (lacks : storage.Lacks function asked key) :
      Fits function storage asked key (.settle place outcome)
  | keeping (place : Nat) {outcome : Outcome} (takes : outcome.Takes function key)
      (lacks : storage.Lacks function asked key) :
      Fits function storage asked key (.keep place outcome)
  | back {stage : Stage} {outcome : Outcome} {first : Value} (ends : stage.ending? = some outcome)
      (known : Value.first? asked key = some first) (takes : outcome.Takes function first)
      (represents : storage.Represents function asked) : Fits function storage asked key stage

namespace Stage.Fits

variable {function : Callable} {cache : Cache} {asked : List Value} {key : Value}
  {stage next : Stage} {threads : List (List Phase)} {marks : List Mark} {after : Storage}
  {event : Option Event} {place : Nat} {outcome : Outcome}

/-- An application that goes on keeps what is stored and what the function was applied to in
order. -/
theorem of_go (fits : stage.Fits function cache.storage asked key)
    (sound : cache.Sound threads marks)
    (present : threads[0]? = some [.applying key stage]) (keeps : cache.retention = .all)
    (moved : cache.storage.advance cache.retention 0 key stage = .go after event next) :
    next.Fits function after (if event.any Event.answers then key :: asked else asked) key := by
  have member : Phase.applying key stage ∈ threads.getD 0 [] := by simp [present]
  have agrees : (∀ place outcome, stage ≠ .keep place outcome) → cache.storage.Agrees after :=
    fun apart => sound.agrees_of_go member apart moved
  cases fits with
  | searching unknown early represents =>
      cases Storage.goes_of_go moved with
      | sought found => exact .searching rfl (by simp) (represents.of_agrees (agrees (by simp)))
      | refused owned =>
          -- The thread does not compute anything that could refuse it.
          rw [sound.owner_iff present (by simp [Cache.Sound.Inward]), Policy.blocks_iff] at owned
          obtain ⟨_, computed, -⟩ := owned
          cases computed
      | admitted unowned => exact .searching rfl (by simp) represents
      | latched free => exact .searching rfl (by simp) (represents.of_agrees (agrees (by simp)))
      | @hit place result found =>
          rw [sound.find?_eq_stored? member rfl] at found
          cases known : Value.first? asked key with
          | none =>
              rw [represents.missing known] at found
              cases found
          | some first =>
              obtain ⟨result', stored, takes⟩ := represents.stored known
              obtain rfl := Option.some.inj (found.symm.trans stored)
              exact .back rfl ((Value.first?_cons_of_known known key).trans known) takes
                (represents.again known)
      | missed missing =>
          rw [sound.find?_eq_stored? member rfl] at missing
          refine .starting _ ⟨asked, rfl, ?_, represents⟩
          cases known : Value.first? asked key with
          | none => rfl
          | some first =>
              obtain ⟨result, stored, -⟩ := represents.stored known
              rw [missing] at stored
              cases stored
      | passed place outcome flat cleans =>
          rcases cleans with rfl | rfl | rfl | rfl <;> cases unknown
      | _ => cases unknown
  | starting place lacks => cases moved
  | settling place takes lacks =>
      cases moved
      exact .keeping place takes (lacks.of_agrees (agrees (by simp)))
  | keeping place takes lacks =>
      obtain ⟨identity, rfl⟩ := takes
      cases Storage.goes_of_go moved with
      | stored place kept =>
          have represents := lacks.represents ⟨identity, rfl⟩ (sound.size_insert member rfl)
            (sound.stored?_insert member rfl)
          obtain ⟨earlier, rfl, new, -⟩ := lacks
          have known : Value.first? (key :: earlier) key = some key := by
            simp [Value.first?_cons, new]
          exact .back rfl known ⟨identity, rfl⟩ represents
      | notRetained place passing =>
          rw [keeps] at passing
          cases passing
      | passed place outcome flat cleans =>
          rcases cleans with same | same | same | same <;> cases same
  | back ends known takes represents =>
      obtain ⟨ends', silent⟩ := Storage.ending?_of_go ends moved
      have unanswered : event.any Event.answers = false := by
        rcases silent with rfl | ⟨slots, rfl⟩ <;> rfl
      rw [if_neg (by simp [unanswered])]
      refine .back ends' known takes (represents.of_agrees (agrees fun place outcome same => ?_))
      subst same
      cases ends

/-- An application that starts a run lacks the callable of its argument. -/
theorem of_compute (fits : stage.Fits function cache.storage asked key)
    (moved : cache.storage.advance cache.retention 0 key stage = .compute after place) :
    after.Lacks function asked key := by
  obtain ⟨rfl, rfl⟩ := Storage.eq_start_of_compute moved
  cases fits with
  | searching unknown early represents => exact absurd rfl (early place)
  | starting place lacks => exact lacks.of_agrees (.of_modifyLatch ..)
  | back ends known takes represents => cases ends

/-- An application comes back with the callable of the first argument of the class. -/
theorem of_finish (fits : stage.Fits function cache.storage asked key)
    (moved : cache.storage.advance cache.retention 0 key stage = .finish after outcome) :
    after.Represents function asked ∧
      ∃ first, Value.first? asked key = some first ∧ outcome.Takes function first := by
  obtain ⟨place, rfl, dropped⟩ := Storage.eq_drop_of_finish moved
  cases fits with
  | searching unknown early represents => cases unknown
  | back ends known takes represents =>
      obtain rfl := Option.some.inj ends
      exact ⟨represents.of_agrees (.of_drop dropped), _, known, takes⟩

end Stage.Fits

/-! ## Threads -/

/-- What is stored and what the function was applied to fit what a thread is about to do. -/
inductive Activity.Fits (function : Callable) (number : Nat) (storage : Storage)
    (asked : List Value) : Activity → Prop
  | elsewhere {focus : Focus} {frames : List Frame}
      (apart : ∀ key stage, focus ≠ .applying number key stage)
      (outside : ∀ key place, .computing number key place ∉ frames)
      (represents : storage.Represents function asked) :
      Fits function number storage asked ⟨focus, frames⟩
  | applying {key : Value} {stage : Stage} {frames : List Frame}
      (outside : ∀ key place, .computing number key place ∉ frames)
      (fits : stage.Fits function storage asked key) :
      Fits function number storage asked ⟨.applying number key stage, frames⟩
  | running {key : Value} {place : Nat} {activity : Activity} {frames : List Frame}
      (outside : ∀ key place, .computing number key place ∉ frames)
      (taking : activity.Taking function key) (lacks : storage.Lacks function asked key) :
      Fits function number storage asked (activity.within (.computing number key place :: frames))

namespace Activity

variable {function : Callable} {number : Nat} {storage : Storage} {asked : List Value}
  {cache : Cache} {world after : World} {activity next : Activity} {key : Value} {place : Nat}
  {frames : List Frame}

/-- A curried function that takes its argument goes on to do so, or hands its outcome on. -/
theorem Taking.of_next (taking : activity.Taking function key)
    (stepped : (activity.within (.computing number key place :: frames)).next 0 world =
      .step after next) :
    (∃ following : Activity, following.Taking function key ∧
        next = following.within (.computing number key place :: frames)) ∨
      ∃ outcome : Outcome, outcome.Takes function key ∧
        next = ⟨.applying number key (.settle place outcome), frames⟩ := by
  cases taking with
  | apply identity =>
      cases stepped
      exact .inl ⟨_, .code, rfl⟩
  | code =>
      cases stepped
      exact .inl ⟨_, .give _, rfl⟩
  | give identity =>
      cases stepped
      exact .inl ⟨_, .done ⟨_, rfl⟩, rfl⟩
  | done takes =>
      simp only [within, List.nil_append, next_answer_computing] at stepped
      cases stepped
      exact .inr ⟨_, takes, rfl⟩

theorem Taking.focus_ne (taking : activity.Taking function key) (frames : List Frame)
    (other : Value) (stage : Stage) : (activity.within frames).focus ≠ .applying number other stage := by
  cases taking <;> nofun

private theorem phases_of_outside (outside : ∀ key place, .computing number key place ∉ frames) :
    Frame.phases number frames = [] := by
  refine List.eq_nil_iff_forall_not_mem.mpr fun phase member => ?_
  obtain ⟨key, place, -, inside⟩ := Frame.mem_phases.mp member
  exact outside key place inside

/-- A step of a thread keeps what is stored and what the function was applied to in order. -/
theorem Fits.of_next {threads : List (List Phase)} {marks : List Mark} {identity : Nat}
    (fits : activity.Fits function number cache.storage (world.asked number))
    (sound : cache.Sound threads marks) (present : threads[0]? = some (activity.phases number))
    (found : world.caches[number]? = some cache) (keeps : cache.retention = .all)
    (behind : cache.underlying = .plain identity (Code.curried function))
    (stepped : activity.next 0 world = .step after next) :
    ∃ storage, after.caches[number]? = some { cache with storage := storage } ∧
      next.Fits function number storage (after.asked number) := by
  cases fits with
  | elsewhere apart outside represents =>
      obtain ⟨storage, kept, agrees⟩ := agrees_of_next found apart stepped
      obtain ⟨outside', begins⟩ := outside_of_next found apart outside stepped
      rw [asked_of_next apart stepped]
      refine ⟨storage, kept, ?_⟩
      obtain ⟨focus, frames⟩ := next
      by_cases here : ∃ key stage, focus = .applying number key stage
      · obtain ⟨key, stage, rfl⟩ := here
        obtain rfl := begins key stage rfl
        exact .applying outside' (.searching rfl (by simp) (represents.of_agrees agrees))
      · simp only [not_exists] at here
        exact .elsewhere here outside' (represents.of_agrees agrees)
  | running outside taking lacks =>
      obtain ⟨storage, kept, agrees⟩ := agrees_of_next found (taking.focus_ne _) stepped
      rw [asked_of_next (taking.focus_ne _) stepped]
      refine ⟨storage, kept, ?_⟩
      rcases taking.of_next stepped with ⟨following, taking, rfl⟩ | ⟨outcome, takes, rfl⟩
      · exact .running outside taking (lacks.of_agrees agrees)
      · exact .applying outside (.settling _ takes (lacks.of_agrees agrees))
  | @applying key stage frames outside fits =>
      rw [phases_applying, if_pos rfl, phases_of_outside outside] at present
      simp only [Activity.next, found] at stepped
      cases moved : cache.storage.advance cache.retention 0 key stage with
      | wait => simp [moved, Move.progress] at stepped
      | go storage event following =>
          rw [moved] at stepped
          cases stepped
          refine ⟨storage, by simp [World.caches_setStorage, found], .applying outside ?_⟩
          rw [World.asked_recordEvent]
          exact fits.of_go sound present keeps moved
      | compute storage place =>
          rw [moved] at stepped
          cases stepped
          refine ⟨storage, by simp [World.caches_setStorage, found], ?_⟩
          have taking : Taking function key ⟨.run (.apply cache.underlying key), []⟩ :=
            behind ▸ .apply identity
          exact .running outside taking (fits.of_compute moved)
      | finish storage outcome =>
          rw [moved] at stepped
          cases stepped
          refine ⟨storage, by simp [World.caches_setStorage, found], ?_⟩
          exact .elsewhere (by simp) outside (fits.of_finish moved).1

/-- A curried function gives a new callable for its first argument. -/
theorem comes_taking (world : World) (identity : Nat) (function : Callable) (first : Value)
    (frames : List Frame) :
    Comes 0 world ⟨.run (.apply (.plain identity (Code.curried function)) first), frames⟩
      { world with identities := world.identities + 1 }
      ⟨.answer (.ok (.callable (.plain world.identities (Code.fixed function first)))), frames⟩ :=
  ((Comes.single rfl).trans (.single rfl)).trans (.single rfl)

/-- What an application comes back with. -/
theorem Fits.of_drop {outcome : Outcome}
    (fits : Activity.Fits function number storage asked
      ⟨.applying number key (.drop place outcome), frames⟩) :
    ∃ first, Value.first? asked key = some first ∧ outcome.Takes function first := by
  generalize same : (⟨.applying number key (.drop place outcome), frames⟩ : Activity) = last at fits
  cases fits with
  | elsewhere apart outside represents =>
      cases same
      exact absurd rfl (apart _ _)
  | running outside taking lacks =>
      exact absurd (congrArg Activity.focus same).symm (taking.focus_ne _ _ _)
  | applying outside fits =>
      cases same
      cases fits with
      | searching unknown early represents => cases unknown
      | back ends known takes represents =>
          obtain rfl := Option.some.inj ends
          exact ⟨_, known, takes⟩

/-- A thread that is about to apply the function is outside of it. -/
theorem Fits.of_begun
    (fits : Activity.Fits function number storage asked
      ⟨.run (.apply (.memoized number) key), frames⟩) :
    Frame.keys number frames = [] ∧ storage.Represents function asked := by
  generalize same : (⟨.run (.apply (.memoized number) key), frames⟩ : Activity) = last at fits
  cases fits with
  | elsewhere apart outside represents =>
      cases same
      exact ⟨by rw [Frame.keys, phases_of_outside outside]; rfl, represents⟩
  | running outside taking lacks => cases taking <;> cases same
  | applying outside fits => cases same

end Activity

namespace System

variable {function : Callable} {number identity : Nat} {system after : System} {cache : Cache}
  {storage : Storage} {activity : Activity} {key : Value} {frames : List Frame}

/-- What is stored and what the function was applied to fit what the only thread is about to do, if
it is at a task. -/
structure Fits (system : System) (function : Callable) (number : Nat) (storage : Storage) :
    Prop where
  busy {activity : Activity} (at' : system.At 0 activity) :
    activity.Fits function number storage (system.world.asked number)
  idle (done : ∀ activity, ¬system.At 0 activity) :
    storage.Represents function (system.world.asked number)

theorem Fits.of_at (at' : system.At 0 activity)
    (fits : activity.Fits function number storage (system.world.asked number)) :
    system.Fits function number storage where
  busy there := at'.unique there ▸ fits
  idle done := absurd at' (done activity)

private theorem Fits.of_step (fits : system.Fits function number cache.storage)
    (reached : system.Reached 1) (found : system.world.caches[number]? = some cache)
    (keeps : cache.retention = .all)
    (behind : cache.underlying = .plain identity (Code.curried function))
    (stepped : system.step 0 = some after) :
    ∃ storage, after.world.caches[number]? = some { cache with storage := storage } ∧
      after.Fits function number storage := by
  obtain ⟨⟨current, pending, outcomes⟩, worker, world, present, moved, rfl⟩ := step_eq_some stepped
  have bound : 0 < system.workers.length := (List.getElem?_eq_some_iff.mp present).1
  cases current with
  | none =>
      cases pending with
      | nil => cases moved
      | cons task pending =>
          cases moved
          have represents : cache.storage.Represents function (system.world.asked number) := by
            refine fits.idle fun activity at' => ?_
            obtain ⟨worker, present', current⟩ := at'
            cases present.symm.trans present'
            cases current
          refine ⟨cache.storage, found, .of_at ⟨_, List.getElem?_set_self bound, rfl⟩ ?_⟩
          cases task <;> exact .elsewhere (by simp) (by simp) represents
  | some activity =>
      have at' : system.At 0 activity := ⟨_, present, rfl⟩
      have phases : (system.phases number)[0]? = some (activity.phases number) := by
        simp [System.phases, present, Worker.phases]
      simp only [Worker.next] at moved
      split at moved <;> cases moved
      next next progress =>
        obtain ⟨storage, kept, fits⟩ := (fits.busy at').of_next (reached.sound.present found) phases
          found keeps behind progress
        exact ⟨storage, kept, .of_at ⟨_, List.getElem?_set_self bound, rfl⟩ fits⟩
      next outcome done =>
        refine ⟨cache.storage, found, fun {other} there => ?_, fun _ => ?_⟩
        · obtain ⟨worker, present', current⟩ := there
          rw [List.getElem?_set_self bound] at present'
          cases present'
          cases current
        · have ended := fits.busy at'
          rw [Activity.eq_answer_of_next_done done] at ended
          generalize same : (⟨.answer outcome, []⟩ : Activity) = last at ended
          cases ended with
          | elsewhere apart outside represents => exact represents
          | applying outside fits => cases same
          | @running _ _ activity _ outside taking lacks =>
              have lengths := congrArg (·.frames.length) same
              simp [Activity.within] at lengths

/-- A new cache has nothing stored, and its function was applied to nothing. -/
private theorem Fits.of_made {world made : World} {workers : List Worker}
    (reached : System.Reached 1 ⟨world, workers⟩) (absent : world.caches[number]? = none)
    (makes : world.Makes made) (found : made.caches[number]? = some cache) :
    System.Fits ⟨made, workers⟩ function number cache.storage := by
  have fresh := (reached.sound.absent absent).2
  obtain ⟨policy, empty⟩ := makes.empty_of_absent absent found
  have represents : cache.storage.Represents function (made.asked number) := by
    rw [makes.asked, empty]
    exact reached.asked_of_absent absent ▸ .empty policy
  refine ⟨fun {activity} at' => ?_, fun _ => represents⟩
  obtain ⟨worker, present, current⟩ := at'
  obtain ⟨focus, frames⟩ := activity
  have idle : ∀ phase ∈ Activity.phases number ⟨focus, frames⟩, phase.isFresh = true := by
    have here := fresh _ (List.mem_map_of_mem (List.mem_of_getElem? present))
    simpa [Worker.phases, current] using here
  have outside : ∀ key place, .computing number key place ∉ frames := by
    intro key place member
    cases idle _ (Activity.mem_phases.mpr (.inr (.inr ⟨key, place, rfl, member⟩)))
  by_cases here : ∃ key stage, focus = .applying number key stage
  · obtain ⟨key, stage, rfl⟩ := here
    have seeks := idle _ (Activity.mem_phases.mpr (.inl ⟨key, stage, rfl, rfl⟩))
    cases stage <;> cases seeks
    exact .applying outside (.searching rfl (by simp) represents)
  · simp only [not_exists] at here
    exact .elsewhere here outside represents

/-- Whatever a single thread does, what is stored for a curried function fits what it was applied
to. -/
theorem Reached.fits (reached : system.Reached 1)
    (found : system.world.caches[number]? = some cache) (keeps : cache.retention = .all)
    (behind : cache.underlying = .plain identity (Code.curried function)) :
    system.Fits function number cache.storage := by
  induction reached generalizing cache with
  | refl => cases found
  | @tail middle after before happens induction =>
      have reached : middle.Reached 1 := before
      cases earlier : middle.world.caches[number]? with
      | some former =>
          have same : former.retention = cache.retention ∧
              former.underlying = cache.underlying := by
            obtain ⟨storage, kept, -⟩ := happens.caches earlier
            rw [Option.some.inj (found.symm.trans kept)]
            exact ⟨rfl, rfl⟩
          have keeps' := same.1.trans keeps
          have behind' := same.2.trans behind
          have fits := induction earlier keeps' behind'
          cases happens with
          | step thread stepped =>
              obtain ⟨worker, next, world, present, -, -⟩ := step_eq_some stepped
              have bound := (List.getElem?_eq_some_iff.mp present).1
              obtain rfl : thread = 0 :=
                Nat.lt_one_iff.mp (Nat.lt_of_lt_of_le bound reached.length_le)
              obtain ⟨storage, kept, fits⟩ := fits.of_step reached earlier keeps' behind' stepped
              cases kept.symm.trans found
              exact fits
          | make makes =>
              cases (makes.caches earlier).symm.trans found
              exact ⟨fun at' => makes.asked ▸ fits.busy at',
                fun done => makes.asked ▸ fits.idle done⟩
          | start tasks few done =>
              cases earlier.symm.trans found
              refine ⟨fun at' => ?_, fun _ => fits.idle fun activity at' => ?_⟩
              · obtain ⟨worker, present, current⟩ := at'
                simp only [ofTasks, List.getElem?_map, Option.map_eq_some_iff] at present
                obtain ⟨tasks, -, rfl⟩ := present
                cases current
              · obtain ⟨worker, present, current⟩ := at'
                have idle := done worker (List.mem_of_getElem? present)
                simp [Worker.isDone, current] at idle
      | none =>
          cases happens with
          | step thread stepped =>
              obtain ⟨worker, next, world, present, moved, rfl⟩ := step_eq_some stepped
              have idle := (reached.sound.absent earlier).2 _
                (List.mem_map_of_mem (List.mem_of_getElem? present))
              cases (Worker.fresh_of_next earlier moved idle).1.symm.trans found
          | make makes => exact .of_made reached earlier makes found
          | start tasks few done => cases earlier.symm.trans found

/-! ## Applications -/

/-- A thread is at an application of a memoized function of which it runs nothing but taking a first
argument: it begins, is at a stage, takes the argument, or is back with the callable of the first of
the arguments that are equal to this one. -/
inductive Takes (system : System) (function : Callable) (number : Nat) (key : Value)
    (frames : List Frame) : Prop
  | begun (at' : system.At 0 ⟨.run (.apply (.memoized number) key), frames⟩)
  | applying {stage : Stage} (at' : system.At 0 ⟨.applying number key stage, frames⟩)
  | taking {place : Nat} {activity : Activity} (taking : activity.Taking function key)
      (at' : system.At 0 (activity.within (.computing number key place :: frames)))
  | back {first : Value} {outcome : Outcome}
      (known : Value.first? (system.world.asked number) key = some first)
      (takes : outcome.Takes function first) (at' : system.At 0 ⟨.answer outcome, frames⟩)

/-- The first argument of a class stays the first, whatever happens. -/
theorem Reaches.first? {limit : Nat} {first : Value} (reaches : Reaches limit system after)
    (known : Value.first? (system.world.asked number) key = some first) :
    Value.first? (after.world.asked number) key = some first :=
  Value.first?_of_suffix known ((reaches.log).filterMap _)

/-- At every moment of an application the function that was curried does not run. -/
theorem During.takes (reached : system.Reached 1)
    (found : system.world.caches[number]? = some cache) (keeps : cache.retention = .all)
    (behind : cache.underlying = .plain identity (Code.curried function))
    (begun : system.At 0 ⟨.run (.apply (.memoized number) key), frames⟩)
    (during : During 1 0 frames system after) : after.Takes function number key frames := by
  induction during with
  | refl => exact .begun begun
  | @tail middle after before step induction =>
      obtain ⟨happens, inside⟩ := step
      have reached' : middle.Reached 1 :=
        Relation.ReflTransGen.trans reached (During.reaches before)
      have reaches : Reaches 1 middle after := .single happens
      obtain ⟨storage, found', -⟩ := (During.reaches before).caches found
      cases induction with
      | begun at' =>
          rcases at'.of_happens happens with stepped | still
          · exact .applying (at'.eq_of_progress stepped rfl).2
          · exact .begun still
      | applying at' =>
          rcases at'.of_happens happens with stepped | still
          · rcases at'.advance found' stepped with ⟨_, _, next, -, there, -⟩ |
              ⟨place, -, there, -⟩ |
              ⟨place, outcome, rfl, there, -⟩
            · exact .applying there
            · rw [behind] at there
              exact .taking (.apply identity) there
            · obtain ⟨first, known, takes⟩ :=
                ((reached'.fits found' keeps behind).busy at').of_drop
              exact .back (reaches.first? known) takes there
          · exact .applying still
      | @taking place activity taking at' =>
          rcases at'.of_happens happens with stepped | still
          · cases progress : (activity.within (.computing number key place :: frames)).next 0
              middle.world with
            | wait =>
                rw [at'.step_of_wait progress] at stepped
                cases stepped
            | done outcome =>
                have lengths := congrArg (·.frames.length)
                  (Activity.eq_answer_of_next_done progress)
                simp [Activity.within] at lengths
            | step world next =>
                obtain ⟨-, there⟩ := at'.eq_of_progress stepped progress
                rcases taking.of_next progress with ⟨following, taking, rfl⟩ | ⟨outcome, -, rfl⟩
                · exact .taking taking there
                · exact .applying there
          · exact .taking taking still
      | back known takes at' =>
          rcases at'.of_happens happens with stepped | still
          · exact absurd inside (at'.leaves stepped)
          · exact .back (reaches.first? known) takes still

/-- An application comes back with the callable of the first of the arguments that are equal to this
one. -/
theorem At.comes_taken (reached : system.Reached 1)
    (found : system.world.caches[number]? = some cache) (keeps : cache.retention = .all)
    (behind : cache.underlying = .plain identity (Code.curried function))
    (at' : system.At 0 ⟨.run (.apply (.memoized number) key), frames⟩) :
    ∃ world first callable,
      Activity.Comes 0 system.world ⟨.run (.apply (.memoized number) key), frames⟩ world
        ⟨.answer (.ok (.callable callable)), frames⟩ ∧
      world.asked number = key :: system.world.asked number ∧
      Value.first? (key :: system.world.asked number) key = some first ∧
      Outcome.Takes function first (.ok (.callable callable)) := by
  obtain ⟨outside, represents⟩ := ((reached.fits found keeps behind).busy at').of_begun
  have seeks := Activity.comes_seek system.world number key frames
  have sound := ((at'.soundAt reached).of_comes seeks).seeking found
  have open' : cache.storage.policy.blocks (Frame.keys number frames) key = false := by
    rw [outside]
    cases cache.storage.policy <;> rfl
  cases known : Value.first? (system.world.asked number) key with
  | some first =>
      obtain ⟨result, stored, takes⟩ := represents.stored known
      obtain ⟨made, same⟩ := takes
      cases same
      have hits := Activity.comes_of_stored frames found sound open' stored
      refine ⟨_, first, _, seeks.trans hits, ?_, ?_, made, rfl⟩
      · simp [World.asked, World.record, Entry.asked?, Event.answers]
      · rw [Value.first?_cons_of_known known, known]
  | none =>
      have missing := represents.missing known
      obtain ⟨storage, place, misses, -, -⟩ :=
        Activity.comes_of_missing frames found sound open' missing
      rw [behind] at misses
      have found' := World.caches_amend found storage
        [.started number key, .event number (some key) (.miss cache.storage.policy)]
      have asked : (system.world.amend number storage [.started number key,
          .event number (some key) (.miss cache.storage.policy)]).asked number =
            key :: system.world.asked number := by
        rw [World.asked_amend]
        simp [List.filterMap_cons, Entry.asked?, Event.answers]
      generalize system.world.amend number storage _ = missed at misses found' asked
      have passed := (seeks.trans misses).trans
        (Activity.comes_taking missed identity function key (.computing number key place :: frames))
      generalize taken : { missed with identities := missed.identities + 1 } = world at passed
      have found' : world.caches[number]? = some { cache with storage := storage } := taken ▸ found'
      have asked : world.asked number = key :: system.world.asked number := taken ▸ asked
      have computing := ((at'.soundAt reached).of_comes passed).computing found'
      have retains : ∀ result, cache.retention.keeps result = true := by
        rw [keeps]
        exact fun _ => rfl
      obtain ⟨after, kept, -⟩ := Activity.comes_of_kept frames found' computing (retains _)
      refine ⟨_, key, _, passed.trans kept, ?_, ?_, _, rfl⟩
      · rw [World.asked_amend, asked]
        simp [Entry.asked?, Event.answers]
      · simp [Value.first?_cons, known]

/-- In a program of a single thread, whatever it applies, makes and catches: a cache of either policy
keeps the results of a curried function. While no application of the memoized function is under way,
it holds one result for every class of equal arguments that the function was applied to. At every
moment of an application, also where the function that was curried makes it, that function does not
run. The application comes back with a callable, which neither a failure nor a lock keeps it from.
Whenever the callable is applied to a second argument, the function that was curried is what runs at
once, with nothing stored before or after, for that and the first of all arguments of the class that
the memoized function was ever applied to. -/
theorem memoized_curried_keeps_partials {made : World} {base : Nat} {code : Code}
    (reached : system.Reached 1) (found : system.world.caches[number]? = some cache)
    (behind : cache.underlying = (Transformation.curry.callable made (.plain base code)).1)
    (keeps : cache.retention = .all) :
    ((∀ key frames, ¬system.In 0 number key frames) →
      cache.storage.size = (Value.firsts (system.world.asked number)).length) ∧
    ∀ key frames, system.At 0 ⟨.run (.apply (.memoized number) key), frames⟩ →
      (∀ after, During 1 0 frames system after →
        after.Takes (.plain base code) number key frames) ∧
      ∃ steps after callable first, system.follow (List.replicate steps 0) = some after ∧
        after.At 0 ⟨.answer (.ok (.callable callable)), frames⟩ ∧
        after.world.asked number = key :: system.world.asked number ∧
        Value.first? (after.world.asked number) key = some first ∧
        ∀ later second outer, Reaches 1 after later →
          later.At 0 ⟨.run (.apply callable second), outer⟩ →
          Value.first? (later.world.asked number) key = some first ∧
          (∃ entered, later.follow [0, 0] = some entered ∧ entered.world = later.world ∧
            entered.At 0 ⟨.run (code (.pair first second)), outer⟩) ∧
          ∀ world outcome, later.world.Ends 0 (.apply callable second) world outcome ↔
            later.world.Ends 0 (code (.pair first second)) world outcome := by
  refine ⟨fun outside => ?_, fun key frames at' => ⟨fun after during => ?_, ?_⟩⟩
  · have fits := reached.fits found keeps behind
    by_cases busy : ∃ activity, system.At 0 activity
    · obtain ⟨activity, at'⟩ := busy
      cases fits.busy at' with
      | elsewhere apart _ represents => exact represents.size
      | applying _ _ => exact absurd (.inl ⟨_, at'⟩) (outside _ _)
      | @running _ _ activity _ _ taking lacks =>
          exact absurd (.inr ⟨_, activity.focus, activity.frames, at'⟩) (outside _ _)
    · exact (fits.idle (not_exists.mp busy)).size
  · exact during.takes reached found keeps behind at'
  · obtain ⟨world, first, callable, comes, asked, known, identity, same⟩ :=
      at'.comes_taken reached found keeps behind
    cases same
    obtain ⟨steps, after, followed, rfl, there⟩ := at'.follow comes
    refine ⟨steps, after, _, first, followed, there, asked, asked ▸ known,
      fun later second outer reaches at'' => ⟨reaches.first? (asked ▸ known), ?_,
        fun world outcome => World.ends_apply.trans World.ends_apply⟩⟩
    obtain ⟨middle, stepped, world, fixed⟩ := at''.eq_of_step
      (show Activity.next 0 later.world
        ⟨.run (.apply (.plain identity (Code.fixed (.plain base code) first)) second), outer⟩ =
          .step later.world ⟨.run (.apply (.plain base code) (.pair first second)), outer⟩ from rfl)
    obtain ⟨entered, stepped', world', runs⟩ := fixed.eq_of_step
      (show Activity.next 0 middle.world
        ⟨.run (.apply (.plain base code) (.pair first second)), outer⟩ =
          .step middle.world ⟨.run (code (.pair first second)), outer⟩ from rfl)
    exact ⟨entered, by simp [follow, stepped, stepped'], world'.trans world, runs⟩

/-- A function of two arguments that applies the memoized curried function of itself to them. -/
def recurrent (policy : Policy) : World :=
  (World.memoize {} policy .all
    (Transformation.curry.callable {} (.plain 0 (Code.ofCallable (.memoized 0)))).1).2

/-- The memoized curried function is applied, and gives a callable. -/
theorem memoized_curried_keeps_partials_recurrent :
    ∃ system steps after callable,
      (ofTasks (recurrent .global) [[.run (.apply (.memoized 0) (.int 1))]]).step 0 = some system ∧
      system.follow (List.replicate steps 0) = some after ∧
      after.At 0 ⟨.answer (.ok (.callable callable)), []⟩ := by
  have made : Reaches 1 ⟨{}, []⟩ ⟨recurrent .global, []⟩ := .single (.make (.memoize ..))
  have started : Happens 1 ⟨recurrent .global, []⟩
      (ofTasks (recurrent .global) [[.run (.apply (.memoized 0) (.int 1))]]) :=
    .start _ (by simp) (by simp)
  have stepped : ∃ system cache,
      (ofTasks (recurrent .global) [[.run (.apply (.memoized 0) (.int 1))]]).step 0 = some system ∧
      system.world.caches[0]? = some cache ∧ cache.retention = .all ∧
      cache.underlying =
        (Transformation.curry.callable {} (.plain 0 (Code.ofCallable (.memoized 0)))).1 ∧
      (system.workers[0]?).bind (·.current) = some ⟨.run (.apply (.memoized 0) (.int 1)), []⟩ :=
    ⟨_, _, rfl, rfl, rfl, rfl, rfl⟩
  obtain ⟨system, cache, stepped, found, keeps, behind, current⟩ := stepped
  have reached : system.Reached 1 := (made.tail started).tail (.step 0 stepped)
  obtain ⟨-, applications⟩ := memoized_curried_keeps_partials reached found behind keeps
  obtain ⟨-, steps, after, callable, first, followed, there, -⟩ :=
    applications _ [] (Option.bind_eq_some_iff.mp current)
  exact ⟨system, steps, after, callable, stepped, followed, there⟩

end System

end FunctionValues
