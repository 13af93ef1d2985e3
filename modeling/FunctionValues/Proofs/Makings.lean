import FunctionValues.Proofs.Sessions

/-!
# What makes functions and caches

Nothing that runs makes a cache or gives a name a function: only the steps of a session that derive
functions do. `World.Makings` says what a step of a session that makes a function has made, and from
what; every other step makes nothing.
-/

namespace FunctionValues

/-- Whether an entry tells that a cache was made. -/
def Entry.isCreation : Entry → Bool
  | event _ _ (.created _) => true
  | _ => false

/-- How many caches the log tells were made. -/
def World.creations (world : World) : Nat :=
  world.log.countP Entry.isCreation

/-- No function and no cache was made. -/
structure World.MakesNothing (world after : World) : Prop where
  functions : after.functions = world.functions
  caches : after.caches.length = world.caches.length
  creations : after.creations = world.creations

namespace World.MakesNothing

variable {world middle after : World}

theorem refl (world : World) : world.MakesNothing world :=
  ⟨rfl, rfl, rfl⟩

theorem trans (first : world.MakesNothing middle) (second : middle.MakesNothing after) :
    world.MakesNothing after :=
  ⟨second.functions.trans first.functions, second.caches.trans first.caches,
    second.creations.trans first.creations⟩

theorem record {entry : Entry} (usual : entry.isCreation = false) :
    world.MakesNothing (world.record entry) :=
  ⟨rfl, rfl, List.countP_cons_of_neg (by simp [usual])⟩

theorem setStorage (world : World) (number : Nat) (storage : Storage) :
    world.MakesNothing (world.setStorage number storage) :=
  ⟨rfl, by simp [World.setStorage], rfl⟩

theorem of_computation (world : World) (frames : List Frame) (computation : Computation) :
    world.MakesNothing (computation.next world frames).1 := by
  cases computation with
  | apply callable argument => cases callable <;> exact .refl world
  | note label arguments rest => exact .record rfl
  | tick | fresh rest => exact ⟨rfl, rfl, rfl⟩
  | finish reply | give callable | bind first next | feed first argument | call name arguments =>
      exact .refl world

theorem of_outcome (world : World) (frames : List Frame) (outcome : Outcome) (frame : Frame) :
    world.MakesNothing (outcome.next world frames frame).1 := by
  rcases outcome with failure | (value | callable) <;> cases frame <;>
    first | exact .refl world | exact .record rfl

end World.MakesNothing

/-- The stages of an application tell of no cache that was made. -/
theorem Storage.usual_of_go {storage after : Storage} {retention : Retention} {thread : Thread}
    {key : Value} {stage next : Stage} {event : Option Event}
    (moved : storage.advance retention thread key stage = .go after event next) (number : Nat) :
    ∀ told ∈ event, (Entry.event number (some key) told).isCreation = false := by
  cases goes_of_go moved <;> rintro _ ⟨⟩ <;> rfl

/-- A step of a thread makes nothing. -/
theorem Activity.makesNothing_of_next {thread : Thread} {world after : World}
    {activity next : Activity} (stepped : activity.next thread world = .step after next) :
    world.MakesNothing after := by
  obtain ⟨focus, frames⟩ := activity
  cases focus with
  | run computation =>
      cases stepped
      exact .of_computation ..
  | answer outcome =>
      cases frames with
      | nil => cases stepped
      | cons frame frames =>
          cases stepped
          exact .of_outcome ..
  | applying number key stage =>
      simp only [Activity.next] at stepped
      split at stepped
      · cases stepped
      next cache found =>
        cases moved : cache.storage.advance cache.retention thread key stage with
        | wait => simp [moved, Move.progress] at stepped
        | go storage event following =>
            rw [moved] at stepped
            cases stepped
            refine (World.MakesNothing.setStorage world number storage).trans ?_
            cases event with
            | none => exact .refl _
            | some event => exact .record (Storage.usual_of_go moved number event rfl)
        | compute storage place =>
            rw [moved] at stepped
            cases stepped
            exact (World.MakesNothing.setStorage world number storage).trans (.record rfl)
        | finish storage outcome =>
            rw [moved] at stepped
            cases stepped
            exact .setStorage ..
  | counting number counting =>
      simp only [Activity.next] at stepped
      split at stepped
      · cases stepped
      · unfold CountMove.progress at stepped
        split at stepped <;> cases stepped
        · exact .setStorage ..
        · exact .refl world

theorem Activity.Comes.makesNothing {thread : Thread} {world after : World}
    {activity next : Activity} (comes : Comes thread world activity after next) :
    world.MakesNothing after := by
  obtain ⟨steps, proceeded⟩ := comes
  induction steps generalizing world activity with
  | zero =>
      obtain ⟨rfl, -⟩ : world = after ∧ activity = next := by simpa [proceed] using proceeded
      exact .refl _
  | succ steps induction =>
      simp only [proceed] at proceeded
      split at proceeded
      next stepped => exact (makesNothing_of_next stepped).trans (induction proceeded)
      · cases proceeded
      · cases proceeded

theorem World.EndAll.makesNothing {thread : Thread} {world after : World}
    {computations : List Computation} {outcomes : List Outcome}
    (endAll : world.EndAll thread computations after outcomes) : world.MakesNothing after := by
  induction endAll with
  | nil world => exact .refl world
  | cons first _ induction => exact (Activity.Comes.makesNothing first).trans induction

namespace System

theorem makesNothing_of_step {thread : Thread} {system after : System}
    (stepped : system.step thread = some after) : system.world.MakesNothing after.world := by
  obtain ⟨⟨current, pending, outcomes⟩, worker, world, present, moved, rfl⟩ := step_eq_some stepped
  cases current with
  | none =>
      cases pending <;> cases moved
      exact .refl _
  | some activity =>
      simp only [Worker.next] at moved
      split at moved <;> cases moved
      next progress => exact Activity.makesNothing_of_next progress
      next => exact .refl _

/-- In any program the log tells of every cache that was made. -/
theorem Reached.creations {limit : Nat} {system : System} (reached : system.Reached limit) :
    system.world.creations = system.world.caches.length := by
  induction reached with
  | refl => rfl
  | tail _ happens induction =>
      cases happens with
      | step thread stepped =>
          have nothing := makesNothing_of_step stepped
          rw [nothing.creations, nothing.caches, induction]
      | make makes =>
          cases makes with
          | define name function | create code => exact induction
          | memoize policy retention callable =>
              cases callable with
              | memoized number => exact induction
              | plain identity code =>
                  refine (List.countP_cons_of_pos rfl).trans ?_
                  simpa [World.memoize, World.record, World.creations] using induction
      | start tasks few done => exact induction

theorem makesNothing_of_finish {limit : Nat} {system after : System}
    (finished : finish limit system = some after) : system.world.MakesNothing after.world := by
  induction limit generalizing system with
  | zero => cases finished
  | succ limit induction =>
      simp only [finish] at finished
      split at finished
      · cases finished
        exact .refl _
      · simp only [Option.bind_eq_bind, Option.bind_eq_some_iff] at finished
        obtain ⟨middle, stepped, rest⟩ := finished
        exact (makesNothing_of_step stepped).trans (induction rest)

end System

namespace Step

/-- The name that a step gives to the function that it makes, if it makes one. -/
def target? : Step → Option String
  | define target _ | identity target | constant target _ _ | derive target _ _ _
  | andThen target _ _ | tryAndThen target _ _ | compose target _ _ => some target
  | apply _ _ target => target
  | map .. | describe .. | compare .. | threads .. => none

end Step

namespace World

variable {world after : World} {limit : Nat} {source target : String}

theorem makesNothing_of_run {computations : List (List Computation)} {system : System}
    (ran : world.run limit computations = .ok system) : world.MakesNothing system.world :=
  System.makesNothing_of_finish (Refusal.unlessSome_eq_ok.mp ran)

theorem makesNothing_of_applyAll {arguments : List (List (List Value))}
    {replies : List (List Reply)}
    (applied : world.applyAll limit source arguments = .ok (replies, after)) :
    world.MakesNothing after := by
  simp only [applyAll, Refusal.bind_eq_ok, Refusal.unlessSome_eq_ok, Except.ok.injEq,
    Prod.mk.injEq] at applied
  obtain ⟨function, -, computations, -, system, ran, replied, -, -, rfl⟩ := applied
  exact makesNothing_of_run ran

/-- What a step of a session has made: a function of some code, one that was derived, or what a
curried function gave for an argument. -/
inductive Makings (world : World) : Step → FunctionValue → World → Prop
  | code {step : Step} {shape : Shape} (kind : Kind) (code : Code) (uncurried : shape ≠ .curried)
      (other : ∀ target source transformation times,
        step ≠ .derive target source transformation times) :
      Makings world step ⟨shape, kind, (world.create code).1⟩ (world.create code).2
  | derived {target source : String} {transformation : Transformation} {times : Nat}
      {function result : FunctionValue} {after : World}
      (found : world.function? source = some function)
      (repeated : transformation.repeated times world function = some (result, after)) :
      Makings world (.derive target source transformation times) result after
  | supplied {source target : String} {function : FunctionValue} {argument : Value} {after : World}
      {callable : Callable} (found : world.function? source = some function)
      (curried : function.shape = .curried)
      (ends : world.Ends 0 (.apply function.callable argument) after (.ok (.callable callable))) :
      Makings world (.apply source [argument] (some target)) ⟨.one, function.kind, callable⟩ after

/-- What a step makes with a derivation. -/
theorem repeated_of_derive {transformation : Transformation} {times : Nat} {answer : Answer}
    (derived : world.derive target source transformation times = .ok (answer, after)) :
    ∃ function result middle, world.function? source = some function ∧
      transformation.repeated times world function = some (result, middle) ∧
      answer = .made result ∧ after = middle.define target result := by
  simp only [derive, Refusal.bind_eq_ok, Refusal.unlessSome_eq_ok, require_eq_ok, Except.ok.injEq,
    Prod.exists] at derived
  obtain ⟨function, found, result, middle, repeated, made⟩ := derived
  cases made
  exact ⟨function, result, middle, found, repeated, rfl, rfl⟩

/-- A function that applies another to its results, or to its argument first, is of some code. -/
theorem makings_of_following {step : Step} {transformation : Transformation}
    {function result : FunctionValue}
    (follows : (∃ later, transformation = .andThen later) ∨
      ∃ before, transformation = .compose before)
    (other : ∀ target source transformation times, step ≠ .derive target source transformation times)
    (repeated : transformation.repeated 1 world function = some (result, after)) :
    world.Makings step result after := by
  simp only [Transformation.repeated, Transformation.perform, Option.bind_eq_bind,
    Option.bind_eq_some_iff, Option.some.injEq, Prod.mk.injEq, Prod.exists] at repeated
  obtain ⟨_, _, ⟨shape, kind, allowed, rfl, rfl⟩, rfl, rfl⟩ := repeated
  rcases follows with ⟨later, rfl⟩ | ⟨before, rfl⟩
  · refine .code kind _ ?_ other
    simp only [Transformation.type?] at allowed
    split at allowed <;> cases allowed
    next fits => exact fits.1
  · refine .code kind _ ?_ other
    unfold Transformation.type? at allowed
    split at allowed <;> simp_all
    obtain ⟨taken, rfl, -⟩ := allowed
    rcases taken with taken | taken <;> simp [taken]

/-- A step of a session that makes a function makes it in one of these ways, and any other step makes
nothing. -/
theorem makings_of_perform {step : Step} {answer : Answer}
    (performed : world.perform limit step = .ok (answer, after)) :
    (∃ function middle target, answer = .made function ∧ step.target? = some target ∧
        after = middle.define target function ∧ world.Makings step function middle) ∨
      (∀ function, answer ≠ .made function) ∧ world.MakesNothing after := by
  cases step with
  | define target definition =>
      cases performed
      refine .inl ⟨_, _, target, rfl, rfl, rfl, .code _ _ ?_ (by simp)⟩
      unfold Definition.shape
      split <;> simp
  | identity target | constant target kind value =>
      cases performed
      exact .inl ⟨_, _, target, rfl, rfl, rfl, .code _ _ (by simp) (by simp)⟩
  | derive target source transformation times =>
      obtain ⟨function, result, middle, found, repeated, rfl, rfl⟩ := repeated_of_derive performed
      exact .inl ⟨result, middle, target, rfl, rfl, rfl, .derived found repeated⟩
  | andThen target source later | compose target source before =>
      simp only [perform, Refusal.bind_eq_ok] at performed
      obtain ⟨named, -, derived⟩ := performed
      obtain ⟨function, result, middle, -, repeated, rfl, rfl⟩ := repeated_of_derive derived
      exact .inl ⟨result, middle, target, rfl, rfl, rfl,
        makings_of_following (by simp) (by simp) repeated⟩
  | tryAndThen target source later =>
      cases later with
      | some later =>
          simp only [perform, Refusal.bind_eq_ok] at performed
          obtain ⟨named, -, derived⟩ := performed
          obtain ⟨function, result, middle, -, repeated, rfl, rfl⟩ := repeated_of_derive derived
          exact .inl ⟨result, middle, target, rfl, rfl, rfl,
            makings_of_following (by simp) (by simp) repeated⟩
      | none =>
          simp only [perform, Refusal.bind_eq_ok] at performed
          obtain ⟨function, -, answered⟩ := performed
          split at answered <;> cases answered
          exact .inr ⟨by simp, .refl world⟩
  | apply source arguments target =>
      have single : (Step.apply source arguments target).width ≤ 1 := Nat.le_refl 1
      cases performs_of_perform single performed with
      | rest still performed => cases still
      | apply found full applies =>
          obtain ⟨computations, outcomes, -, endAll, -⟩ := applies
          exact .inr ⟨by simp, endAll.makesNothing⟩
      | supply found curried ends =>
          exact .inl ⟨_, _, _, rfl, rfl, rfl, .supplied found curried ends⟩
      | fail found curried ends =>
          exact .inr ⟨by simp, Activity.Comes.makesNothing ends⟩
  | map source arguments =>
      simp only [perform, Refusal.bind_eq_ok, Prod.exists] at performed
      obtain ⟨replies, middle, applied, answered⟩ := performed
      cases answered
      exact .inr ⟨by simp, makesNothing_of_applyAll applied⟩
  | describe source =>
      simp only [perform, Refusal.bind_eq_ok] at performed
      obtain ⟨function, -, answered⟩ := performed
      cases answered
      exact .inr ⟨by simp, .refl world⟩
  | compare left right =>
      simp only [perform, Refusal.bind_eq_ok] at performed
      obtain ⟨function, -, other, -, answered⟩ := performed
      split at answered <;> cases answered
      exact .inr ⟨by simp, .refl world⟩
  | threads source arguments =>
      simp only [perform, Refusal.bind_eq_ok, Prod.exists] at performed
      obtain ⟨replies, middle, applied, answered⟩ := performed
      cases answered
      exact .inr ⟨by simp, makesNothing_of_applyAll applied⟩

end World

end FunctionValues
