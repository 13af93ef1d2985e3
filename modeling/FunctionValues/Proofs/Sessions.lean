import FunctionValues.Proofs.Runs

/-!
# Sessions of a single thread

What the steps of a session come to, whatever the limit on a run: `World.Performs` says which answer
a step has and which world it leaves, and `World.perform` gives just that as soon as its limit is
large enough. Every session is among the programs that can be reached.
-/

namespace FunctionValues

namespace Refusal

theorem bind_eq_ok {α β : Type} {first : Except Refusal α} {next : α → Except Refusal β}
    {result : β} :
    (first >>= next) = .ok result ↔ ∃ value, first = .ok value ∧ next value = .ok result := by
  cases first with
  | ok value => simp [bind, Except.bind]
  | error refusal => simp [bind, Except.bind]

theorem unlessSome_eq_ok {α : Type} {refusal : Refusal} {option : Option α} {result : α} :
    refusal.unlessSome option = .ok result ↔ option = some result := by
  cases option with
  | some value => simp [unlessSome]
  | none => simp [unlessSome]

end Refusal

/-- A list is mapped to another when every item is. -/
theorem mapM_eq_some {α β : Type} {change : α → Option β} {items : List α} {results : List β} :
    items.mapM change = some results ↔
      List.Forall₂ (fun item result => change item = some result) items results := by
  induction items generalizing results with
  | nil => simp [eq_comm]
  | cons item items induction =>
      simp only [List.mapM_cons, Option.pure_def, Option.bind_eq_bind, Option.bind_eq_some_iff,
        Option.some.injEq, induction, List.forall₂_cons_left_iff]
      constructor
      · rintro ⟨result, first, results', rest, rfl⟩
        exact ⟨result, results', first, rest, rfl⟩
      · rintro ⟨result, results', first, rest, rfl⟩
        exact ⟨result, first, results', rest, rfl⟩

theorem forall₂_modify {α β : Type} {related : α → β → Prop} {items : List α}
    {others : List β} (each : List.Forall₂ related items others) {position : Nat}
    {change : α → α} {change' : β → β}
    (changed : ∀ item item', items[position]? = some item → others[position]? = some item' →
      related (change item) (change' item')) :
    List.Forall₂ related (items.modify position change) (others.modify position change') := by
  induction each generalizing position with
  | nil => simp
  | cons first rest induction =>
      cases position with
      | zero =>
          simp only [List.modify_zero_cons]
          exact .cons (changed _ _ rfl rfl) rest
      | succ position =>
          simp only [List.modify_succ_cons]
          exact .cons first (induction changed)

namespace World

variable {world after : World} {limit : Nat} {source target : String} {function : FunctionValue}

theorem require_eq_ok :
    world.require source = .ok function ↔ world.function? source = some function :=
  Refusal.unlessSome_eq_ok

/-! ## Everything that a session does can happen -/

theorem reaches_of_run {threads : Nat} {computations : List (List Computation)} {system : System}
    (few : computations.length ≤ threads) (ran : world.run limit computations = .ok system) :
    System.Reaches threads ⟨world, []⟩ ⟨system.world, []⟩ := by
  have finished := Refusal.unlessSome_eq_ok.mp ran
  obtain ⟨reaches, done⟩ := System.reaches_of_finish threads finished
  have start : System.Happens threads ⟨world, []⟩
      (.ofTasks world (computations.map (·.map .run))) := .start _ (by simpa using few) (by simp)
  have rest : System.Happens threads system ⟨system.world, []⟩ :=
    .start [] (Nat.zero_le _) done
  exact .head start (.tail reaches rest)

theorem reaches_introduce (threads : Nat) (world : World) (target : String)
    (function : FunctionValue) :
    System.Reaches threads ⟨world, []⟩ ⟨(world.introduce target function).2, []⟩ :=
  .single (.make (.define world target function))

theorem reaches_introduceCode (threads : Nat) (world : World) (target : String) (shape : Shape)
    (kind : Kind) (code : Code) :
    System.Reaches threads ⟨world, []⟩ ⟨(world.introduceCode target shape kind code).2, []⟩ :=
  .head (.make (.create world code)) (reaches_introduce ..)

theorem reaches_of_callable (threads : Nat) (world : World) (source : Callable)
    (transformation : Transformation) :
    System.Reaches threads ⟨world, []⟩ ⟨(transformation.callable world source).2, []⟩ := by
  cases transformation with
  | clone => exact .refl
  | memoize policy retention => exact .single (.make (.memoize ..))
  | rewrap | tuple | fixFirst first | curry | reverse | coerce kind | andThen later
  | compose before => exact .single (.make (.create ..))

theorem reaches_of_transformation {transformation : Transformation} {result : FunctionValue}
    (threads : Nat) (performed : transformation.perform world function = some (result, after)) :
    System.Reaches threads ⟨world, []⟩ ⟨after, []⟩ := by
  simp only [Transformation.perform, Option.bind_eq_bind, Option.bind_eq_some_iff, Option.some.injEq,
    Prod.mk.injEq] at performed
  obtain ⟨-, -, -, rfl⟩ := performed
  exact reaches_of_callable ..

theorem reaches_of_repeated {transformation : Transformation} {times : Nat} {result : FunctionValue}
    (threads : Nat) (performed : transformation.repeated times world function = some (result, after)) :
    System.Reaches threads ⟨world, []⟩ ⟨after, []⟩ := by
  induction times generalizing world function with
  | zero =>
      obtain ⟨-, rfl⟩ : function = result ∧ world = after := by
        simpa [Transformation.repeated] using performed
      exact .refl
  | succ times induction =>
      simp only [Transformation.repeated, Option.bind_eq_bind, Option.bind_eq_some_iff,
        Prod.exists] at performed
      obtain ⟨middle, world', first, rest⟩ := performed
      exact (reaches_of_transformation threads first).trans (induction rest)

theorem reaches_of_derive {transformation : Transformation} {times : Nat} {answer : Answer}
    (threads : Nat) (derived : world.derive target source transformation times = .ok (answer, after)) :
    System.Reaches threads ⟨world, []⟩ ⟨after, []⟩ := by
  simp only [derive, Refusal.bind_eq_ok, Refusal.unlessSome_eq_ok, Except.ok.injEq,
    Prod.exists] at derived
  obtain ⟨function, -, result, middle, performed, made⟩ := derived
  obtain rfl : (middle.introduce target result).2 = after := congrArg Prod.snd made
  exact (reaches_of_repeated threads performed).trans (reaches_introduce ..)

theorem reaches_of_applyAll {threads : Nat} {arguments : List (List (List Value))}
    {replies : List (List Reply)} (few : arguments.length ≤ threads)
    (applied : world.applyAll limit source arguments = .ok (replies, after)) :
    System.Reaches threads ⟨world, []⟩ ⟨after, []⟩ := by
  simp only [applyAll, Refusal.bind_eq_ok, Refusal.unlessSome_eq_ok, Except.ok.injEq,
    Prod.mk.injEq] at applied
  obtain ⟨function, -, computations, invoked, system, ran, replied, -, -, rfl⟩ := applied
  exact reaches_of_run ((mapM_eq_some.mp invoked).length_eq ▸ few) ran

end World

namespace Step

/-- The number of threads that a step lets run at a time. -/
def width : Step → Nat
  | threads _ arguments => arguments.length
  | _ => 1

/-- Whether a step runs functions. -/
def runs : Step → Bool
  | apply .. | map .. | threads .. => true
  | _ => false

end Step

namespace World

variable {world after : World} {limit : Nat}

theorem reaches_of_perform {threads : Nat} {step : Step} {answer : Answer}
    (few : step.width ≤ threads) (performed : world.perform limit step = .ok (answer, after)) :
    System.Reaches threads ⟨world, []⟩ ⟨after, []⟩ := by
  cases step with
  | define target definition =>
      obtain rfl : (world.introduceCode target _ _ _).2 = after :=
        congrArg Prod.snd (Except.ok.inj performed)
      exact reaches_introduceCode ..
  | identity target | constant target kind value =>
      obtain rfl : (world.introduceCode target _ _ _).2 = after :=
        congrArg Prod.snd (Except.ok.inj performed)
      exact reaches_introduceCode ..
  | derive target source transformation times => exact reaches_of_derive threads performed
  | andThen target source later | compose target source before =>
      simp only [perform, Refusal.bind_eq_ok] at performed
      obtain ⟨_, _, derived⟩ := performed
      exact reaches_of_derive threads derived
  | tryAndThen target source later =>
      cases later with
      | some later =>
          simp only [perform, Refusal.bind_eq_ok] at performed
          obtain ⟨_, _, derived⟩ := performed
          exact reaches_of_derive threads derived
      | none =>
          simp only [perform, Refusal.bind_eq_ok] at performed
          obtain ⟨function, -, answered⟩ := performed
          split at answered <;> cases answered
          exact .refl
  | apply source arguments target =>
      simp only [perform, Refusal.bind_eq_ok] at performed
      obtain ⟨function, -, answered⟩ := performed
      split at answered
      next argument target _ =>
        simp only [supply, Refusal.bind_eq_ok] at answered
        obtain ⟨system, ran, answered⟩ := answered
        have reaches := reaches_of_run few ran
        split at answered <;> cases answered
        · exact reaches.trans (reaches_introduce ..)
        · exact reaches
      next =>
        simp only [Refusal.bind_eq_ok, Prod.exists] at answered
        obtain ⟨replies, middle, applied, answered⟩ := answered
        split at answered
        next same =>
          cases same
          cases answered
          refine reaches_of_applyAll ?_ applied
          exact few
        next => cases answered
  | map source arguments =>
      simp only [perform, Refusal.bind_eq_ok, Prod.exists] at performed
      obtain ⟨replies, middle, applied, answered⟩ := performed
      cases answered
      refine reaches_of_applyAll ?_ applied
      exact few
  | describe source =>
      simp only [perform, Refusal.bind_eq_ok] at performed
      obtain ⟨function, -, answered⟩ := performed
      cases answered
      exact .refl
  | compare left right =>
      simp only [perform, Refusal.bind_eq_ok] at performed
      obtain ⟨function, -, other, -, answered⟩ := performed
      split at answered <;> cases answered
      exact .refl
  | threads source arguments =>
      simp only [perform, Refusal.bind_eq_ok, Prod.exists] at performed
      obtain ⟨replies, middle, applied, answered⟩ := performed
      cases answered
      exact reaches_of_applyAll few applied

theorem reaches_of_session {threads : Nat} {steps : List Step} {reports : List Report}
    (few : ∀ step ∈ steps, step.width ≤ threads)
    (performed : world.session limit steps = .ok (reports, after)) :
    System.Reaches threads ⟨world, []⟩ ⟨after, []⟩ := by
  induction steps generalizing world reports with
  | nil =>
      obtain rfl : world = after := congrArg Prod.snd (Except.ok.inj performed)
      exact .refl
  | cons step steps induction =>
      simp only [session, report, Refusal.bind_eq_ok, Prod.exists] at performed
      obtain ⟨first, middle, ⟨answer, _, stepped, reported⟩, rest, last, onward, ended⟩ := performed
      cases reported
      cases ended
      rw [List.forall_mem_cons] at few
      exact (reaches_of_perform few.1 stepped).trans (induction few.2 onward)

theorem isSound_empty : IsSound {} :=
  System.Reached.sound (.refl : System.Reached 0 ⟨{}, []⟩)

theorem IsSound.perform {step : Step} {answer : Answer} (sound : world.IsSound)
    (performed : world.perform limit step = .ok (answer, after)) : after.IsSound :=
  System.Sound.of_reaches sound (reaches_of_perform (Nat.le_refl _) performed)

/-- The caches of every session are sound after every step. -/
theorem IsSound.session {steps : List Step} {reports : List Report} (sound : world.IsSound)
    (performed : world.session limit steps = .ok (reports, after)) : after.IsSound := by
  induction steps generalizing world reports with
  | nil =>
      cases performed
      exact sound
  | cons step steps induction =>
      simp only [World.session, report, Refusal.bind_eq_ok, Prod.exists] at performed
      obtain ⟨first, middle, ⟨answer, _, stepped, reported⟩, rest, last, onward, ended⟩ := performed
      cases reported
      cases ended
      exact induction (sound.perform stepped) onward

/-- The world of every session can be reached. -/
theorem reached_of_session {threads : Nat} {steps : List Step} {reports : List Report}
    (few : ∀ step ∈ steps, step.width ≤ threads)
    (performed : World.session {} limit steps = .ok (reports, after)) :
    System.Reached threads ⟨after, []⟩ :=
  reaches_of_session few performed

/-! ## Steps of a single thread -/

variable {source target : String} {function : FunctionValue} {arguments : List (List Value)}
  {replies : List Reply}

/-- A single thread applies a function to one list of arguments after another. -/
def Applies (world : World) (function : FunctionValue) (arguments : List (List Value))
    (after : World) (replies : List Reply) : Prop :=
  ∃ computations outcomes,
    List.Forall₂ (fun supplied computation => function.invoke? supplied = some computation)
      arguments computations ∧
    world.EndAll 0 computations after outcomes ∧
    List.Forall₂ (fun outcome reply => Outcome.reply? outcome = some reply) outcomes replies

theorem Applies.log (applies : world.Applies function arguments after replies) :
    world.log <:+ after.log := by
  obtain ⟨computations, outcomes, -, endAll, -⟩ := applies
  exact endAll.log

/-- What a step of a single thread comes to, whatever the limit on a run. -/
inductive Performs (world : World) : Step → Answer → World → Prop
  /-- Nothing runs. -/
  | rest {step : Step} {answer : Answer} {after : World} (still : step.runs = false)
      (performed : ∀ limit, world.perform limit step = .ok (answer, after)) :
      Performs world step answer after
  | apply {source : String} {function : FunctionValue} {arguments : List Value}
      {target : Option String} {after : World} {reply : Reply}
      (found : world.function? source = some function)
      (full : ¬(function.shape = .curried ∧ arguments.length = 1 ∧ target.isSome = true))
      (applies : world.Applies function [arguments] after [reply]) :
      Performs world (.apply source arguments target) (.reply reply) after
  | supply {source target : String} {function : FunctionValue} {argument : Value} {after : World}
      {callable : Callable} (found : world.function? source = some function)
      (curried : function.shape = .curried)
      (ends : world.Ends 0 (.apply function.callable argument) after (.ok (.callable callable))) :
      Performs world (.apply source [argument] (some target))
        (.made ⟨.one, function.kind, callable⟩)
        (after.define target ⟨.one, function.kind, callable⟩)
  | fail {source target : String} {function : FunctionValue} {argument : Value} {after : World}
      {failure : Failure} (found : world.function? source = some function)
      (curried : function.shape = .curried)
      (ends : world.Ends 0 (.apply function.callable argument) after (.error failure)) :
      Performs world (.apply source [argument] (some target)) (.reply (.error failure)) after
  | map {source : String} {function : FunctionValue} {arguments : List (List Value)} {after : World}
      {replies : List Reply} (found : world.function? source = some function)
      (applies : world.Applies function arguments after replies) :
      Performs world (.map source arguments) (.replies replies) after
  | thread {source : String} {function : FunctionValue} {arguments : List (List Value)}
      {after : World} {replies : List Reply} (found : world.function? source = some function)
      (applies : world.Applies function arguments after replies) :
      Performs world (.threads source [arguments])
        (.threads [replies] (after.entriesSince world)) after
  | idle {source : String} {function : FunctionValue}
      (found : world.function? source = some function) :
      Performs world (.threads source []) (.threads [] []) world

theorem endAll_of_run {computations : List Computation} {system : System}
    (ran : world.run limit [computations] = .ok system) :
    ∃ outcomes, world.EndAll 0 computations system.world outcomes ∧ system.outcomes = [outcomes] := by
  have finished := Refusal.unlessSome_eq_ok.mp ran
  obtain ⟨after, outcomes, endAll, rfl⟩ := System.endAll_of_finish finished
  exact ⟨outcomes, endAll, rfl⟩

theorem run_of_endAll {computations : List Computation} {outcomes : List Outcome}
    (endAll : world.EndAll 0 computations after outcomes) :
    ∃ enough, ∀ limit, enough ≤ limit →
      world.run limit [computations] = .ok ⟨after, [⟨none, [], outcomes⟩]⟩ := by
  obtain ⟨enough, finished⟩ : ∃ limit, System.finish limit
      ⟨world, [⟨none, computations.map .run, []⟩]⟩ = _ := System.finish_of_endAll endAll
  refine ⟨enough, fun limit least => Refusal.unlessSome_eq_ok.mpr ?_⟩
  have raised := System.finish_mono (limit - enough) finished
  rw [Nat.add_sub_cancel' least] at raised
  exact raised

theorem applies_of_applyAll {results : List (List Reply)}
    (applied : world.applyAll limit source [arguments] = .ok (results, after)) :
    ∃ function replies, world.function? source = some function ∧
      world.Applies function arguments after replies ∧ results = [replies] := by
  simp only [applyAll, Refusal.bind_eq_ok, Refusal.unlessSome_eq_ok, require_eq_ok, Except.ok.injEq,
    Prod.mk.injEq, mapM_eq_some] at applied
  obtain ⟨function, found, _, invoked, system, ran, _, replied, rfl, rfl⟩ := applied
  obtain _ | ⟨invoked, _ | _⟩ := invoked
  obtain ⟨outcomes, endAll, ended⟩ := endAll_of_run ran
  rw [ended] at replied
  obtain _ | ⟨replied, _ | _⟩ := replied
  exact ⟨function, _, found, ⟨_, outcomes, invoked, endAll, replied⟩, rfl⟩

theorem applyAll_nil (found : world.function? source = some function) (limit : Nat) :
    world.applyAll (limit + 1) source [] = .ok ([], world) := by
  simp only [applyAll, Refusal.bind_eq_ok, Refusal.unlessSome_eq_ok, require_eq_ok, Except.ok.injEq,
    Prod.mk.injEq, mapM_eq_some]
  exact ⟨function, found, [], .nil, ⟨world, []⟩, rfl, [], .nil, rfl, rfl⟩

theorem eq_of_applyAll_nil {results : List (List Reply)}
    (applied : world.applyAll limit source [] = .ok (results, after)) :
    ∃ function, world.function? source = some function ∧ results = [] ∧ after = world := by
  cases required : world.require source with
  | error refusal =>
      rw [applyAll, required] at applied
      cases applied
  | ok function =>
      have found := require_eq_ok.mp required
      cases limit with
      | zero =>
          rw [applyAll, required] at applied
          cases applied
      | succ limit =>
          rw [applyAll_nil found] at applied
          cases applied
          exact ⟨function, found, rfl, rfl⟩

theorem applyAll_of_applies (found : world.function? source = some function)
    (applies : world.Applies function arguments after replies) :
    ∃ enough, ∀ limit, enough ≤ limit →
      world.applyAll limit source [arguments] = .ok ([replies], after) := by
  obtain ⟨computations, outcomes, invoked, endAll, replied⟩ := applies
  obtain ⟨enough, ran⟩ := run_of_endAll endAll
  refine ⟨enough, fun limit least => ?_⟩
  simp only [applyAll, Refusal.bind_eq_ok, Refusal.unlessSome_eq_ok, require_eq_ok, Except.ok.injEq,
    Prod.mk.injEq, mapM_eq_some]
  exact ⟨function, found, _, .cons invoked .nil, _, ran limit least, _, .cons replied .nil, rfl, rfl⟩

/-- What a step of a single thread comes to does not depend on the limit on a run. -/
theorem performs_of_perform {step : Step} {answer : Answer} (single : step.width ≤ 1)
    (performed : world.perform limit step = .ok (answer, after)) :
    world.Performs step answer after := by
  cases step with
  | define target definition => exact .rest rfl fun _ => performed
  | identity target => exact .rest rfl fun _ => performed
  | constant target kind value => exact .rest rfl fun _ => performed
  | derive target source transformation times => exact .rest rfl fun _ => performed
  | andThen target source later => exact .rest rfl fun _ => performed
  | compose target source before => exact .rest rfl fun _ => performed
  | tryAndThen target source later => cases later <;> exact .rest rfl fun _ => performed
  | describe source => exact .rest rfl fun _ => performed
  | compare left right => exact .rest rfl fun _ => performed
  | apply source arguments target =>
      simp only [perform, Refusal.bind_eq_ok, require_eq_ok] at performed
      obtain ⟨function, found, answered⟩ := performed
      split at answered
      next argument target curried =>
        simp only [supply, Refusal.bind_eq_ok] at answered
        obtain ⟨system, ran, answered⟩ := answered
        obtain ⟨outcomes, endAll, ended⟩ := endAll_of_run ran
        obtain _ | ⟨ends, _ | _⟩ := endAll
        rw [ended] at answered
        split at answered
        next callable same =>
          cases same
          cases answered
          exact .supply found curried ends
        next failure same =>
          cases same
          cases answered
          exact .fail found curried ends
        next => cases answered
      next other =>
        simp only [Refusal.bind_eq_ok, Prod.exists] at answered
        obtain ⟨replies, middle, applied, answered⟩ := answered
        obtain ⟨function', replies', found', applies, rfl⟩ := applies_of_applyAll applied
        obtain rfl : function = function' := Option.some.inj (found.symm.trans found')
        split at answered
        next same =>
          cases same
          cases answered
          refine .apply found (fun supplied => ?_) applies
          obtain ⟨curried, one, known⟩ := supplied
          obtain ⟨argument, rfl⟩ := List.length_eq_one_iff.mp one
          obtain ⟨name, rfl⟩ := Option.isSome_iff_exists.mp known
          exact other argument name curried rfl rfl
        next => cases answered
  | map source arguments =>
      simp only [perform, Refusal.bind_eq_ok, Prod.exists] at performed
      obtain ⟨replies, middle, applied, answered⟩ := performed
      obtain ⟨function, replies', found, applies, rfl⟩ := applies_of_applyAll applied
      cases answered
      simpa using Performs.map found applies
  | threads source arguments =>
      simp only [perform, Refusal.bind_eq_ok, Prod.exists] at performed
      obtain ⟨replies, middle, applied, answered⟩ := performed
      cases answered
      match arguments, single with
      | [], _ =>
          obtain ⟨function, found, rfl, rfl⟩ := eq_of_applyAll_nil applied
          simpa [entriesSince] using Performs.idle found
      | [arguments], _ =>
          obtain ⟨function, replies', found, applies, rfl⟩ := applies_of_applyAll applied
          exact .thread found applies

/-- A step of a single thread is performed as soon as the limit on a run is large enough. -/
theorem perform_of_performs {step : Step} {answer : Answer}
    (performs : world.Performs step answer after) :
    ∃ enough, ∀ limit, enough ≤ limit → world.perform limit step = .ok (answer, after) := by
  cases performs with
  | rest _ performed => exact ⟨0, fun limit _ => performed limit⟩
  | @apply _ function arguments target _ reply found full applies =>
      obtain ⟨enough, applied⟩ := applyAll_of_applies found applies
      refine ⟨enough, fun limit least => ?_⟩
      simp only [perform, Refusal.bind_eq_ok, require_eq_ok]
      refine ⟨function, found, ?_⟩
      split
      next curried => exact absurd ⟨curried, rfl, rfl⟩ full
      next => rw [applied limit least]; rfl
  | @supply _ target function argument after callable found curried ends =>
      obtain ⟨enough, ran⟩ := run_of_endAll (.cons ends (.nil _))
      refine ⟨enough, fun limit least => ?_⟩
      simp only [perform, Refusal.bind_eq_ok, require_eq_ok]
      refine ⟨function, found, ?_⟩
      simp only [curried, supply, ran limit least]
      rfl
  | @fail _ target function argument after failure found curried ends =>
      obtain ⟨enough, ran⟩ := run_of_endAll (.cons ends (.nil _))
      refine ⟨enough, fun limit least => ?_⟩
      simp only [perform, Refusal.bind_eq_ok, require_eq_ok]
      refine ⟨function, found, ?_⟩
      simp only [curried, supply, ran limit least]
      rfl
  | map found applies =>
      obtain ⟨enough, applied⟩ := applyAll_of_applies found applies
      refine ⟨enough, fun limit least => ?_⟩
      simp only [perform, applied limit least]
      simp [bind, Except.bind]
  | thread found applies =>
      obtain ⟨enough, applied⟩ := applyAll_of_applies found applies
      refine ⟨enough, fun limit least => ?_⟩
      simp only [perform, applied limit least]
      rfl
  | idle found =>
      refine ⟨1, fun limit least => ?_⟩
      obtain ⟨limit, rfl⟩ := Nat.exists_eq_add_of_le' least
      simp only [perform, applyAll_nil found]
      simp [bind, Except.bind, entriesSince]

/-- An application that is answered with a reply has ended with it. -/
theorem ends_of_perform {arguments : List Value} {reply : Reply}
    (performed : world.perform limit (.apply source arguments none) = .ok (.reply reply, after)) :
    ∃ function computation outcome, world.function? source = some function ∧
      function.invoke? arguments = some computation ∧ world.Ends 0 computation after outcome ∧
      outcome.reply? = some reply := by
  have single : (Step.apply source arguments none).width ≤ 1 := Nat.le_refl 1
  cases performs_of_perform single performed with
  | rest still performed => cases still
  | apply found full applies =>
      obtain ⟨computations, outcomes, invoked, endAll, replied⟩ := applies
      obtain _ | ⟨invoked, _ | _⟩ := invoked
      obtain _ | ⟨replied, _ | _⟩ := replied
      obtain _ | ⟨ends, _ | _⟩ := endAll
      exact ⟨_, _, _, found, invoked, ends, replied⟩

theorem perform_of_ends {arguments : List Value} {computation : Computation} {outcome : Outcome}
    {reply : Reply} (found : world.function? source = some function)
    (invoked : function.invoke? arguments = some computation)
    (ends : world.Ends 0 computation after outcome) (replied : outcome.reply? = some reply) :
    ∃ enough, ∀ limit, enough ≤ limit →
      world.perform limit (.apply source arguments none) = .ok (.reply reply, after) :=
  perform_of_performs (.apply found (by simp)
    ⟨[computation], [outcome], .cons invoked .nil, .cons ends (.nil after), .cons replied .nil⟩)

theorem Performs.reaches {step : Step} {answer : Answer} (performs : world.Performs step answer after) :
    System.Reaches step.width ⟨world, []⟩ ⟨after, []⟩ := by
  obtain ⟨enough, performed⟩ := perform_of_performs performs
  exact reaches_of_perform (Nat.le_refl _) (performed enough (Nat.le_refl _))

theorem Performs.log {step : Step} {answer : Answer} (performs : world.Performs step answer after) :
    world.log <:+ after.log :=
  System.Reaches.log performs.reaches

theorem Performs.isSound {step : Step} {answer : Answer} (performs : world.Performs step answer after)
    (sound : world.IsSound) : after.IsSound :=
  System.Sound.of_reaches sound performs.reaches

/-! ## Sessions of a single thread -/

/-- What is seen of a step that has an answer and leaves a world. -/
def seen (world : World) (answer : Answer) (after : World) : Report where
  answer := answer
  trace := match answer with
    | .threads .. => []
    | _ => after.entriesSince world
  sizes := after.sizes

theorem report_eq_ok {step : Step} {report : Report} :
    world.report limit step = .ok (report, after) ↔
      ∃ answer, world.perform limit step = .ok (answer, after) ∧ report = world.seen answer after := by
  simp only [World.report, Refusal.bind_eq_ok, Except.ok.injEq, Prod.mk.injEq, Prod.exists]
  constructor
  · rintro ⟨answer, middle, performed, rfl, rfl⟩
    exact ⟨answer, performed, rfl⟩
  · rintro ⟨answer, performed, rfl⟩
    exact ⟨answer, after, performed, rfl, rfl⟩

theorem session_append {first second : List Step} {reports : List Report}
    (performed : world.session limit (first ++ second) = .ok (reports, after)) :
    ∃ middle earlier later, world.session limit first = .ok (earlier, middle) ∧
      middle.session limit second = .ok (later, after) := by
  induction first generalizing world reports with
  | nil => exact ⟨world, [], reports, rfl, performed⟩
  | cons step first induction =>
      simp only [List.cons_append, session, Refusal.bind_eq_ok, Prod.exists] at performed ⊢
      obtain ⟨report, next, reported, rest, _, onward, ended⟩ := performed
      cases ended
      obtain ⟨middle, earlier, later, before, behind⟩ := induction onward
      exact ⟨middle, _, later, ⟨report, next, reported, earlier, middle, before, rfl⟩, behind⟩

/-- What the steps of a session of a single thread come to, whatever the limit on a run. -/
inductive PerformsAll : World → List Step → List Report → World → Prop
  | nil (world : World) : PerformsAll world [] [] world
  | cons {world middle after : World} {step : Step} {steps : List Step} {answer : Answer}
      {reports : List Report} (first : world.Performs step answer middle)
      (rest : PerformsAll middle steps reports after) :
      PerformsAll world (step :: steps) (world.seen answer middle :: reports) after

theorem performsAll_of_session {steps : List Step} {reports : List Report}
    (single : ∀ step ∈ steps, step.width ≤ 1)
    (performed : world.session limit steps = .ok (reports, after)) :
    world.PerformsAll steps reports after := by
  induction steps generalizing world reports with
  | nil =>
      cases performed
      exact .nil _
  | cons step steps induction =>
      simp only [session, Refusal.bind_eq_ok, Prod.exists, report_eq_ok] at performed
      obtain ⟨_, middle, ⟨answer, first, rfl⟩, rest, _, onward, ended⟩ := performed
      cases ended
      rw [List.forall_mem_cons] at single
      exact .cons (performs_of_perform single.1 first) (induction single.2 onward)

theorem PerformsAll.log {world after : World} {steps : List Step} {reports : List Report}
    (performs : world.PerformsAll steps reports after) : world.log <:+ after.log := by
  induction performs with
  | nil world => exact List.suffix_refl _
  | cons first _ induction => exact first.log.trans induction

/-- The steps of a single thread are performed as soon as the limit on a run is large enough. -/
theorem session_of_performsAll {world after : World} {steps : List Step} {reports : List Report}
    (performs : world.PerformsAll steps reports after) :
    ∃ enough, ∀ limit, enough ≤ limit → world.session limit steps = .ok (reports, after) := by
  induction performs with
  | nil => exact ⟨0, fun _ _ => rfl⟩
  | @cons world middle after step steps answer reports first _ induction =>
      obtain ⟨enough, performed⟩ := perform_of_performs first
      obtain ⟨enough', onward⟩ := induction
      refine ⟨max enough enough', fun limit least => ?_⟩
      simp only [session, Refusal.bind_eq_ok, Prod.exists, report_eq_ok]
      exact ⟨_, middle, ⟨answer, performed limit (by omega), rfl⟩, reports, after,
        onward limit (by omega), rfl⟩

end World

end FunctionValues
