import FunctionValues.Proofs.MirroredRuns
import FunctionValues.Proofs.Renumbering

/-!
# Memoization per key is transparent

A session makes functions of code without state, some of them memoized under one lock for each
argument, and applies them; another makes the same functions without memoization. Whatever was
applied before, an application that ends in the second session ends with the same reply in the first.
-/

namespace FunctionValues

/-! ## Sessions with and without memoization -/

namespace Transformation

/-- Whether a transformation makes functions of code without state, and serves different arguments
independently if it memoizes. A function that is put into another has to have a name. -/
def isPure : Transformation → Bool
  | fixFirst first => first.isExact
  | memoize policy _ => decide (policy = .perKey)
  | andThen _ | compose _ => false
  | _ => true

/-- Share a function where it would be memoized. -/
def unmemoized : Transformation → Transformation
  | memoize _ _ => clone
  | transformation => transformation

end Transformation

namespace Step

/-- Whether a step makes functions of code without state, or asks about functions. -/
def isPure : Step → Bool
  | define _ definition => definition.body.isPure
  | constant _ _ value => value.isExact
  | derive _ _ transformation _ => transformation.isPure
  | apply .. | map .. | threads .. => false
  | _ => true

/-- Share a function where it would be memoized. -/
def unmemoized : Step → Step
  | derive target source transformation times =>
    derive target source transformation.unmemoized times
  | step => step

/-- Whether a step applies functions to exact arguments, without giving a name to what comes back, or
asks about functions. -/
def isApplication : Step → Bool
  | apply _ arguments none => Value.allExact arguments
  | map _ arguments => arguments.all Value.allExact
  | threads _ arguments => arguments.all (·.all Value.allExact)
  | describe _ | compare _ _ => true
  | _ => false

end Step

variable {origin more : List Callable}

/-! ## Making functions -/

/-- A transformation mirrors another, which does not memoize. -/
inductive Transformation.Mirrors (origin : List Callable) : Transformation → Transformation → Prop
  | clone : Mirrors origin .clone .clone
  | rewrap : Mirrors origin .rewrap .rewrap
  | fixFirst {first : Value} (exact : first.isExact = true) :
      Mirrors origin (.fixFirst first) (.fixFirst first)
  | curry : Mirrors origin .curry .curry
  | tuple : Mirrors origin .tuple .tuple
  | reverse : Mirrors origin .reverse .reverse
  | memoize (retention : Retention) : Mirrors origin (.memoize .perKey retention) .clone
  | coerce (kind : Kind) : Mirrors origin (.coerce kind) (.coerce kind)
  | andThen {later later' : FunctionValue} (given : later.Mirrors origin later') :
      Mirrors origin (.andThen later) (.andThen later')
  | compose {before before' : FunctionValue} (given : before.Mirrors origin before') :
      Mirrors origin (.compose before) (.compose before')

theorem FunctionValue.Mirrors.append {function function' : FunctionValue}
    (mirrors : function.Mirrors origin function') : function.Mirrors (origin ++ more) function' :=
  ⟨mirrors.shape, mirrors.kind, Computation.Mirrors.append mirrors.callable⟩

theorem FunctionValue.AllMirror.append {functions functions' : List (String × FunctionValue)}
    (mirror : AllMirror origin functions functions') :
    AllMirror (origin ++ more) functions functions' :=
  mirror.imp fun _ _ same => ⟨same.1, same.2.append⟩

namespace Transformation.Mirrors

variable {transformation transformation' : Transformation}

theorem append (mirrors : transformation.Mirrors origin transformation') :
    transformation.Mirrors (origin ++ more) transformation' := by
  cases mirrors with
  | clone => exact .clone
  | rewrap => exact .rewrap
  | fixFirst exact => exact .fixFirst exact
  | curry => exact .curry
  | tuple => exact .tuple
  | reverse => exact .reverse
  | memoize retention => exact .memoize retention
  | coerce kind => exact .coerce kind
  | andThen given => exact .andThen given.append
  | compose given => exact .compose given.append

theorem of_isPure (pure : transformation.isPure = true) :
    transformation.Mirrors origin transformation.unmemoized := by
  cases transformation with
  | clone => exact .clone
  | rewrap => exact .rewrap
  | fixFirst first => exact .fixFirst pure
  | curry => exact .curry
  | tuple => exact .tuple
  | reverse => exact .reverse
  | memoize policy retention =>
      obtain rfl : policy = .perKey := by simpa [Transformation.isPure] using pure
      exact .memoize retention
  | coerce kind => exact .coerce kind
  | andThen later | compose before => cases pure

/-- What a transformation is defined for, its mirror is defined for. -/
theorem type? (mirrors : transformation.Mirrors origin transformation') {shape : Shape} {kind : Kind}
    {result : Shape × Kind} (typed : transformation.type? shape kind = some result) :
    transformation'.type? shape kind = some result := by
  cases mirrors with
  | memoize retention =>
      cases retention with
      | all => exact typed
      | successes =>
          cases kind <;> simp only [Transformation.type?] at typed ⊢
          · cases typed
          · cases typed
          · split at typed
            · cases typed
            · exact typed
  | andThen given =>
      simpa only [Transformation.type?, given.shape, given.kind] using typed
  | @compose before before' given =>
      cases shape <;> simpa only [Transformation.type?, given.shape, given.kind] using typed
  | _ => exact typed

end Transformation.Mirrors

/-- Two worlds in which the same functions were made, in the second without memoization, and in
which nothing has been stored. -/
structure World.Built (origin : List Callable) (world plain : World) : Prop where
  named : FunctionValue.AllMirror origin world.functions plain.functions
  made : List.Forall₂ (fun cache callable => cache.storage = .empty .perKey ∧
    (∃ identity code, cache.underlying = .plain identity code) ∧
    cache.underlying.Mirrors origin callable) world.caches origin
  bare : plain.caches = []

namespace World.Built

variable {world plain after : World}

theorem mirrors (built : world.Built origin plain) : world.Mirrors origin plain.functions := by
  refine ⟨built.named, built.made.imp fun cache callable same => ?_⟩
  obtain ⟨empty, underlying, given⟩ := same
  refine ⟨by rw [empty]; rfl, underlying, given, ?_⟩
  intro key result exact found
  rw [empty] at found
  cases found

theorem create (built : world.Built origin plain) {code code' : Code}
    (run : code.Mirrors origin code') :
    (world.create code).1.Mirrors origin (plain.create code').1 ∧
      (world.create code).2.Built origin (plain.create code').2 :=
  ⟨.plain run, built.named, built.made, built.bare⟩

theorem define (built : world.Built origin plain) (name : String) {function function' : FunctionValue}
    (given : function.Mirrors origin function') :
    (world.define name function).Built origin (plain.define name function') := by
  refine ⟨.cons ⟨rfl, given⟩ (List.rel_filter (fun entry entry' same => ?_) built.named), built.made,
    built.bare⟩
  simp [same.1]

theorem memoize (built : world.Built origin plain) (retention : Retention)
    {source source' : Callable} (given : source.Mirrors origin source') :
    ∃ more, (world.memoize .perKey retention source).1.Mirrors (origin ++ more) source' ∧
      (world.memoize .perKey retention source).2.Built (origin ++ more) plain := by
  cases source with
  | memoized number =>
      refine ⟨[], ?_⟩
      rw [List.append_nil]
      exact ⟨given, built⟩
  | plain identity code =>
      have length := built.made.length_eq
      refine ⟨[source'], .memoized ?_, built.named.append, ?_, built.bare⟩
      · rw [length, List.getElem?_concat_length]
      · refine List.rel_append (built.made.imp fun cache callable same => ?_)
          (.cons ⟨rfl, ⟨identity, code, rfl⟩, Computation.Mirrors.append given⟩ .nil)
        exact ⟨same.1, same.2.1, Computation.Mirrors.append same.2.2⟩

theorem callable (built : world.Built origin plain) {transformation transformation' : Transformation}
    (mirrors : transformation.Mirrors origin transformation') {source source' : Callable}
    (given : source.Mirrors origin source') :
    ∃ more, (transformation.callable world source).1.Mirrors (origin ++ more)
        (transformation'.callable plain source').1 ∧
      (transformation.callable world source).2.Built (origin ++ more)
        (transformation'.callable plain source').2 := by
  have unchanged : ∀ {code code' : Code}, code.Mirrors origin code' →
      ∃ more, (world.create code).1.Mirrors (origin ++ more) (plain.create code').1 ∧
        (world.create code).2.Built (origin ++ more) (plain.create code').2 := by
    intro code code' run
    refine ⟨[], ?_⟩
    rw [List.append_nil]
    exact built.create run
  cases mirrors with
  | clone => exact ⟨[], by rw [List.append_nil]; exact ⟨given, built⟩⟩
  | memoize retention => exact built.memoize retention given
  | rewrap | tuple => exact unchanged (.ofCallable given)
  | fixFirst exact => exact unchanged (.fixed given exact)
  | curry => exact unchanged (.curried given)
  | reverse => exact unchanged (.reversed given)
  | coerce kind => exact unchanged (.coerce kind (.ofCallable given))
  | andThen later => exact unchanged (.andThen given (.ofCallable later.callable))
  | compose before => exact unchanged (.compose given (.ofCallable before.callable))

theorem repeated (built : world.Built origin plain) {transformation transformation' : Transformation}
    (mirrors : transformation.Mirrors origin transformation') {times : Nat}
    {function function' result : FunctionValue} (given : function.Mirrors origin function')
    (performed : transformation.repeated times world function = some (result, after)) :
    ∃ more result' plain', transformation'.repeated times plain function' = some (result', plain') ∧
      result.Mirrors (origin ++ more) result' ∧ after.Built (origin ++ more) plain' := by
  induction times generalizing world plain function function' origin with
  | zero =>
      obtain ⟨rfl, rfl⟩ : function = result ∧ world = after := by
        simpa [Transformation.repeated] using performed
      refine ⟨[], function', plain, rfl, ?_⟩
      rw [List.append_nil]
      exact ⟨given, built⟩
  | succ times induction =>
      simp only [Transformation.repeated, Transformation.perform, Option.bind_eq_bind,
        Option.bind_eq_some_iff, Option.some.injEq, Prod.exists] at performed ⊢
      obtain ⟨middle, world', ⟨shape, kind, type, made⟩, rest⟩ := performed
      cases made
      obtain ⟨more, callables, built'⟩ := built.callable mirrors given.callable
      have given' : FunctionValue.Mirrors (origin ++ more)
          ⟨shape, kind, (transformation.callable world function.callable).1⟩
          ⟨shape, kind, (transformation'.callable plain function'.callable).1⟩ :=
        ⟨rfl, rfl, callables⟩
      obtain ⟨more', result', plain', rest', same, last⟩ :=
        induction built' mirrors.append given' rest
      rw [List.append_assoc] at same last
      refine ⟨more ++ more', result', plain', ⟨_, _, ⟨shape, kind, ?_, rfl⟩, rest'⟩, same, last⟩
      rw [given.shape, given.kind]
      exact mirrors.type? type

theorem require (built : world.Built origin plain) {name : String} {function : FunctionValue}
    (found : world.require name = .ok function) :
    ∃ function', plain.require name = .ok function' ∧ function.Mirrors origin function' := by
  obtain ⟨function', found', given⟩ := built.mirrors.function? (require_eq_ok.mp found)
  exact ⟨function', require_eq_ok.mpr found', given⟩

theorem derive (built : world.Built origin plain) {transformation transformation' : Transformation}
    (mirrors : transformation.Mirrors origin transformation') {target source : String} {times : Nat}
    {answer : Answer}
    (derived : world.derive target source transformation times = .ok (answer, after)) :
    ∃ origin' answer' plain', plain.derive target source transformation' times = .ok (answer', plain') ∧
      after.Built origin' plain' := by
  simp only [World.derive, Refusal.bind_eq_ok, Refusal.unlessSome_eq_ok, Except.ok.injEq,
    Prod.exists] at derived ⊢
  obtain ⟨function, found, result, middle, performed, made⟩ := derived
  cases made
  obtain ⟨function', found', given⟩ := built.require found
  obtain ⟨more, result', plain', performed', same, built'⟩ := built.repeated mirrors given performed
  exact ⟨_, _, _, ⟨function', found', result', plain', performed', rfl⟩, built'.define target same⟩

theorem introduceCode (built : world.Built origin plain) (target : String) (shape : Shape)
    (kind : Kind) {code : Code} (run : code.Mirrors origin code) :
    (world.introduceCode target shape kind code).2.Built origin
      (plain.introduceCode target shape kind code).2 := by
  obtain ⟨given, built'⟩ := built.create run
  exact built'.define target ⟨rfl, rfl, given⟩

/-- Making a function in one world makes it in the other. -/
theorem perform (built : world.Built origin plain) {step : Step} (pure : step.isPure = true)
    {limit : Nat} {answer : Answer} (performed : world.perform limit step = .ok (answer, after)) :
    ∃ origin' answer' plain', (∀ limit', plain.perform limit' step.unmemoized = .ok (answer', plain')) ∧
      after.Built origin' plain' := by
  cases step with
  | apply source arguments target | map source arguments | threads source arguments => cases pure
  | define target definition =>
      cases performed
      exact ⟨origin, _, _, fun _ => rfl, built.introduceCode target definition.shape definition.kind
        (Definition.mirrors_code pure)⟩
  | identity target =>
      cases performed
      exact ⟨origin, _, _, fun _ => rfl, built.introduceCode target .one .plain .identity⟩
  | constant target kind value =>
      cases performed
      exact ⟨origin, _, _, fun _ => rfl,
        built.introduceCode target .one kind (.constant (kind.isExact_coerce pure))⟩
  | derive target source transformation times =>
      obtain ⟨origin', answer', plain', derived, built'⟩ := built.derive (.of_isPure pure) performed
      exact ⟨origin', answer', plain', fun _ => derived, built'⟩
  | andThen target source later =>
      simp only [World.perform, Refusal.bind_eq_ok] at performed
      obtain ⟨function, found, derived⟩ := performed
      obtain ⟨function', found', given⟩ := built.require found
      obtain ⟨origin', answer', plain', derived', built'⟩ := built.derive (.andThen given) derived
      refine ⟨origin', answer', plain', fun _ => ?_, built'⟩
      simp only [Step.unmemoized, World.perform, Refusal.bind_eq_ok]
      exact ⟨function', found', derived'⟩
  | compose target source before =>
      simp only [World.perform, Refusal.bind_eq_ok] at performed
      obtain ⟨function, found, derived⟩ := performed
      obtain ⟨function', found', given⟩ := built.require found
      obtain ⟨origin', answer', plain', derived', built'⟩ := built.derive (.compose given) derived
      refine ⟨origin', answer', plain', fun _ => ?_, built'⟩
      simp only [Step.unmemoized, World.perform, Refusal.bind_eq_ok]
      exact ⟨function', found', derived'⟩
  | tryAndThen target source later =>
      cases later with
      | some later =>
          simp only [World.perform, Refusal.bind_eq_ok] at performed
          obtain ⟨function, found, derived⟩ := performed
          obtain ⟨function', found', given⟩ := built.require found
          obtain ⟨origin', answer', plain', derived', built'⟩ := built.derive (.andThen given) derived
          refine ⟨origin', answer', plain', fun _ => ?_, built'⟩
          simp only [Step.unmemoized, World.perform, Refusal.bind_eq_ok]
          exact ⟨function', found', derived'⟩
      | none =>
          simp only [World.perform, Refusal.bind_eq_ok] at performed
          obtain ⟨function, found, answered⟩ := performed
          obtain ⟨function', found', given⟩ := built.require found
          split at answered <;> cases answered
          next full =>
            refine ⟨origin, .missing ⟨"after"⟩, plain, fun _ => ?_, built⟩
            simp only [Step.unmemoized, World.perform, Refusal.bind_eq_ok]
            exact ⟨function', found', if_neg (given.shape ▸ full)⟩
  | describe source =>
      simp only [World.perform, Refusal.bind_eq_ok] at performed
      obtain ⟨function, found, answered⟩ := performed
      cases answered
      obtain ⟨function', found', -⟩ := built.require found
      refine ⟨origin, .description (plain.description function'), plain, fun _ => ?_, built⟩
      simp only [Step.unmemoized, World.perform, Refusal.bind_eq_ok]
      exact ⟨function', found', rfl⟩
  | compare left right =>
      simp only [World.perform, Refusal.bind_eq_ok] at performed
      obtain ⟨function, found, other, found', answered⟩ := performed
      obtain ⟨function', here, given⟩ := built.require found
      obtain ⟨other', here', given'⟩ := built.require found'
      split at answered <;> cases answered
      next comparable =>
        refine ⟨origin, .shared (function'.callable.shares other'.callable), plain, fun _ => ?_, built⟩
        simp only [Step.unmemoized, World.perform, Refusal.bind_eq_ok]
        refine ⟨function', here, other', here', if_pos ?_⟩
        rw [given.shape, given.kind, given'.shape, given'.kind]
        exact comparable

theorem session (built : world.Built origin plain) {steps : List Step}
    (pure : ∀ step ∈ steps, step.isPure = true) {limit : Nat} {reports : List Report}
    (performed : world.session limit steps = .ok (reports, after)) :
    ∃ origin' reports' plain',
      (∀ limit', plain.session limit' (steps.map Step.unmemoized) = .ok (reports', plain')) ∧
      after.Built origin' plain' := by
  induction steps generalizing world plain origin reports with
  | nil =>
      cases performed
      exact ⟨origin, [], plain, fun _ => rfl, built⟩
  | cons step steps induction =>
      simp only [World.session, Refusal.bind_eq_ok, Prod.exists, report_eq_ok] at performed
      obtain ⟨_, middle, ⟨answer, first, -⟩, rest, _, onward, ended⟩ := performed
      cases ended
      rw [List.forall_mem_cons] at pure
      obtain ⟨origin', answer', plain', first', built'⟩ := built.perform pure.1 first
      obtain ⟨origin'', reports', plain'', onward', built''⟩ := induction built' pure.2 onward
      refine ⟨origin'', plain.seen answer' plain' :: reports', plain'', fun limit' => ?_, built''⟩
      simp only [List.map_cons, World.session, Refusal.bind_eq_ok, Prod.exists, report_eq_ok]
      exact ⟨_, plain', ⟨answer', first' limit', rfl⟩, reports', plain'', onward' limit', rfl⟩

end World.Built

/-! ## Applying functions -/

namespace World.Mirrors

variable {world after : World} {functions : List (String × FunctionValue)}

theorem ends (mirrors : world.Mirrors origin functions) (sound : world.IsSound)
    {computation computation' : Computation} (mirrored : computation.Mirrors origin computation')
    {outcome : Outcome} (ends : world.Ends 0 computation after outcome) :
    after.Mirrors origin functions ∧ ∃ last, Outcome.Mirrors origin outcome last ∧
      (origin = [] → ∃ count, computation'.Evaluates functions count last) := by
  obtain ⟨steps, ended⟩ := ends
  obtain ⟨rest, middle, outcome', last, -, -, onward, mirrors', same, evaluated⟩ :=
    mirrors.passes (sound.soundAt computation) mirrored (fun _ => .nil) ended
  cases rest with
  | zero =>
      obtain ⟨rfl, rfl⟩ : middle = after ∧ outcome' = outcome := by
        simpa [Activity.proceed] using onward
      exact ⟨mirrors', last, same, evaluated⟩
  | succ rest => cases onward

theorem endAll (mirrors : world.Mirrors origin functions) (sound : world.IsSound)
    {computations : List Computation} {outcomes : List Outcome}
    (mirrored : ∀ computation ∈ computations, ∃ computation',
      computation.Mirrors origin computation')
    (endAll : world.EndAll 0 computations after outcomes) : after.Mirrors origin functions := by
  induction endAll with
  | nil world => exact mirrors
  | cons first _ induction =>
      rw [List.forall_mem_cons] at mirrored
      obtain ⟨⟨computation', same⟩, rest⟩ := mirrored
      exact induction (mirrors.ends sound same first).1 (first.isSound sound) rest

theorem supplied (mirrors : world.Mirrors origin functions) (sound : world.IsSound)
    {function function' : FunctionValue} (given : function.Mirrors origin function')
    {arguments : List (List Value)} (exact : arguments.all Value.allExact = true)
    {computations : List Computation} {outcomes : List Outcome}
    (invoked : List.Forall₂ (fun supplied computation =>
      function.invoke? supplied = some computation) arguments computations)
    (endAll : world.EndAll 0 computations after outcomes) : after.Mirrors origin functions := by
  refine mirrors.endAll sound (fun computation member => ?_) endAll
  obtain ⟨position, inside, rfl⟩ := List.mem_iff_getElem.mp member
  obtain ⟨length, pointwise⟩ := List.forall₂_iff_get.mp invoked
  have supplied := pointwise position (length ▸ inside) inside
  have exact' := List.all_eq_true.mp exact _ (List.getElem_mem (length ▸ inside))
  obtain ⟨computation', -, same⟩ := exists_right_of_rel (given.invoke? exact') supplied
  exact ⟨computation', same⟩

/-- Any number of threads apply a function. -/
theorem applyAll (mirrors : world.Mirrors origin functions) (sound : world.IsSound) {limit : Nat}
    {source : String} {arguments : List (List (List Value))} {replies : List (List Reply)}
    (exact : arguments.all (·.all Value.allExact) = true)
    (applied : world.applyAll limit source arguments = .ok (replies, after)) :
    after.Mirrors origin functions := by
  simp only [World.applyAll, Refusal.bind_eq_ok, Refusal.unlessSome_eq_ok, require_eq_ok,
    Except.ok.injEq, Prod.mk.injEq, mapM_eq_some] at applied
  obtain ⟨function, found, tasks, invoked, system, ran, _, -, -, rfl⟩ := applied
  obtain ⟨function', -, given⟩ := mirrors.function? found
  have finished := Refusal.unlessSome_eq_ok.mp ran
  rw [System.ofTasks, List.map_map] at finished
  obtain ⟨outcomes, endAll⟩ :=
    System.endAll_of_threads sound (List.forall_mem_nil _) finished
  refine mirrors.supplied sound given ?_ (List.rel_flatten invoked) endAll
  rwa [List.all_flatten]

/-- Applications keep what is stored right, whatever becomes of them. -/
theorem perform (mirrors : world.Mirrors origin functions) (sound : world.IsSound) {limit : Nat}
    {step : Step} {answer : Answer} (applied : step.isApplication = true)
    (performed : world.perform limit step = .ok (answer, after)) :
    after.Mirrors origin functions := by
  cases step with
  | apply source arguments target =>
      cases target with
      | some target => cases applied
      | none =>
          simp only [World.perform, Refusal.bind_eq_ok] at performed
          obtain ⟨function, -, answered⟩ := performed
          split at answered
          next named => cases named
          next =>
            simp only [Refusal.bind_eq_ok, Prod.exists] at answered
            obtain ⟨replies, middle, served, answered⟩ := answered
            split at answered
            next same =>
              cases same
              cases answered
              exact mirrors.applyAll sound (by simpa [Step.isApplication] using applied) served
            next => cases answered
  | map source arguments =>
      simp only [World.perform, Refusal.bind_eq_ok, Prod.exists] at performed
      obtain ⟨replies, middle, served, answered⟩ := performed
      cases answered
      exact mirrors.applyAll sound (by simpa [Step.isApplication] using applied) served
  | threads source arguments =>
      simp only [World.perform, Refusal.bind_eq_ok, Prod.exists] at performed
      obtain ⟨replies, middle, served, answered⟩ := performed
      cases answered
      exact mirrors.applyAll sound applied served
  | describe source =>
      simp only [World.perform, Refusal.bind_eq_ok] at performed
      obtain ⟨function, -, answered⟩ := performed
      cases answered
      exact mirrors
  | compare left right =>
      simp only [World.perform, Refusal.bind_eq_ok] at performed
      obtain ⟨function, -, other, -, answered⟩ := performed
      split at answered <;> cases answered
      exact mirrors
  | _ => cases applied

theorem session (mirrors : world.Mirrors origin functions) (sound : world.IsSound) {limit : Nat}
    {steps : List Step} {reports : List Report}
    (applied : ∀ step ∈ steps, step.isApplication = true)
    (performed : world.session limit steps = .ok (reports, after)) :
    after.Mirrors origin functions := by
  induction steps generalizing world reports with
  | nil =>
      cases performed
      exact mirrors
  | cons step steps induction =>
      simp only [World.session, Refusal.bind_eq_ok, Prod.exists, report_eq_ok] at performed
      obtain ⟨_, middle, ⟨answer, first, -⟩, rest, _, onward, ended⟩ := performed
      cases ended
      rw [List.forall_mem_cons] at applied
      exact induction (mirrors.perform sound applied.1 first) (sound.perform first) applied.2 onward

/-- An application that evaluates without memoization ends with the same reply, and nothing is
refused. -/
theorem perform_of_evaluates (mirrors : world.Mirrors origin functions) (sound : world.IsSound)
    {source : String} {arguments : List Value} {function' : FunctionValue}
    {computation' : Computation} {count : Nat} {last : Outcome} {reply : Reply}
    (exact : Value.allExact arguments = true) (found' : functions.lookup source = some function')
    (invoked' : function'.invoke? arguments = some computation')
    (evaluates : computation'.Evaluates functions count last)
    (replied' : last.reply? = some reply) :
    ∃ enough after,
      (∀ limit, enough ≤ limit →
        world.perform limit (.apply source arguments none) = .ok (.reply reply, after)) ∧
      world.Quiet after := by
  obtain ⟨function, found, given⟩ := exists_left_of_rel (mirrors.named.lookup source) found'
  obtain ⟨computation, invoked, mirrored⟩ := exists_left_of_rel (given.invoke? exact) invoked'
  obtain ⟨after, outcome, comes, -, same, quiet⟩ :=
    mirrors.yields (sound.soundAt computation) mirrored .nil evaluates
  obtain ⟨enough, performed⟩ := perform_of_ends found invoked comes (same.reply? replied').1
  exact ⟨enough, after, performed, quiet⟩

/-- An application that ends where there are no caches is an evaluation. -/
theorem evaluates_of_perform (mirrors : world.Mirrors [] functions) (sound : world.IsSound)
    {limit : Nat} {source : String} {arguments : List Value} {reply : Reply}
    (exact : Value.allExact arguments = true)
    (performed : world.perform limit (.apply source arguments none) = .ok (.reply reply, after)) :
    ∃ function' computation' count last, functions.lookup source = some function' ∧
      function'.invoke? arguments = some computation' ∧
      computation'.Evaluates functions count last ∧ last.reply? = some reply := by
  obtain ⟨function, computation, outcome, found, invoked, ends, replied⟩ := ends_of_perform performed
  obtain ⟨function', found', given⟩ := mirrors.function? found
  obtain ⟨computation', invoked', mirrored⟩ := exists_right_of_rel (given.invoke? exact) invoked
  obtain ⟨-, last, same, evaluated⟩ := mirrors.ends sound mirrored ends
  obtain ⟨count, evaluates⟩ := evaluated rfl
  refine ⟨function', computation', count, last, found', invoked', evaluates, ?_⟩
  rcases same.cases with ⟨reply', here, there, -⟩ | ⟨_, _, rfl, -, -⟩
  · exact there.trans (here.symm.trans replied)
  · cases replied

end World.Mirrors

/-! ## Transparency -/

namespace Step

theorem isPure_unmemoized {step : Step} (pure : step.isPure = true) :
    step.unmemoized.isPure = true := by
  cases step with
  | derive target source transformation times => cases transformation <;> first | rfl | exact pure
  | _ => exact pure

theorem unmemoized_unmemoized (step : Step) : step.unmemoized.unmemoized = step.unmemoized := by
  cases step with
  | derive target source transformation times => cases transformation <;> rfl
  | _ => rfl

end Step

namespace World

/-- The same functions can be made without memoization. -/
theorem exists_unmemoized {limit : Nat} {construction : List Step} {reports : List Report}
    {world : World} (pure : ∀ step ∈ construction, step.isPure = true)
    (performed : World.session {} limit construction = .ok (reports, world)) :
    ∃ origin reports' plain,
      (∀ limit', World.session {} limit' (construction.map Step.unmemoized) =
        .ok (reports', plain)) ∧
      world.Built origin plain ∧ plain.Built [] plain := by
  have empty : World.Built [] {} {} := ⟨.nil, .nil, rfl⟩
  obtain ⟨origin, reports', plain, made, built⟩ := empty.session pure performed
  have pure' : ∀ step ∈ construction.map Step.unmemoized, step.isPure = true := by
    intro step member
    obtain ⟨step', inside, rfl⟩ := List.mem_map.mp member
    exact Step.isPure_unmemoized (pure step' inside)
  obtain ⟨origin', _, plain', made', built'⟩ := empty.session pure' (made 0)
  have same : (construction.map Step.unmemoized).map Step.unmemoized =
      construction.map Step.unmemoized := by
    simp [Step.unmemoized_unmemoized]
  have again := made' 0
  rw [same, made 0] at again
  cases again
  have bare := built'.made
  rw [built.bare] at bare
  cases bare
  exact ⟨origin, reports', plain, made, built, built'⟩

/-- A session makes functions of code without state, memoizes any of them under one lock for each
argument, and applies them as often as it likes, in any number of threads and with whatever result. A
second one makes the same functions without memoization. Then every application that ends in the
second session ends in the first, with the same reply, and nothing on the way is refused. -/
theorem memoization_transparent {limit limit' limit'' : Nat}
    {construction history history' : List Step} {reports reports' : List Report}
    {world plain after : World} {source : String} {arguments : List Value} {reply : Reply}
    (pure : ∀ step ∈ construction, step.isPure = true)
    (applied : ∀ step ∈ history, step.isApplication = true)
    (applied' : ∀ step ∈ history', step.isApplication = true)
    (performed : World.session {} limit (construction ++ history) = .ok (reports, world))
    (performed' : World.session {} limit' (construction.map Step.unmemoized ++ history') =
      .ok (reports', plain))
    (exact : Value.allExact arguments = true)
    (ended : plain.perform limit'' (.apply source arguments none) = .ok (.reply reply, after)) :
    ∃ enough last,
      (∀ limit, enough ≤ limit →
        world.perform limit (.apply source arguments none) = .ok (.reply reply, last)) ∧
      world.Quiet last := by
  obtain ⟨middle, _, _, made, later⟩ := session_append performed
  obtain ⟨middle', _, _, made', later'⟩ := session_append performed'
  obtain ⟨origin, _, plain', unmemoized, built, bare⟩ := exists_unmemoized pure made
  rw [unmemoized limit'] at made'
  cases made'
  have sound := isSound_empty.session performed
  have sound' := isSound_empty.session performed'
  have mirrors := built.mirrors.session (isSound_empty.session made) applied later
  have mirrors' := bare.mirrors.session (isSound_empty.session (unmemoized 0)) applied' later'
  obtain ⟨function, computation, count, outcome, found, invoked, evaluates, replied⟩ :=
    mirrors'.evaluates_of_perform sound' exact ended
  exact mirrors.perform_of_evaluates sound exact found invoked evaluates replied

/-- A function that counts down through the function of the name `memoized`. -/
def countdown : Definition where
  label := "countdown"
  arity := 1
  body := .branch (.operation .lt [.argument 0, .literal (.int 1)]) (.literal (.int 0))
    (.call "memoized" [.operation .sub [.argument 0, .literal (.int 1)]])
  manner := .direct .plain

/-- The steps that define the function and memoize it. -/
def countdownSteps : List Step :=
  [.define "countdown" countdown, .derive "memoized" "countdown" (.memoize .perKey .all) 1]

/-- The function counts down from three after it has counted down from two and has failed on a text. -/
theorem memoization_transparent_countdown :
    ∃ reports world enough last,
      World.session {} 500 (countdownSteps ++
        [.apply "memoized" [.int 2] none, .apply "memoized" [.text "two"] none]) =
          .ok (reports, world) ∧
      world.perform enough (.apply "memoized" [.int 3] none) = .ok (.reply (.ok (.int 0)), last) ∧
      world.Quiet last := by
  obtain ⟨reports, world, performed⟩ : ∃ reports world,
      World.session {} 500 (countdownSteps ++
        [.apply "memoized" [.int 2] none, .apply "memoized" [.text "two"] none]) =
          .ok (reports, world) := ⟨_, _, rfl⟩
  obtain ⟨reports', plain, performed'⟩ : ∃ reports plain,
      World.session {} 500 (countdownSteps.map Step.unmemoized ++ []) = .ok (reports, plain) :=
    ⟨_, _, rfl⟩
  have replied : ((World.session {} 500 (countdownSteps.map Step.unmemoized ++ [])).bind fun ended =>
      ended.2.perform 500 (.apply "memoized" [.int 3] none)).map (fun ended => ended.1) =
        .ok (.reply (.ok (.int 0))) := rfl
  obtain ⟨after, ended⟩ : ∃ after, plain.perform 500 (.apply "memoized" [.int 3] none) =
      .ok (.reply (.ok (.int 0)), after) := by
    simp only [performed', Except.bind] at replied
    cases answered : plain.perform 500 (.apply "memoized" [.int 3] none) with
    | error refusal =>
        rw [answered] at replied
        cases replied
    | ok ended =>
        obtain ⟨answer, after⟩ := ended
        rw [answered] at replied
        cases replied
        exact ⟨after, rfl⟩
  have pure : ∀ step ∈ countdownSteps, step.isPure = true := by
    simp [countdownSteps, countdown, Step.isPure, Transformation.isPure, Expression.isPure,
      Expression.allPure, Value.isExact]
  obtain ⟨enough, last, sufficient, quiet⟩ := memoization_transparent pure
    (by simp [Step.isApplication, Value.allExact, Value.isExact]) (by simp) performed performed' rfl
    ended
  exact ⟨reports, world, enough, last, performed, sufficient enough (Nat.le_refl enough), quiet⟩

end World

end FunctionValues
