import FunctionValues.Proofs.Applications

/-!
# Memoizing what is memoized

A function is cloned and memoized any number of times, at any moments of a program. From the first
time on that it is memoized, all that comes of it is one function with one cache, which keeps what
that first time said. If that was to keep successes, or if there was no such time yet, what comes of
memoizing it to keep successes gives back no error that it has not just computed. If it was to keep
everything, errors are kept as well and given back again.
-/

namespace FunctionValues

/-- What memoizing makes of a function. -/
theorem Transformation.perform_memoize {policy : Policy} {retention : Retention}
    {world after : World} {function memoized : FunctionValue}
    (performed : (memoize policy retention).perform world function = some (memoized, after)) :
    memoized.callable = (world.memoize policy retention function.callable).1 ∧
      after = (world.memoize policy retention function.callable).2 := by
  simp only [perform, callable, Option.bind_eq_bind, Option.bind_eq_some_iff, Option.some.injEq,
    Prod.mk.injEq] at performed
  obtain ⟨_, -, rfl, rfl⟩ := performed
  exact ⟨rfl, rfl⟩

theorem Transformation.perform_clone {world after : World} {function copy : FunctionValue}
    (performed : clone.perform world function = some (copy, after)) :
    copy.callable = function.callable ∧ after = world := by
  simp only [perform, callable, Option.bind_eq_bind, Option.bind_eq_some_iff, Option.some.injEq,
    Prod.mk.injEq] at performed
  obtain ⟨_, -, rfl, rfl⟩ := performed
  exact ⟨rfl, rfl⟩

/-- A callable is another one, or what memoizing that by some rule made. -/
def World.Memoizes (world : World) (underlying callable : Callable) : Option Retention → Prop
  | none => callable = underlying
  | some retention => ∃ number cache, callable = .memoized number ∧
      world.caches[number]? = some cache ∧ cache.underlying = underlying ∧
      cache.retention = retention

namespace System

variable {limit : Nat} {origin function memoized : FunctionValue} {system after : System}
  {rule : Option Retention}

/-- A function came of another that was cloned and memoized, any number of times at any moments of a
program. The rule is that of the first memoizing. -/
inductive Derives (limit : Nat) (origin : FunctionValue) :
    System → FunctionValue → Option Retention → Prop
  | origin {system : System} (reached : system.Reached limit) :
      Derives limit origin system origin none
  | later {system after : System} {function : FunctionValue} {rule : Option Retention}
      (derives : Derives limit origin system function rule)
      (happens : Happens limit system after) : Derives limit origin after function rule
  | clone {world after : World} {workers : List Worker} {function copy : FunctionValue}
      {rule : Option Retention} (derives : Derives limit origin ⟨world, workers⟩ function rule)
      (performed : Transformation.clone.perform world function = some (copy, after)) :
      Derives limit origin ⟨after, workers⟩ copy rule
  | memoize {world after : World} {workers : List Worker} {function memoized : FunctionValue}
      {rule : Option Retention} (policy : Policy) (retention : Retention)
      (derives : Derives limit origin ⟨world, workers⟩ function rule)
      (performed : (Transformation.memoize policy retention).perform world function =
        some (memoized, after)) :
      Derives limit origin ⟨after, workers⟩ memoized (some (rule.getD retention))

theorem Derives.reached (derives : Derives limit origin system function rule) :
    system.Reached limit := by
  induction derives with
  | origin reached => exact reached
  | later _ happens induction => exact .tail induction happens
  | clone _ performed induction =>
      obtain ⟨-, rfl⟩ := Transformation.perform_clone performed
      exact induction
  | memoize policy retention _ performed induction =>
      obtain ⟨-, rfl⟩ := Transformation.perform_memoize performed
      exact .tail induction (.make (.memoize ..))

theorem Derives.of_reaches (derives : Derives limit origin system function rule)
    (reaches : Reaches limit system after) : Derives limit origin after function rule := by
  induction reaches with
  | refl => exact derives
  | tail _ happens induction => exact .later induction happens

/-- However often a plain function is cloned and memoized, the first memoizing makes its cache. -/
theorem Derives.memoizes {identity : Nat} {code : Code}
    (derives : Derives limit origin system function rule)
    (plain : origin.callable = .plain identity code) :
    system.world.Memoizes origin.callable function.callable rule := by
  induction derives with
  | origin reached => rfl
  | @later system after function rule _ happens induction =>
      cases rule with
      | none => exact induction
      | some retention =>
          obtain ⟨number, cache, same, found, underlying, rule⟩ := induction
          obtain ⟨storage, kept, -⟩ := happens.caches found
          exact ⟨number, _, same, kept, underlying, rule⟩
  | clone _ performed induction =>
      obtain ⟨same, rfl⟩ := Transformation.perform_clone performed
      rw [same]
      exact induction
  | @memoize world after workers function memoized rule policy retention _ performed induction =>
      obtain ⟨same, rfl⟩ := Transformation.perform_memoize performed
      cases rule with
      | none =>
          obtain here : function.callable = .plain identity code := Eq.trans induction plain
          rw [here] at same ⊢
          refine ⟨world.caches.length, ⟨.plain identity code, retention, .empty policy⟩, same, ?_,
            plain.symm, rfl⟩
          simp [World.memoize, World.record]
      | some first =>
          obtain ⟨number, cache, here, found, underlying, rule⟩ := induction
          rw [here] at same ⊢
          exact ⟨number, cache, same, found, underlying, rule⟩

/-- In any program: a plain function was cloned and memoized any number of times, and the first
time, if there was one, was to keep successes. What comes of memoizing the result to keep successes,
by any policy, gives back an error only after it has run the plain function for its argument during
that very application, and that run ended with the error. -/
theorem errors_are_not_replayed {identity : Nat} {code : Code} {policy : Policy} {made : System}
    {world : World} {thread : Thread} {key content : Value} {frames : List Frame}
    (plain : origin.callable = .plain identity code)
    (derives : Derives limit origin made function rule) (first : rule ≠ some .all)
    (performed : (Transformation.memoize policy .successes).perform made.world function =
      some (memoized, world))
    (reaches : Reaches limit ⟨world, made.workers⟩ system)
    (begun : system.At thread ⟨.run (.apply memoized.callable key), frames⟩)
    (during : During limit thread frames system after)
    (back : after.At thread ⟨.answer (.ok (.value (.err content))), frames⟩) :
    ∃ number, memoized.callable = .memoized number ∧
      Ran limit thread number origin.callable key frames system after
        (.ok (.value (.err content))) := by
  have last : Derives limit origin system memoized (some (rule.getD .successes)) :=
    Derives.of_reaches (.memoize policy .successes derives performed) reaches
  obtain ⟨number, cache, same, found, underlying, retention⟩ := last.memoizes plain
  have successes : cache.retention = .successes := by
    rw [retention]
    cases rule with
    | none => rfl
    | some given =>
        cases given with
        | all => exact absurd rfl first
        | successes => rfl
  have passing : cache.retention.keeps (.value (.err content)) = false := by
    rw [successes]
    rfl
  rw [same] at begun
  rw [← underlying]
  exact ⟨number, same, ran_of_not_kept last.reached found begun during back passing⟩

/-! ## A function that fails -/

/-- A function that gives back its argument as an error. -/
def declining : FunctionValue :=
  ⟨.one, .fallible, .plain 0 fun argument => .value (.err argument)⟩

/-- A thread that applies a function to the same argument twice. -/
def applyingTwice (world : World) (function : FunctionValue) : System :=
  ofTasks world (List.replicate 1 (List.replicate 2 (.run (.apply function.callable (.int 1)))))

theorem happens_applyingTwice (world : World) (function : FunctionValue) :
    Happens 1 ⟨world, []⟩ (applyingTwice world function) :=
  .start _ (by simp) (by simp)

theorem derives_of_perform {policy : Policy} {retention : Retention} {world : World}
    (performed : (Transformation.memoize policy retention).perform {} declining =
      some (memoized, world)) : Derives 1 declining ⟨world, []⟩ memoized (some retention) :=
  .memoize policy retention (.origin .refl) performed

/-- A function that was memoized to keep successes, and again, fails twice for the same argument.
The second time it was run as well. -/
theorem errors_are_not_replayed_declining :
    ∃ (function memoized : FunctionValue) (world : World) (system after : System) (number : Nat),
      (Transformation.memoize .perKey .successes).perform {} declining = some (function, world) ∧
      (Transformation.memoize .global .successes).perform world function =
        some (memoized, world) ∧
      (applyingTwice world memoized).follow (List.replicate 20 0) = some system ∧
      system.At 0 ⟨.run (.apply memoized.callable (.int 1)), []⟩ ∧
      after.At 0 ⟨.answer (.ok (.value (.err (.int 1)))), []⟩ ∧
      Ran 1 0 number declining.callable (.int 1) [] system after
        (.ok (.value (.err (.int 1)))) := by
  have followed : ∃ (function memoized : FunctionValue) (world later : World) (system : System),
      (Transformation.memoize .perKey .successes).perform {} declining = some (function, world) ∧
      (Transformation.memoize .global .successes).perform world function =
        some (memoized, world) ∧
      (applyingTwice world memoized).follow (List.replicate 20 0) = some system ∧
      (system.workers[0]?).bind (·.current) =
        some ⟨.run (.apply memoized.callable (.int 1)), []⟩ ∧
      Activity.proceed 0 17 system.world ⟨.run (.apply memoized.callable (.int 1)), []⟩ =
        some (later, ⟨.answer (.ok (.value (.err (.int 1)))), []⟩) :=
    ⟨_, _, _, _, _, rfl, rfl, rfl, rfl, rfl⟩
  obtain ⟨function, memoized, world, later, system, first, second, followed, begun, proceeded⟩ :=
    followed
  have begun : system.At 0 ⟨.run (.apply memoized.callable (.int 1)), []⟩ :=
    Option.bind_eq_some_iff.mp begun
  have reaches : Reaches 1 ⟨world, []⟩ system :=
    .head (happens_applyingTwice world memoized) (Reaches.of_follow followed)
  obtain ⟨after, during, -, back⟩ := During.of_ends begun ⟨17, proceeded⟩
  obtain ⟨number, -, ran⟩ := errors_are_not_replayed rfl (derives_of_perform first) (by decide)
    second reaches begun during back
  exact ⟨function, memoized, world, system, after, number, first, second, followed, begun, back,
    ran⟩

/-- A function that was memoized to keep everything, and then to keep successes, fails twice for the
same argument. The second time the error comes from the cache, without a run. -/
theorem error_replayed :
    ∃ (function memoized : FunctionValue) (world after : World) (system : System),
      declining.callable.isMemoized = false ∧
      Derives 1 declining ⟨world, []⟩ function (some .all) ∧
      (Transformation.memoize .global .successes).perform world function =
        some (memoized, world) ∧
      Reaches 1 ⟨world, []⟩ system ∧
      system.At 0 ⟨.run (.apply memoized.callable (.int 1)), []⟩ ∧
      system.world.Ends 0 (.apply memoized.callable (.int 1)) after
        (.ok (.value (.err (.int 1)))) ∧
      after.log = .event 0 (some (.int 1)) (.hit .global) :: system.world.log := by
  have followed : ∃ (function memoized : FunctionValue) (world after : World) (system : System),
      (Transformation.memoize .global .all).perform {} declining = some (function, world) ∧
      (Transformation.memoize .global .successes).perform world function =
        some (memoized, world) ∧
      (applyingTwice world memoized).follow (List.replicate 16 0) = some system ∧
      (system.workers[0]?).bind (·.current) =
        some ⟨.run (.apply memoized.callable (.int 1)), []⟩ ∧
      Activity.proceed 0 7 system.world ⟨.run (.apply memoized.callable (.int 1)), []⟩ =
        some (after, ⟨.answer (.ok (.value (.err (.int 1)))), []⟩) ∧
      after.log = .event 0 (some (.int 1)) (.hit .global) :: system.world.log :=
    ⟨_, _, _, _, _, rfl, rfl, rfl, rfl, rfl, rfl⟩
  obtain ⟨function, memoized, world, after, system, first, second, followed, begun, proceeded,
    log⟩ := followed
  exact ⟨function, memoized, world, after, system, rfl, derives_of_perform first, second,
    .head (happens_applyingTwice world memoized) (Reaches.of_follow followed),
    Option.bind_eq_some_iff.mp begun, ⟨7, proceeded⟩, log⟩

end System

end FunctionValues
