import FunctionValues.Proofs.Chains
import FunctionValues.Proofs.Failures
import FunctionValues.Proofs.Makings

/-!
# Where failures are caught

Code that keeps only whether other code came back, and with what. It never fails, it ends where the
other code ends, in the same world, and what it ends with tells whether that failed. Around it nothing
is left of a failure: every latch is as it was when the code was entered, every cache has gained the
results of the runs that ended in the meantime and nothing else, and what its thread could apply before
it can apply again.
-/

namespace FunctionValues

namespace Outcome

/-- What catching makes of the end of a run. A callable is no value and stays the end of the whole. -/
def caught : Outcome → Outcome
  | .ok (.value value) => .ok (.value (.present value))
  | .ok (.callable callable) => .ok (.callable callable)
  | .error _ => .ok (.value .absent)

variable {outcome : Outcome}

theorem caught_ne_error (outcome : Outcome) (failure : Failure) : outcome.caught ≠ .error failure := by
  rcases outcome with failure' | (value | callable) <;> simp [caught]

theorem caught_eq_present {value : Value} :
    outcome.caught = .ok (.value (.present value)) ↔ outcome = .ok (.value value) := by
  rcases outcome with failure | (value' | callable) <;> simp [caught]

theorem caught_eq_absent :
    outcome.caught = .ok (.value .absent) ↔ ∃ failure, outcome = .error failure := by
  rcases outcome with failure | (value | callable) <;> simp [caught]

end Outcome

/-- To catch the failures of a computation is to run it to its end and to say how it ended. -/
theorem World.ends_attempt {thread : Thread} {world after : World} {computation : Computation}
    {outcome : Outcome} :
    world.Ends thread computation.attempt after outcome ↔
      ∃ reached, world.Ends thread computation after reached ∧ outcome = reached.caught := by
  -- The frame of the code that catches makes of an outcome what it is to say, and ends with that.
  have told : ∀ {middle : World} {reached : Outcome},
      Activity.Comes thread middle
        ⟨.answer reached, [.bind fun reply => .value (Reply.caught reply)]⟩ after
          ⟨.answer outcome, []⟩ ↔ after = middle ∧ outcome = reached.caught := by
    intro middle reached
    rcases reached with failure | (value | callable)
    · exact (Activity.comes_iff_of_step rfl).trans World.ends_value
    · exact (Activity.comes_iff_of_step rfl).trans World.ends_value
    · exact (Activity.comes_iff_of_step rfl).trans Activity.comes_answer
  refine (Activity.comes_iff_of_step rfl).trans (World.comes_within_iff.trans ?_)
  constructor
  · rintro ⟨middle, reached, ends, onward⟩
    obtain ⟨rfl, rfl⟩ := told.mp onward
    exact ⟨reached, ends, rfl⟩
  · rintro ⟨reached, ends, rfl⟩
    exact ⟨after, reached, ends, told.mpr ⟨rfl, rfl⟩⟩

namespace System

variable {system after : System} {number : Nat} {cache : Cache} {key : Value} {frames : List Frame}

/-- A thread that computes nothing that blocks an argument applies a memoized function to it without
waiting and without being refused: it comes back with the stored result, or starts a run. -/
theorem At.admitted {outcome : Outcome} (at' : system.At 0 ⟨.answer outcome, frames⟩)
    (reached : system.Reached 1) (found : system.world.caches[number]? = some cache)
    (open' : cache.storage.policy.blocks (Frame.keys number frames) key = false)
    (outer : List Frame) :
    (∃ result, Activity.Comes 0 system.world ⟨.run (.apply (.memoized number) key), outer⟩
        (system.world.record (.event number (some key) (.hit cache.storage.policy)))
        ⟨.answer (.ok result), outer⟩) ∨
      ∃ world place, Activity.Comes 0 system.world ⟨.run (.apply (.memoized number) key), outer⟩
        world ⟨.run (.apply cache.underlying key), .computing number key place :: outer⟩ := by
  have sound : cache.Sound [.applying key .seek :: Frame.phases number frames]
      (system.world.marks number) := by
    have resting : cache.Sound [Frame.phases number frames] (system.world.marks number) := by
      simpa using at'.sound_at reached found
    exact resting.of_moves (.apply key)
  have seeks := Activity.comes_seek system.world number key outer
  cases stored : cache.storage.stored? key with
  | some result =>
      exact .inl ⟨result, seeks.trans (Activity.comes_of_stored outer found sound open' stored)⟩
  | none =>
      obtain ⟨storage, place, misses, -, -⟩ :=
        Activity.comes_of_missing outer found sound open' stored
      exact .inr ⟨_, place, seeks.trans misses⟩

/-- In a program of a single thread, at any moment: a function of one argument or of two is applied
that catches the failures of some code, and the code ends. Then the application comes back, in the
world in which the code ends on its own. It ends only as the code does, and does not fail: it comes
back with a value that is present just if the code came back with that value, and with none just if the
code failed, in whatever way. No cache was made, and each has gained the results to be kept of the runs
that ended in the meantime, and nothing else: every latch is taken by whom it was taken before, at every
place, the lock of every slot map is as it was, and every slot that there was is. So what was not
blocked before is applied without waiting and without being refused. -/
theorem catching_is_clean_boundary {function : FunctionValue} {identity : Nat} {code : Code}
    {arguments : List Value} {computation : Computation} {world : World} {inner : Outcome}
    (catches : function.callable = .plain identity code.catching)
    (shape : function.shape = .one ∨ function.shape = .two)
    (invoked : function.invoke? arguments = some computation) (reached : system.Reached 1)
    (at' : system.At 0 ⟨.run computation, frames⟩)
    (ends : system.world.Ends 0 (code (FunctionValue.argument arguments)) world inner) :
    (∀ after outcome, system.world.Ends 0 computation after outcome ↔
      ∃ reached, system.world.Ends 0 (code (FunctionValue.argument arguments)) after reached ∧
        outcome = reached.caught) ∧
    (∀ failure, inner.caught ≠ .error failure) ∧
    (∀ value, inner.caught = .ok (.value (.present value)) ↔ inner = .ok (.value value)) ∧
    (inner.caught = .ok (.value .absent) ↔ ∃ failure, inner = .error failure) ∧
    ∃ steps after added, system.follow (List.replicate steps 0) = some after ∧
      after.world = world ∧ after.At 0 ⟨.answer inner.caught, frames⟩ ∧
      world.log = added ++ system.world.log ∧
      world.caches.length = system.world.caches.length ∧
      (∀ number (cache : Cache), system.world.caches[number]? = some cache →
        ∃ storage, world.caches[number]? = some { cache with storage } ∧
          cache.storage.Gains storage (Gained number cache.retention added)) ∧
      ∀ number (cache : Cache) key outer, world.caches[number]? = some cache →
        cache.storage.policy.blocks (Frame.keys number frames) key = false →
        (∃ result, Activity.Comes 0 world ⟨.run (.apply (.memoized number) key), outer⟩
            (world.record (.event number (some key) (.hit cache.storage.policy)))
            ⟨.answer (.ok result), outer⟩) ∨
          ∃ later place, Activity.Comes 0 world ⟨.run (.apply (.memoized number) key), outer⟩ later
            ⟨.run (.apply cache.underlying key), .computing number key place :: outer⟩ := by
  have uncurried : function.shape ≠ .curried := by
    rcases shape with shape | shape <;> simp [shape]
  have applied := FunctionValue.invoke?_uncurried uncurried invoked
  have onto : ∀ after outcome, system.world.Ends 0 computation after outcome ↔
      ∃ reached, system.world.Ends 0 (code (FunctionValue.argument arguments)) after reached ∧
        outcome = reached.caught := by
    intro after outcome
    rw [applied, catches]
    exact World.ends_apply.trans World.ends_attempt
  refine ⟨onto, inner.caught_ne_error, fun value => Outcome.caught_eq_present,
    Outcome.caught_eq_absent, ?_⟩
  have comes := ((onto world inner.caught).mpr ⟨inner, ends, rfl⟩).within frames
  obtain ⟨steps, after, followed, rfl, back⟩ := at'.follow comes
  have reaches : Reaches 1 system after := .of_follow followed
  have reached' : after.Reached 1 := Relation.ReflTransGen.trans reached reaches
  obtain ⟨added, log⟩ := Reaches.log reaches
  refine ⟨steps, after, added, followed, rfl, back, log.symm, comes.makesNothing.caches, ?_,
    fun number cache key outer found open' => back.admitted reached' found open' outer⟩
  intro number cache found
  obtain ⟨storage, kept, -⟩ := Reaches.caches reaches found
  exact ⟨storage, kept, gains_of_reaches reached found at'
    (show _ = [] ++ Frame.phases number frames from rfl) (by simp) reaches kept back
    (show _ = [] ++ Frame.phases number frames from rfl) (by simp) log.symm⟩

/-- A function that applies the memoized function of a cache and catches its failures. -/
def guarding : FunctionValue :=
  ⟨.one, .optional, .plain 1 (Code.catching fun argument => .apply (.memoized 0) argument)⟩

/-- A thread applies a memoized function that fails, inside of one that catches this. It comes back with
no value, and nobody holds or owns the latch of a slot. -/
theorem catching_is_clean_boundary_failing :
    ∃ system steps after, ∃ storage : Storage,
      (ofTasks (World.memoize {} .perKey .all (.plain 0 failing)).2
        [[.run (.apply guarding.callable (.int 1))]]).step 0 = some system ∧
      system.follow (List.replicate steps 0) = some after ∧
      after.At 0 ⟨.answer (.ok (.value .absent)), []⟩ ∧
      after.world.caches[0]? = some ⟨.plain 0 failing, .all, storage⟩ ∧
      ∀ place, storage.latch place = {} := by
  have made : Happens 1 ⟨{}, []⟩ ⟨(World.memoize {} .perKey .all (.plain 0 failing)).2, []⟩ :=
    .make (.memoize ..)
  have started : Happens 1 ⟨(World.memoize {} .perKey .all (.plain 0 failing)).2, []⟩
      (ofTasks (World.memoize {} .perKey .all (.plain 0 failing)).2
        [[.run (.apply guarding.callable (.int 1))]]) := .start _ (by simp) (by simp)
  have stepped : ∃ system world,
      (ofTasks (World.memoize {} .perKey .all (.plain 0 failing)).2
        [[.run (.apply guarding.callable (.int 1))]]).step 0 = some system ∧
      (system.workers[0]?).bind (·.current) = some ⟨.run (.apply guarding.callable (.int 1)), []⟩ ∧
      system.world.caches[0]? = some ⟨.plain 0 failing, .all, .slots {}⟩ ∧
      system.world.Ends 0 (.apply (.memoized 0) (.int 1)) world
        (.error (.raised (.text "no result"))) := ⟨_, _, rfl, rfl, rfl, 17, rfl⟩
  obtain ⟨system, world, stepped, current, found, ends⟩ := stepped
  have reached : system.Reached 1 := .tail (.tail (.single made) started) (.step 0 stepped)
  have boundary := catching_is_clean_boundary (rfl : guarding.callable = .plain 1 _) (.inl rfl)
    (show guarding.invoke? [.int 1] = some _ from rfl) reached (Option.bind_eq_some_iff.mp current) ends
  obtain ⟨-, -, -, -, steps, after, added, followed, rfl, back, -, -, gains, -⟩ := boundary
  obtain ⟨storage, kept, gained⟩ := gains 0 _ found
  refine ⟨system, steps, after, storage, stepped, followed, back, kept, fun place => ?_⟩
  rw [gained.latch place]
  rfl

end System

end FunctionValues
