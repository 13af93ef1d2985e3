import FunctionValues.Proofs.Strides
import FunctionValues.Transformation

/-!
# Values that share a cache

The callables that are derived from a memoized function, by whatever transformations, without being
memoized anew. To apply one of them is to apply the memoized function, and around that application
the thread computes what it computed before.
-/

namespace FunctionValues

/-- A callable that is derived from the memoized function of a cache and uses that cache. -/
inductive Callable.Shares (number : Nat) : Callable → Prop
  | memoized : Shares number (.memoized number)
  | derived {source : Callable} (shares : Shares number source) (transformation : Transformation)
      (world : World) (kept : ∀ policy retention, transformation = .memoize policy retention →
        source.isMemoized = true) :
      Shares number (transformation.callable world source).1

namespace Activity

/-- A thread that set out to apply a derived function has come to apply the memoized one, to give back
a function that is yet to be applied to its second argument, or to run what is to be applied first.
Around that it computes what it computed at the beginning. -/
inductive Arrives (number : Nat) (frames : List Frame) : Activity → Prop
  | applying {outer : List Frame} (key : Value)
      (same : ∀ other, Frame.keys other outer = Frame.keys other frames) :
      Arrives number frames ⟨.applying number key .seek, outer⟩
  | giving {callable : Callable} (shares : callable.Shares number) :
      Arrives number frames ⟨.answer (.ok (.callable callable)), frames⟩
  | before {outer : List Frame} {first : Computation} {next : Reply → Computation}
      {source : Callable} (shares : source.Shares number)
      (onward : ∀ value, next (.ok value) = .apply source value)
      (same : ∀ other, Frame.keys other outer = Frame.keys other frames) :
      Arrives number frames ⟨.run first, .bind next :: outer⟩

/-- Code that waits for an application to come back does not change where it arrives. -/
private theorem Arrives.of_bind {number : Nat} {frames : List Frame} {next : Reply → Computation}
    {activity : Activity} (arrives : activity.Arrives number (.bind next :: frames))
    (thread : Thread) (world : World) :
    ∃ last, Comes thread world activity world last ∧ last.Arrives number frames := by
  cases arrives with
  | applying key same => exact ⟨_, .refl .., .applying key fun other => same other⟩
  | giving shares => exact ⟨_, .single rfl, .giving shares⟩
  | before shares onward same =>
      exact ⟨_, .refl .., .before shares onward fun other => same other⟩

/-- To apply a derived function is to apply the memoized one. -/
theorem arrives_of_shares {number : Nat} {callable : Callable} (shares : callable.Shares number)
    (thread : Thread) (world : World) (argument : Value) (frames : List Frame) :
    ∃ after activity, Comes thread world ⟨.run (.apply callable argument), frames⟩ after activity ∧
      after.caches = world.caches ∧ after.log = world.log ∧ activity.Arrives number frames := by
  induction shares generalizing argument world frames with
  | memoized => exact ⟨world, _, .single rfl, rfl, rfl, .applying argument fun _ => rfl⟩
  | @derived source shares transformation made kept induction =>
      -- Code that applies the source, perhaps to another argument, does so with its first step.
      have directly : ∀ identity (code : Code) applied, code argument = .apply source applied →
          ∃ after activity, Comes thread world ⟨.run (.apply (.plain identity code) argument), frames⟩
              after activity ∧
            after.caches = world.caches ∧ after.log = world.log ∧ activity.Arrives number frames := by
        intro identity code applied same
        obtain ⟨after, activity, comes, caches, log, arrives⟩ := induction world applied frames
        refine ⟨after, activity, .trans (.single ?_) comes, caches, log, arrives⟩
        simp only [Activity.next, Computation.next, same]
      have first : ∀ identity (code : Code) next, code argument = .bind (.apply source argument) next →
          ∃ after activity, Comes thread world ⟨.run (.apply (.plain identity code) argument), frames⟩
              after activity ∧
            after.caches = world.caches ∧ after.log = world.log ∧ activity.Arrives number frames := by
        intro identity code next same
        obtain ⟨after, activity, comes, caches, log, arrives⟩ :=
          induction world argument (.bind next :: frames)
        obtain ⟨last, onward, arrives⟩ := arrives.of_bind thread after
        have begun : Comes thread world ⟨.run (.apply (.plain identity code) argument), frames⟩ world
            ⟨.run (.apply source argument), .bind next :: frames⟩ := by
          refine .trans (.single rfl) (.single ?_)
          simp only [Activity.next, Computation.next, same]
        exact ⟨after, last, (begun.trans comes).trans onward, caches, log, arrives⟩
      cases transformation with
      | clone => exact induction world argument frames
      | rewrap | tuple => exact directly _ _ _ rfl
      | fixFirst fixed | reverse => exact directly _ _ _ rfl
      | curry =>
          have given : ((Transformation.fixFirst argument).callable world source).1.Shares number :=
            .derived shares _ world (by simp)
          refine ⟨{ world with identities := world.identities + 1 }, _,
            .trans (.single rfl) (.trans (.single rfl) (.single rfl)), rfl, rfl, .giving given⟩
      | memoize policy retention =>
          cases source with
          | plain identity code => cases kept policy retention rfl
          | memoized cache => exact induction world argument frames
      | coerce kind => exact first _ _ _ rfl
      | andThen after => exact first _ _ _ rfl
      | compose before =>
          exact ⟨world, _, .trans (.single rfl) (.single rfl), rfl, rfl,
            .before shares (fun _ => rfl) fun _ => rfl⟩

end Activity

end FunctionValues
