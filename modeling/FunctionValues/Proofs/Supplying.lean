import FunctionValues.Proofs.InnerRuns
import FunctionValues.Proofs.Makings

/-!
# What curried functions give

A curried function that takes its first argument gives a plain callable. So does every function that
is made of one by wrapping and memoizing it: its applications run nothing but applications of the
functions that it is made of, and what their caches hold are results of such runs. All this is true
of any number of threads.
-/

namespace FunctionValues

/-- A curried function, or one that was made of a curried function by wrapping it and memoizing it
in caches that are known. -/
inductive Callable.Curries (known : Nat → Prop) : Callable → Prop
  | curried (identity : Nat) (function : Callable) :
      Curries known (.plain identity (Code.curried function))
  | rewrapped (identity : Nat) {callable : Callable} (curries : Curries known callable) :
      Curries known (.plain identity (Code.ofCallable callable))
  | memoized {number : Nat} (member : known number) : Curries known (.memoized number)

theorem Callable.Curries.mono {known known' : Nat → Prop} {callable : Callable}
    (curries : callable.Curries known) (more : ∀ number, known number → known' number) :
    callable.Curries known' := by
  induction curries with
  | curried identity function => exact .curried identity function
  | rewrapped identity _ induction => exact .rewrapped identity induction
  | memoized member => exact .memoized (more _ member)

/-- An outcome that gives no memoized function. -/
def Outcome.Withholds (outcome : Outcome) : Prop :=
  ∀ number, outcome ≠ .ok (.callable (.memoized number))

/-- Doing nothing but taking the first argument of a curried function. -/
inductive Focus.Currying (known : Nat → Prop) : Focus → Prop
  | apply {callable : Callable} (argument : Value) (curries : callable.Curries known) :
      Currying known (.run (.apply callable argument))
  | take (function : Callable) (first : Value) : Currying known (.run (Code.curried function first))
  | give (identity : Nat) (code : Code) : Currying known (.run (.give (.plain identity code)))
  | applying {number : Nat} {key : Value} {stage : Stage} (member : known number)
      (withholds : ∀ outcome, stage.outcome? = some outcome → outcome.Withholds) :
      Currying known (.applying number key stage)
  | answer {outcome : Outcome} (withholds : outcome.Withholds) : Currying known (.answer outcome)

/-- Doing nothing but taking the first argument of a curried function, inside of nothing but runs
that do. -/
structure Activity.Currying (known : Nat → Prop) (activity : Activity) : Prop where
  focus : activity.focus.Currying known
  frames {frame : Frame} (member : frame ∈ activity.frames) :
    ∃ number key place, known number ∧ frame = .computing number key place

namespace Activity

variable {known : Nat → Prop} {thread : Thread} {world after : World} {activity next : Activity}

/-- A step of a thread that takes the first argument of a curried function. -/
theorem Currying.of_next (currying : activity.Currying known)
    (behind : ∀ number cache, known number → world.caches[number]? = some cache →
      cache.underlying.Curries known)
    (hits : ∀ number cache key place result, known number → world.caches[number]? = some cache →
      activity.focus = .applying number key (.look place) →
      cache.storage.find? place key = some result → Outcome.Withholds (.ok result))
    (stepped : activity.next thread world = .step after next) : next.Currying known := by
  obtain ⟨focus, frames⟩ := activity
  obtain ⟨currying, within⟩ := currying
  dsimp only at currying within hits
  cases currying with
  | apply argument curries =>
      cases curries with
      | curried identity function =>
          cases stepped
          exact ⟨.take function argument, within⟩
      | rewrapped identity curries =>
          cases stepped
          exact ⟨.apply argument curries, within⟩
      | memoized member =>
          cases stepped
          exact ⟨.applying member (fun _ leads => by cases leads), within⟩
  | take function first =>
      cases stepped
      exact ⟨.give _ _, within⟩
  | give identity code =>
      cases stepped
      exact ⟨.answer (fun _ same => by cases same), within⟩
  | @applying number key stage member withholds =>
      simp only [Activity.next] at stepped
      split at stepped
      · cases stepped
      next cache found =>
        cases moved : cache.storage.advance cache.retention thread key stage with
        | wait => simp [moved, Move.progress] at stepped
        | compute storage place =>
            rw [moved] at stepped
            cases stepped
            refine ⟨.apply key (behind number cache member found), fun {frame} inside => ?_⟩
            rcases List.mem_cons.mp inside with rfl | inside
            · exact ⟨number, key, place, member, rfl⟩
            · exact within inside
        | finish storage outcome =>
            rw [moved] at stepped
            cases stepped
            obtain ⟨place, rfl, -⟩ := Storage.eq_drop_of_finish moved
            exact ⟨.answer (withholds outcome rfl), within⟩
        | go storage event following =>
            rw [moved] at stepped
            cases stepped
            refine ⟨.applying member fun outcome leads => ?_, within⟩
            cases known' : stage.outcome? with
            | some reached =>
                rw [Storage.outcome?_of_go known' moved, Option.some.injEq] at leads
                exact leads ▸ withholds reached known'
            | none =>
                rcases Storage.outcome?_of_first known' moved with
                  unknown | ⟨place, -, -, refused⟩ | ⟨place, result, rfl, held, -, hit⟩
                · rw [unknown] at leads
                  cases leads
                · rw [refused] at leads
                  cases leads
                  exact fun _ same => by cases same
                · rw [hit] at leads
                  cases leads
                  exact hits number cache key place result member found rfl held
  | @answer outcome withholds =>
      cases frames with
      | nil => cases stepped
      | cons frame frames =>
          obtain ⟨number, key, place, member, rfl⟩ := within List.mem_cons_self
          rw [next_answer_computing] at stepped
          cases stepped
          refine ⟨.applying member fun reached leads => ?_, fun inside =>
            within (List.mem_cons_of_mem _ inside)⟩
          cases leads
          exact withholds

end Activity

namespace System

variable {known : Nat → Prop} {limit number : Nat} {thread : Thread} {system after : System}
  {cache : Cache} {key : Value} {place : Nat} {frames outer : List Frame} {activity : Activity}

/-- The caches that are known keep results of curried functions: nothing else happens inside of their
runs, which end with no memoized function. -/
structure Curried (known : Nat → Prop) (system : System) : Prop where
  behind {number : Nat} (member : known number) :
    ∃ cache, system.world.caches[number]? = some cache ∧ cache.underlying.Curries known
  told {number : Nat} {key : Value} {outcome : Outcome} (member : known number)
    (ended : .ended number key outcome ∈ system.world.log) : outcome.Withholds
  inside {thread : Thread} {number : Nat} {key : Value} {place : Nat} {outer : List Frame}
    {activity : Activity} (member : known number)
    (at' : system.At thread (activity.within (.computing number key place :: outer))) :
    activity.Currying known

theorem Curried.curries (curried : system.Curried known) (number : Nat) (cache : Cache)
    (member : known number) (found : system.world.caches[number]? = some cache) :
    cache.underlying.Curries known := by
  obtain ⟨cache', found', curries⟩ := curried.behind member
  cases found.symm.trans found'
  exact curries

/-- What a thread finds in a cache that is known is no memoized function. -/
theorem Curried.hits (curried : system.Curried known) (reached : system.Reached limit)
    (at' : system.At thread ⟨.applying number key (.look place), frames⟩) (member : known number)
    (found : system.world.caches[number]? = some cache) {result : Result}
    (held : cache.storage.find? place key = some result) : Outcome.Withholds (.ok result) := by
  obtain ⟨argument, -, ended⟩ := reached.ended_of_hit at' found held
  exact curried.told member ended

/-- A step of a thread that takes the first argument of a curried function, inside of any frames. -/
theorem Curried.of_next (curried : system.Curried known) (reached : system.Reached limit)
    (at' : system.At thread (activity.within frames)) (currying : activity.Currying known)
    {world : World} {next : Activity}
    (stepped : activity.next thread system.world = .step world next) : next.Currying known := by
  refine currying.of_next curried.curries ?_ stepped
  intro number cache key place result member found focus held
  obtain ⟨_, inner⟩ := activity
  obtain rfl : _ = Focus.applying number key (.look place) := focus
  exact curried.hits reached at' member found held

private theorem Curried.of_step (curried : system.Curried known) (reached : system.Reached limit)
    {mover : Thread} (stepped : system.step mover = some after) (member : known number)
    (at' : after.At thread (activity.within (.computing number key place :: outer))) :
    activity.Currying known := by
  by_cases same : mover = thread
  · subst same
    rcases at'.within_of_step stepped with ⟨former, there, progress⟩ | ⟨cache, found, rfl⟩
    · exact curried.of_next reached there (curried.inside member there) progress
    · exact ⟨.apply key (curried.curries number cache member found), nofun⟩
  · obtain ⟨_, next, world, -, -, rfl⟩ := step_eq_some stepped
    obtain ⟨worker, present, current⟩ := at'
    rw [List.getElem?_set_ne same] at present
    exact curried.inside member ⟨worker, present, current⟩

/-- Whatever happens, the caches that are known keep results of curried functions. -/
theorem Curried.of_happens (curried : system.Curried known) (reached : system.Reached limit)
    (happens : Happens limit system after) : after.Curried known where
  behind member := by
    obtain ⟨cache, found, curries⟩ := curried.behind member
    obtain ⟨storage, kept, -⟩ := happens.caches found
    exact ⟨_, kept, curries⟩
  told {number key outcome} member ended := by
    rcases happens.ended ended with ended | ⟨thread, place, outer, there⟩
    · exact curried.told member ended
    · have inside : system.At thread (Activity.within (.computing number key place :: outer)
          ⟨.answer outcome, []⟩) := there
      obtain ⟨focus, -⟩ := curried.inside member inside
      cases focus with
      | answer withholds => exact withholds
  inside member at' := by
    cases happens with
    | step mover stepped => exact curried.of_step reached stepped member at'
    | make makes => exact curried.inside member at'
    | start tasks few done =>
        obtain ⟨worker, present, current⟩ := at'
        simp only [ofTasks, List.getElem?_map, Option.map_eq_some_iff] at present
        obtain ⟨tasks, -, rfl⟩ := present
        cases current

theorem Curried.of_reaches (curried : system.Curried known) (reached : system.Reached limit)
    (reaches : Reaches limit system after) : after.Curried known := by
  induction reaches with
  | refl => exact curried
  | tail before happens induction =>
      exact induction.of_happens (Relation.ReflTransGen.trans reached before) happens

/-- A thread that takes the first argument of a curried function does so until it comes back. -/
theorem Curried.of_comes (curried : system.Curried known) (reached : system.Reached limit)
    (at' : system.At thread activity) (currying : activity.Currying known) {world : World}
    {next : Activity} (comes : Activity.Comes thread system.world activity world next) :
    next.Currying known := by
  obtain ⟨steps, proceeded⟩ := comes
  induction steps generalizing system activity with
  | zero =>
      obtain ⟨-, rfl⟩ : system.world = world ∧ activity = next := by
        simpa [Activity.proceed] using proceeded
      exact currying
  | succ steps induction =>
      simp only [Activity.proceed] at proceeded
      split at proceeded
      next moved stepped =>
        obtain ⟨middle, happens, rfl, there⟩ := at'.eq_of_step stepped
        have inside : system.At thread (activity.within []) := by simpa [Activity.within] using at'
        exact induction (curried.of_happens reached (.step thread happens))
          (.tail reached (.step thread happens)) there
          (curried.of_next reached inside currying stepped) proceeded
      · cases proceeded
      · cases proceeded

/-- A cache is known as soon as it is made for a curried function. -/
theorem Curried.memoize {world : World} {identity : Nat} {code : Code} {policy : Policy}
    {retention : Retention} (curried : System.Curried known ⟨world, []⟩)
    (reached : Reached limit ⟨world, []⟩)
    (curries : (Callable.plain identity code).Curries known) :
    System.Curried (fun number => known number ∨ number = world.caches.length)
      ⟨(world.memoize policy retention (.plain identity code)).2, []⟩ := by
  have happens : Happens limit ⟨world, []⟩
      ⟨(world.memoize policy retention (.plain identity code)).2, []⟩ := .make (.memoize ..)
  have kept := curried.of_happens reached happens
  refine ⟨fun {number} member => ?_, fun {number key outcome} member ended => ?_, fun _ at' => ?_⟩
  · rcases member with member | rfl
    · obtain ⟨cache, found, curries⟩ := kept.behind member
      exact ⟨cache, found, curries.mono fun _ => .inl⟩
    · refine ⟨⟨.plain identity code, retention, .empty policy⟩, ?_, curries.mono fun _ => .inl⟩
      simp [World.memoize, World.record]
  · rcases member with member | rfl
    · exact kept.told member ended
    · -- Nothing ran behind a cache that was not there.
      rcases happens.ended ended with told | ⟨thread, place, outer, worker, present, -⟩
      · have marked := ended_mem_marks.mpr told
        rw [(reached.sound.absent (List.getElem?_eq_none (Nat.le_refl _))).1] at marked
        cases marked
      · cases present
  · obtain ⟨worker, present, -⟩ := at'
    cases present

end System

/-- What is of a curried shape was made by currying, or was cloned, wrapped or memoized. -/
theorem Transformation.of_type?_curried {transformation : Transformation} {shape : Shape}
    {kind kind' : Kind} (allowed : transformation.type? shape kind = some (.curried, kind')) :
    transformation = .curry ∨ shape = .curried ∧ (transformation = .clone ∨
      transformation = .rewrap ∨ ∃ policy retention, transformation = .memoize policy retention) := by
  cases transformation with
  | curry => exact .inl rfl
  | clone | rewrap =>
      cases allowed
      simp
  | memoize policy retention =>
      refine .inr ⟨?_, .inr (.inr ⟨policy, retention, rfl⟩)⟩
      unfold type? at allowed
      split at allowed <;> simp_all
  | fixFirst first | tuple | reverse =>
      unfold type? at allowed
      split at allowed <;> simp_all
  | coerce kind =>
      simp only [type?] at allowed
      split at allowed <;> simp_all
  | andThen later =>
      simp only [type?] at allowed
      split at allowed <;> simp_all
  | compose before =>
      unfold type? at allowed
      split at allowed <;> simp_all
      obtain ⟨taken, curried, -⟩ := allowed
      rcases taken with taken | taken <;> rw [curried] at taken <;> cases taken

namespace World

variable {known : Nat → Prop} {threads limit : Nat} {world after : World}

/-- Every function that is of a curried shape is a curried function, or was made of one. -/
structure Curried (known : Nat → Prop) (world : World) : Prop where
  caches : System.Curried known ⟨world, []⟩
  functions {name : String} {function : FunctionValue}
    (found : world.function? name = some function) (curried : function.shape = .curried) :
    function.callable.Curries known

theorem Curried.empty : World.Curried (fun _ => False) {} where
  caches := ⟨nofun, nofun, nofun⟩
  functions found := by cases found

theorem functions_callable (world : World) (source : Callable) (transformation : Transformation) :
    (transformation.callable world source).2.functions = world.functions := by
  cases transformation with
  | memoize policy retention => cases source <;> rfl
  | _ => rfl

/-- What is derived of a curried function is of another shape, or was made of that function. -/
private theorem curries_of_transformation {transformation : Transformation}
    {function result : FunctionValue} (caches : System.Curried known ⟨world, []⟩)
    (reached : System.Reached threads ⟨world, []⟩)
    (curries : function.shape = .curried → function.callable.Curries known)
    (performed : transformation.perform world function = some (result, after)) :
    ∃ known' : Nat → Prop, (∀ number, known number → known' number) ∧
      System.Curried known' ⟨after, []⟩ ∧ after.functions = world.functions ∧
      (result.shape = .curried → result.callable.Curries known') := by
  have onward := caches.of_reaches reached (reaches_of_transformation threads performed)
  simp only [Transformation.perform, Option.bind_eq_bind, Option.bind_eq_some_iff,
    Option.some.injEq, Prod.mk.injEq, Prod.exists] at performed
  obtain ⟨shape, kind, allowed, rfl, rfl⟩ := performed
  by_cases curried : shape = .curried
  · subst curried
    rcases Transformation.of_type?_curried allowed with
      rfl | ⟨same, rfl | rfl | ⟨policy, retention, rfl⟩⟩
    · exact ⟨known, fun _ => id, onward, rfl, fun _ => .curried ..⟩
    · exact ⟨known, fun _ => id, onward, rfl, fun _ => curries same⟩
    · exact ⟨known, fun _ => id, onward, rfl, fun _ => .rewrapped _ (curries same)⟩
    · obtain ⟨_, _, callable⟩ := function
      cases callable with
      | memoized number => exact ⟨known, fun _ => id, onward, rfl, fun _ => curries same⟩
      | plain identity code =>
          exact ⟨_, fun _ => .inl, caches.memoize reached (curries same), rfl,
            fun _ => .memoized (.inr rfl)⟩
  · exact ⟨known, fun _ => id, onward, functions_callable .., fun same => absurd same curried⟩

private theorem curries_of_repeated {transformation : Transformation} {times : Nat}
    {function result : FunctionValue} (caches : System.Curried known ⟨world, []⟩)
    (reached : System.Reached threads ⟨world, []⟩)
    (curries : function.shape = .curried → function.callable.Curries known)
    (repeated : transformation.repeated times world function = some (result, after)) :
    ∃ known' : Nat → Prop, (∀ number, known number → known' number) ∧
      System.Curried known' ⟨after, []⟩ ∧ after.functions = world.functions ∧
      (result.shape = .curried → result.callable.Curries known') := by
  induction times generalizing world function known with
  | zero =>
      cases repeated
      exact ⟨known, fun _ => id, caches, rfl, curries⟩
  | succ times induction =>
      simp only [Transformation.repeated, Option.bind_eq_bind, Option.bind_eq_some_iff,
        Prod.exists] at repeated
      obtain ⟨next, middle, performed, rest⟩ := repeated
      obtain ⟨known₁, more, caches, functions, curries⟩ :=
        curries_of_transformation caches reached curries performed
      have reached : System.Reached threads ⟨middle, []⟩ :=
        Relation.ReflTransGen.trans reached (reaches_of_transformation threads performed)
      obtain ⟨known₂, more', caches, functions', curries⟩ := induction caches reached curries rest
      exact ⟨known₂, fun number member => more' number (more number member), caches,
        functions'.trans functions, curries⟩

/-- What a curried function gives for a first argument is plain. -/
theorem Curried.plain_of_ends {function : FunctionValue} {name : String} {argument : Value}
    {callable : Callable} (curried : world.Curried known)
    (reached : System.Reached threads ⟨world, []⟩) (busy : 0 < threads)
    (found : world.function? name = some function) (shape : function.shape = .curried)
    (ends : world.Ends 0 (.apply function.callable argument) after (.ok (.callable callable))) :
    callable.isMemoized = false := by
  let task : Task := .run (.apply function.callable argument)
  have started : System.Happens threads ⟨world, []⟩ (.ofTasks world [[task]]) :=
    .start _ busy (by simp)
  have stepped : (System.ofTasks world [[task]]).step 0 =
      some ⟨world, [⟨some task.begin, [], []⟩]⟩ := rfl
  have reaches : System.Reaches threads ⟨world, []⟩ ⟨world, [⟨some task.begin, [], []⟩]⟩ :=
    .head started (.single (.step 0 stepped))
  have at' : System.At ⟨world, [⟨some task.begin, [], []⟩]⟩ 0 task.begin := ⟨_, rfl, rfl⟩
  have currying : task.begin.Currying known :=
    ⟨.apply argument (curried.functions found shape), nofun⟩
  obtain ⟨focus, -⟩ := (curried.caches.of_reaches reached reaches).of_comes
    (Relation.ReflTransGen.trans reached reaches) at' currying ends
  cases focus with
  | answer withholds =>
      cases callable with
      | plain identity code => rfl
      | memoized number => exact absurd rfl (withholds number)

private theorem Curried.of_makings {step : Step} {function : FunctionValue} {target : String}
    (curried : world.Curried known) (reached : System.Reached threads ⟨world, []⟩)
    (makings : world.Makings step function after)
    (reaches : System.Reaches threads ⟨world, []⟩ ⟨after.define target function, []⟩) :
    ∃ known', (after.define target function).Curried known' := by
  obtain ⟨known', more, caches, functions, curries⟩ : ∃ known' : Nat → Prop,
      (∀ number, known number → known' number) ∧
      System.Curried known' ⟨after.define target function, []⟩ ∧ after.functions = world.functions ∧
      (function.shape = .curried → function.callable.Curries known') := by
    cases makings with
    | code kind code uncurried other =>
        exact ⟨known, fun _ => id, curried.caches.of_reaches reached reaches, rfl,
          fun same => absurd same uncurried⟩
    | derived found repeated =>
        obtain ⟨known', more, caches, functions, curries⟩ :=
          curries_of_repeated curried.caches reached (curried.functions found) repeated
        have reached' : System.Reached threads ⟨after, []⟩ :=
          Relation.ReflTransGen.trans reached (reaches_of_repeated threads repeated)
        have happens : System.Happens threads ⟨after, []⟩ ⟨after.define target function, []⟩ :=
          .make (.define ..)
        exact ⟨known', more, caches.of_happens reached' happens, functions, curries⟩
    | supplied found shape ends =>
        exact ⟨known, fun _ => id, curried.caches.of_reaches reached reaches,
          (Activity.Comes.makesNothing ends).functions, nofun⟩
  refine ⟨known', caches, fun {name function'} found shape => ?_⟩
  rw [function?_define] at found
  split at found
  · cases found
    exact curries shape
  · rw [function?, functions] at found
    exact (curried.functions found shape).mono more

/-- Every step of a session keeps curried functions in order. -/
theorem Curried.of_perform {step : Step} {answer : Answer} (curried : world.Curried known)
    (reached : System.Reached threads ⟨world, []⟩) (few : step.width ≤ threads)
    (performed : world.perform limit step = .ok (answer, after)) :
    ∃ known', after.Curried known' := by
  have reaches := reaches_of_perform few performed
  rcases makings_of_perform performed with
    ⟨function, middle, target, -, -, rfl, makings⟩ | ⟨-, nothing⟩
  · exact curried.of_makings reached makings reaches
  · refine ⟨known, curried.caches.of_reaches reached reaches, fun {name function} found shape => ?_⟩
    rw [function?, nothing.functions] at found
    exact curried.functions found shape

end World

end FunctionValues
