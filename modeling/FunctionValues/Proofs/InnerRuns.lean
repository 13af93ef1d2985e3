import FunctionValues.Proofs.Nesting
import FunctionValues.Proofs.Applications

/-!
# Inside of runs

A step keeps the frames around a thread, adds one, or takes the innermost away. So a thread that is
inside of an application has come there from the beginning of that application, and a thread that is
inside of the run of the function behind a cache has come there from the beginning of that run. In a
program of a single thread a property that holds when such runs begin, and that every step inside of
one keeps, holds at every moment inside of one: `RunInvariant.of_reached`. What it says of the ends of
runs is true of every stored result: `RunInvariant.of_stored`.
-/

namespace FunctionValues

namespace Activity

variable {thread : Thread} {world after : World} {activity next : Activity} {number : Nat}
  {key : Value} {place : Nat} {outer : List Frame}

/-- What a step does to the frames around a thread. -/
inductive Shifts (world : World) : Activity → Activity → Prop
  | stays {focus focus' : Focus} {frames : List Frame} (going : ∀ outcome, focus ≠ .answer outcome) :
      Shifts world ⟨focus, frames⟩ ⟨focus', frames⟩
  | adds {focus focus' : Focus} {frame : Frame} {frames : List Frame}
      (going : ∀ outcome, focus ≠ .answer outcome) (code : frame.computation? = none) :
      Shifts world ⟨focus, frames⟩ ⟨focus', frame :: frames⟩
  | enters {number : Nat} {cache : Cache} {key : Value} {place : Nat} {frames : List Frame}
      (found : world.caches[number]? = some cache) :
      Shifts world ⟨.applying number key (.start place), frames⟩
        ⟨.run (.apply cache.underlying key), .computing number key place :: frames⟩
  | hands (outcome : Outcome) {focus : Focus} {frame : Frame} {frames : List Frame} :
      Shifts world ⟨.answer outcome, frame :: frames⟩ ⟨focus, frames⟩

private theorem Shifts.of_computation (world : World) (frames : List Frame)
    (computation : Computation) :
    Shifts world ⟨.run computation, frames⟩ (computation.next world frames).2 := by
  cases computation with
  | apply callable argument => cases callable <;> exact .stays (by simp)
  | bind first next | feed first argument => exact .adds (by simp) rfl
  | _ => exact .stays (by simp)

private theorem Shifts.of_outcome (world : World) (frames : List Frame) (outcome : Outcome)
    (frame : Frame) :
    Shifts world ⟨.answer outcome, frame :: frames⟩ (outcome.next world frames frame).2 := by
  rcases outcome with failure | (value | callable) <;> cases frame <;> exact .hands _

theorem shifts_of_next (stepped : activity.next thread world = .step after next) :
    activity.Shifts world next := by
  obtain ⟨focus, frames⟩ := activity
  cases focus with
  | run computation =>
      cases stepped
      exact .of_computation ..
  | answer outcome =>
      cases frames with
      | nil => cases stepped
      | cons frame frames =>
          cases stepped
          exact .of_outcome ..
  | applying number key stage =>
      simp only [Activity.next] at stepped
      split at stepped
      · cases stepped
      next cache found =>
        cases moved : cache.storage.advance cache.retention thread key stage with
        | wait => simp [moved, Move.progress] at stepped
        | go storage event next | finish storage outcome =>
            rw [moved] at stepped
            cases stepped
            exact .stays (by simp)
        | compute storage place =>
            obtain ⟨rfl, -⟩ := Storage.eq_start_of_compute moved
            rw [moved] at stepped
            cases stepped
            exact .enters found
  | counting number counting =>
      simp only [Activity.next] at stepped
      split at stepped
      · cases stepped
      · unfold CountMove.progress at stepped
        split at stepped <;> cases stepped <;> exact .stays (by simp)

/-- A step that leads to somewhere inside of a frame was made inside of it, or it added the frame. -/
theorem exists_within_of_next {frame : Frame}
    (stepped : activity.next thread world = .step after (next.within (frame :: outer))) :
    (∃ former : Activity, activity = former.within (frame :: outer) ∧
        former.next thread world = .step after next) ∨
      next.frames = [] ∧ activity.frames = outer := by
  -- A thread that has not answered makes the step on its own as well.
  have inside : ∀ former : Activity, activity = former.within (frame :: outer) →
      (∀ outcome, former ≠ ⟨.answer outcome, []⟩) → former.next thread world = .step after next := by
    rintro former rfl going
    rw [next_within _ going] at stepped
    cases progress : former.next thread world with
    | step world' following =>
        rw [progress] at stepped
        simp only [Progress.within, Progress.step.injEq] at stepped
        obtain ⟨rfl, same⟩ := stepped
        obtain ⟨focus, frames⟩ := following
        obtain ⟨focus', frames'⟩ := next
        simp only [within, Activity.mk.injEq, List.append_cancel_right_eq] at same
        obtain ⟨rfl, rfl⟩ := same
        rfl
    | wait | done outcome =>
        rw [progress] at stepped
        cases stepped
  obtain ⟨focus, frames⟩ := next
  obtain ⟨focus', frames'⟩ := activity
  have shifts := shifts_of_next stepped
  simp only [within] at shifts
  generalize around : frames ++ frame :: outer = all at shifts
  cases shifts with
  | stays going =>
      subst around
      refine .inl ⟨⟨focus', frames⟩, rfl, inside _ rfl fun outcome same => ?_⟩
      exact going outcome (congrArg Activity.focus same)
  | adds going code =>
      cases frames with
      | nil =>
          cases around
          exact .inr ⟨rfl, rfl⟩
      | cons other frames =>
          cases around
          refine .inl ⟨⟨focus', frames⟩, rfl, inside _ rfl fun outcome same => ?_⟩
          exact going outcome (congrArg Activity.focus same)
  | enters found =>
      cases frames with
      | nil =>
          cases around
          exact .inr ⟨rfl, rfl⟩
      | cons other frames =>
          cases around
          exact .inl ⟨_, rfl, inside ⟨_, frames⟩ rfl (by simp)⟩
  | @hands outcome _ other =>
      subst around
      exact .inl ⟨⟨_, other :: frames⟩, rfl, inside _ rfl (by simp)⟩

/-- A step that adds the frame of a computation is its beginning. -/
theorem begins_of_next {focus : Focus}
    (stepped : activity.next thread world = .step after ⟨focus, .computing number key place :: outer⟩)
    (around : activity.frames = outer) :
    ∃ cache, world.caches[number]? = some cache ∧
      activity = ⟨.applying number key (.start place), outer⟩ ∧
      focus = .run (.apply cache.underlying key) := by
  have shifts := shifts_of_next stepped
  generalize same : (⟨focus, .computing number key place :: outer⟩ : Activity) = last at shifts
  cases shifts with
  | stays going | hands outcome =>
      cases same
      have lengths := congrArg List.length around
      simp only [List.length_cons] at lengths
      omega
  | adds going code =>
      cases same
      cases code
  | enters found =>
      cases same
      exact ⟨_, found, rfl, rfl⟩

/-- The end of a run is told where its outcome is handed to its frame. -/
theorem ended_of_next {outcome : Outcome} (stepped : activity.next thread world = .step after next)
    (ended : .ended number key outcome ∈ after.log) :
    .ended number key outcome ∈ world.log ∨
      ∃ place outer, activity = ⟨.answer outcome, .computing number key place :: outer⟩ := by
  obtain ⟨focus, frames⟩ := activity
  cases focus with
  | run computation =>
      cases stepped
      cases computation with
      | apply callable argument => cases callable <;> exact .inl ended
      | note label arguments rest => exact .inl (by simpa [Computation.next, World.record] using ended)
      | _ => exact .inl ended
  | answer reached =>
      cases frames with
      | nil => cases stepped
      | cons frame frames =>
          cases stepped
          cases frame with
          | bind next | feed argument =>
              rcases reached with failure | (value | callable) <;> exact .inl ended
          | computing other argument place =>
              have told : .ended number key outcome ∈
                  (.ended other argument reached : Entry) :: world.log := by
                rcases reached with failure | (value | callable) <;> exact ended
              rcases List.mem_cons.mp told with same | told
              · cases same
                exact .inr ⟨place, frames, rfl⟩
              · exact .inl told
  | applying other argument stage =>
      simp only [Activity.next] at stepped
      split at stepped
      · cases stepped
      next cache found =>
        cases moved : cache.storage.advance cache.retention thread argument stage with
        | wait => simp [moved, Move.progress] at stepped
        | go storage event following =>
            rw [moved] at stepped
            cases stepped
            cases event with
            | none => exact .inl ended
            | some event => exact .inl (by simpa [World.recordEvent, World.record, World.setStorage] using ended)
        | compute storage place =>
            rw [moved] at stepped
            cases stepped
            exact .inl (by simpa [World.record, World.setStorage] using ended)
        | finish storage outcome =>
            rw [moved] at stepped
            cases stepped
            exact .inl ended
  | counting other progress =>
      simp only [Activity.next] at stepped
      split at stepped
      · cases stepped
      · unfold CountMove.progress at stepped
        split at stepped <;> cases stepped <;> exact .inl ended

end Activity

namespace System

variable {limit number : Nat} {thread : Thread} {system middle after : System} {key : Value}
  {frames inner : List Frame}

/-! ## Inside of applications -/

/-- A thread is in an application of a memoized function: at a stage of it, or inside of its run. -/
def In (system : System) (thread : Thread) (number : Nat) (key : Value) (frames : List Frame) :
    Prop :=
  (∃ stage, system.At thread ⟨.applying number key stage, frames⟩) ∨
    ∃ place, system.Inside thread (.computing number key place :: frames)

theorem In.inside (within : system.In thread number key frames) : system.Inside thread frames := by
  rcases within with ⟨stage, at'⟩ | ⟨place, focus, inner, at'⟩
  · exact ⟨_, [], at'⟩
  · exact ⟨focus, inner ++ [.computing number key place], by simpa using at'⟩

/-- A step that leads into an application was made in it, or at the beginning of it. -/
theorem In.of_step (within : after.In thread number key frames) {activity : Activity}
    (at' : system.At thread activity) (stepped : system.step thread = some after) :
    system.In thread number key frames ∨
      activity = ⟨.run (.apply (.memoized number) key), frames⟩ := by
  cases progress : activity.next thread system.world with
  | wait =>
      rw [at'.step_of_wait progress] at stepped
      cases stepped
  | done outcome =>
      -- The task is over, so the thread is at none.
      obtain ⟨⟨_, pending, outcomes⟩, present, rfl⟩ := at'
      have bound : thread < system.workers.length := (List.getElem?_eq_some_iff.mp present).1
      simp only [step, present, Worker.next, progress, Option.bind_eq_bind, Option.bind_some,
        Option.some.injEq] at stepped
      subst stepped
      obtain ⟨focus, inner, worker, present', current⟩ := within.inside
      rw [List.getElem?_set_self bound, Option.some.injEq] at present'
      subst present'
      cases current
  | step world next =>
      obtain ⟨-, there⟩ := at'.eq_of_progress stepped progress
      rcases within with ⟨stage, at''⟩ | ⟨place, focus, inner, at''⟩
      · cases there.unique at''
        obtain ⟨focus, frames'⟩ := activity
        cases focus with
        | run computation =>
            cases computation with
            | apply callable argument =>
                cases callable <;> cases progress
                exact .inr rfl
            | _ => cases progress
        | answer outcome =>
            cases frames' with
            | nil => cases progress
            | cons frame frames' =>
                cases frame with
                | bind following | feed argument =>
                    rcases outcome with failure | (value | callable) <;> cases progress
                | computing other argument place =>
                    rw [Activity.next_answer_computing] at progress
                    cases progress
                    exact .inl (.inr ⟨place, _, [], at'⟩)
        | applying other argument stage =>
            simp only [Activity.next] at progress
            split at progress
            · cases progress
            · unfold Move.progress at progress
              split at progress <;> cases progress
              exact .inl (.inl ⟨_, at'⟩)
        | counting other progress' =>
            simp only [Activity.next] at progress
            split at progress
            · cases progress
            · unfold CountMove.progress at progress
              split at progress <;> cases progress
      · obtain rfl : next = Activity.within (.computing number key place :: frames) ⟨focus, inner⟩ :=
          there.unique at''
        rcases Activity.exists_within_of_next progress with ⟨former, rfl, -⟩ | ⟨empty, around⟩
        · exact .inl (.inr ⟨place, former.focus, former.frames, at'⟩)
        · obtain rfl : inner = [] := empty
          obtain ⟨cache, -, rfl, -⟩ := Activity.begins_of_next progress around
          exact .inl (.inl ⟨_, at'⟩)

/-- A thread that is in an application began it: whatever it did inside of some frames until it was
in an application, it came to the beginning of that, and stayed inside of it from there on. -/
theorem In.begun {computation : Computation}
    (at' : system.At thread ⟨.run computation, frames⟩)
    (during : During limit thread frames system after)
    (within : after.In thread number key (inner ++ frames)) :
    ∃ begun, During limit thread frames system begun ∧
      begun.At thread ⟨.run (.apply (.memoized number) key), inner ++ frames⟩ ∧
      During limit thread (inner ++ frames) begun after := by
  induction during with
  | refl =>
      -- The thread is not in an application yet.
      exfalso
      rcases within with ⟨stage, at''⟩ | ⟨place, focus, between, at''⟩
      · cases at'.unique at''
      · have lengths := congrArg (·.frames.length) (at'.unique at'')
        simp only [List.length_append, List.length_cons] at lengths
        omega
  | @tail middle next before step induction =>
      obtain ⟨happens, -⟩ := step
      have inside := within.inside
      -- Where the thread was before the last thing that happened.
      obtain ⟨activity, there⟩ : ∃ activity, middle.At thread activity := by
        rcases before.cases_tail with same | ⟨_, _, _, focus, between, there⟩
        · exact ⟨_, same ▸ at'⟩
        · exact ⟨_, there⟩
      rcases there.of_happens happens with stepped | still
      · rcases within.of_step there stepped with former | rfl
        · obtain ⟨begun, earlier, beginning, onward⟩ := induction former
          exact ⟨begun, earlier, beginning, onward.tail ⟨happens, inside⟩⟩
        · exact ⟨middle, before, there, .single ⟨happens, inside⟩⟩
      · have former : middle.In thread number key (inner ++ frames) := by
          rcases within with ⟨stage, at''⟩ | ⟨place, focus, between, at''⟩
          · exact .inl ⟨stage, still.unique at'' ▸ there⟩
          · exact .inr ⟨place, focus, between, still.unique at'' ▸ there⟩
        obtain ⟨begun, earlier, beginning, onward⟩ := induction former
        exact ⟨begun, earlier, beginning, onward.tail ⟨happens, inside⟩⟩

/-! ## Inside of runs -/

/-- A property of what a single thread does inside of the runs of a function behind a cache: it holds
when a run begins, and whatever happens keeps it. -/
structure RunInvariant (number : Nat) (underlying : Callable)
    (holds : World → Value → Activity → Prop) : Prop where
  start (world : World) (key : Value) : holds world key ⟨.run (.apply underlying key), []⟩
  step {system after : System} {key : Value} {place : Nat} {outer : List Frame}
    {activity next : Activity} (reached : system.Reached 1)
    (at' : system.At 0 (activity.within (.computing number key place :: outer)))
    (stepped : system.step 0 = some after)
    (progress : activity.next 0 system.world = .step after.world next)
    (before : holds system.world key activity) : holds after.world key next
  make {world made : World} {key : Value} {activity : Activity} (makes : world.Makes made)
    (before : holds world key activity) : holds made key activity

/-- The only thread has the number zero. -/
theorem At.eq_zero {activity : Activity} (at' : system.At thread activity)
    (reached : system.Reached 1) : thread = 0 :=
  (at'.phases_eq reached.length_le 0).1

/-- A cache at which a thread computes exists. -/
theorem At.exists_cache {activity : Activity} {place : Nat} (reached : system.Reached limit)
    (at' : system.At thread activity) (member : .computing number key place ∈ activity.frames) :
    ∃ cache, system.world.caches[number]? = some cache := by
  cases found : system.world.caches[number]? with
  | some cache => exact ⟨cache, rfl⟩
  | none =>
      obtain ⟨worker, present, current⟩ := at'
      have inside : worker.phases number ∈ system.phases number :=
        List.mem_map_of_mem (List.mem_of_getElem? present)
      have phase : Phase.computing key place ∈ worker.phases number := by
        rw [Worker.phases, current]
        exact Activity.mem_phases.mpr (.inr (.inr ⟨key, place, rfl, member⟩))
      cases (reached.sound.absent found).2 _ inside _ phase

/-- A step that leads to somewhere inside of a run was made inside of it, or it began the run. -/
theorem At.within_of_step {place : Nat} {outer : List Frame} {next : Activity}
    (at' : after.At thread (next.within (.computing number key place :: outer)))
    (stepped : system.step thread = some after) :
    (∃ former : Activity, system.At thread (former.within (.computing number key place :: outer)) ∧
        former.next thread system.world = .step after.world next) ∨
      ∃ cache, system.world.caches[number]? = some cache ∧
        next = ⟨.run (.apply cache.underlying key), []⟩ := by
  obtain ⟨⟨current, pending, outcomes⟩, worker, world, present, moved, rfl⟩ := step_eq_some stepped
  have bound : thread < system.workers.length := (List.getElem?_eq_some_iff.mp present).1
  obtain ⟨_, present', current'⟩ := at'
  rw [List.getElem?_set_self bound, Option.some.injEq] at present'
  subst present'
  cases current with
  | none =>
      -- A task begins without frames around it.
      cases pending with
      | nil => cases moved
      | cons task pending =>
          cases moved
          have frames := congrArg (Option.map Activity.frames) current'
          cases task <;> simp [Task.begin] at frames
  | some activity =>
      simp only [Worker.next] at moved
      split at moved
      next progress =>
        cases moved
        obtain rfl := Option.some.inj current'
        rcases Activity.exists_within_of_next progress with ⟨former, rfl, inner⟩ | ⟨empty, around⟩
        · exact .inl ⟨former, ⟨_, present, rfl⟩, inner⟩
        · obtain ⟨focus, frames⟩ := next
          obtain rfl : frames = [] := empty
          obtain ⟨cache, found, -, rfl⟩ := Activity.begins_of_next progress around
          exact .inr ⟨cache, found, rfl⟩
      next => cases moved
      next =>
        cases moved
        cases current'

theorem ended_mem_marks {world : World} {outcome : Outcome} :
    .ended key outcome ∈ world.marks number ↔ .ended number key outcome ∈ world.log := by
  refine ⟨fun marked => ?_, fun ended => List.mem_filterMap.mpr ⟨_, ended, by simp [Entry.mark?]⟩⟩
  obtain ⟨entry, present, mark⟩ := List.mem_filterMap.mp marked
  cases entry <;> simp only [Entry.mark?, reduceCtorEq] at mark <;> split at mark <;> cases mark
  next here => exact here ▸ present

/-- What an application finds stored is the result of a run behind the same cache, for an equal
argument. -/
theorem Reached.ended_of_hit {cache : Cache} {place : Nat} {frames : List Frame} {result : Result}
    (reached : system.Reached limit)
    (at' : system.At thread ⟨.applying number key (.look place), frames⟩)
    (found : system.world.caches[number]? = some cache)
    (held : cache.storage.find? place key = some result) :
    ∃ argument, argument.same key = true ∧
      .ended number argument (.ok result) ∈ system.world.log := by
  have backed : Cache.Backed cache (system.phases number) (system.world.marks number) :=
    Cache.backed_invariant.of_reached reached cache found
  rw [(reached.sound.present found).find?_eq_stored? at'.mem_phases rfl] at held
  obtain ⟨argument, equal, ended, -⟩ := backed.stored held
  exact ⟨argument, equal, ended_mem_marks.mp ended⟩

/-- The end of a run that the log tells of was told before, or a thread is about to hand its outcome
on. -/
theorem Happens.ended {outcome : Outcome} (happens : Happens limit system after)
    (ended : .ended number key outcome ∈ after.world.log) :
    .ended number key outcome ∈ system.world.log ∨ ∃ thread place outer,
      system.At thread ⟨.answer outcome, .computing number key place :: outer⟩ := by
  cases happens with
  | step thread stepped =>
      obtain ⟨⟨current, pending, outcomes⟩, worker, world, present, moved, rfl⟩ := step_eq_some stepped
      cases current with
      | none =>
          cases pending <;> cases moved
          exact .inl ended
      | some activity =>
          simp only [Worker.next] at moved
          split at moved <;> cases moved
          next progress =>
            refine (Activity.ended_of_next progress ended).imp id ?_
            rintro ⟨place, outer, rfl⟩
            exact ⟨thread, place, outer, _, present, rfl⟩
          next => exact .inl ended
  | make makes =>
      cases makes with
      | define name function | create code => exact .inl ended
      | memoize policy retention callable =>
          cases callable with
          | memoized other => exact .inl ended
          | plain identity code => exact .inl ((List.mem_cons.mp ended).resolve_left (by simp))
  | start tasks few done => exact .inl ended

namespace RunInvariant

variable {underlying : Callable} {holds : World → Value → Activity → Prop} {cache : Cache}

/-- A step keeps the property inside of every run. -/
private theorem of_step (invariant : RunInvariant number underlying holds)
    (reached : system.Reached 1) (stepped : system.step 0 = some after)
    (found : system.world.caches[number]? = some cache) (behind : cache.underlying = underlying)
    (before : ∀ {key place outer activity},
      system.At 0 (activity.within (.computing number key place :: outer)) →
      holds system.world key activity)
    {place : Nat} {outer : List Frame} {next : Activity}
    (at' : after.At 0 (next.within (.computing number key place :: outer))) :
    holds after.world key next := by
  rcases at'.within_of_step stepped with ⟨former, there, progress⟩ | ⟨cache', found', rfl⟩
  · exact invariant.step reached there stepped progress (before there)
  · cases found.symm.trans found'
    exact behind ▸ invariant.start ..

/-- The property holds at every moment inside of a run. -/
theorem of_reached (invariant : RunInvariant number underlying holds) (reached : system.Reached 1)
    (found : system.world.caches[number]? = some cache) (behind : cache.underlying = underlying)
    {place : Nat} {outer : List Frame} {activity : Activity}
    (at' : system.At 0 (activity.within (.computing number key place :: outer))) :
    holds system.world key activity := by
  induction reached generalizing cache key place outer activity with
  | refl =>
      obtain ⟨worker, present, -⟩ := at'
      cases present
  | @tail middle after before happens induction =>
      have reached : middle.Reached 1 := before
      cases happens with
      | step thread stepped =>
          have happens : Happens 1 middle after := .step thread stepped
          obtain ⟨worker, next, world, present, -, -⟩ := step_eq_some stepped
          have bound := (List.getElem?_eq_some_iff.mp present).1
          obtain rfl : thread = 0 := Nat.lt_one_iff.mp (Nat.lt_of_lt_of_le bound reached.length_le)
          cases earlier : middle.world.caches[number]? with
          | some cache' =>
              obtain ⟨storage, kept, -⟩ := happens.caches earlier
              obtain rfl := Option.some.inj (found.symm.trans kept)
              exact invariant.of_step reached stepped earlier behind (induction earlier behind) at'
          | none =>
              -- A step makes no cache.
              obtain ⟨worker, next, world, present, moved, rfl⟩ := step_eq_some stepped
              have fresh := (reached.sound.absent earlier).2 (worker.phases number)
                (List.mem_map_of_mem (List.mem_of_getElem? present))
              rw [(Worker.fresh_of_next earlier moved fresh).1] at found
              cases found
      | @make world made workers makes =>
          have there : System.At ⟨world, workers⟩ 0
              (activity.within (.computing number key place :: outer)) := at'
          obtain ⟨cache', earlier⟩ := there.exists_cache reached
            (List.mem_append_right _ List.mem_cons_self)
          have kept := makes.caches earlier
          obtain rfl := Option.some.inj (found.symm.trans kept)
          exact invariant.make makes (induction earlier behind there)
      | start tasks few done =>
          obtain ⟨worker, present, current⟩ := at'
          simp only [ofTasks, List.getElem?_map, Option.map_eq_some_iff] at present
          obtain ⟨tasks, -, rfl⟩ := present
          cases current

variable {tells : World → Value → Outcome → Prop}

/-- What the property says of the end of a run, and what stays true, is true of every run that
ended. -/
theorem of_ended (invariant : RunInvariant number underlying holds)
    (told : ∀ {system : System} {key outcome place outer}, system.Reached 1 →
      system.At 0 ⟨.answer outcome, .computing number key place :: outer⟩ →
      holds system.world key ⟨.answer outcome, []⟩ → tells system.world key outcome)
    (lasts : ∀ {system after : System} {key outcome}, system.Reached 1 → Happens 1 system after →
      tells system.world key outcome → tells after.world key outcome)
    (reached : system.Reached 1) (found : system.world.caches[number]? = some cache)
    (behind : cache.underlying = underlying) {outcome : Outcome}
    (ended : .ended number key outcome ∈ system.world.log) : tells system.world key outcome := by
  induction reached generalizing cache with
  | refl => cases ended
  | @tail middle after before happens induction =>
      have reached : middle.Reached 1 := before
      -- A cache whose runs are told of exists.
      have already : .ended number key outcome ∈ middle.world.log →
          tells after.world key outcome := by
        intro ended
        have marked := ended_mem_marks.mpr ended
        cases earlier : middle.world.caches[number]? with
        | none =>
            rw [(reached.sound.absent earlier).1] at marked
            cases marked
        | some cache' =>
            obtain ⟨storage, kept, -⟩ := happens.caches earlier
            obtain rfl := Option.some.inj (found.symm.trans kept)
            exact lasts reached happens (induction earlier behind ended)
      rcases happens.ended ended with ended | ⟨thread, place, outer, there⟩
      · exact already ended
      · obtain rfl := there.eq_zero reached
        obtain ⟨cache', earlier⟩ := there.exists_cache reached List.mem_cons_self
        obtain ⟨storage, kept, -⟩ := happens.caches earlier
        obtain rfl := Option.some.inj (found.symm.trans kept)
        have inside : middle.At 0 (Activity.within (.computing number key place :: outer)
            ⟨.answer outcome, []⟩) := there
        exact lasts reached happens
          (told reached there (invariant.of_reached reached earlier behind inside))

/-- Every stored result is one that a run for an equal argument ended with. -/
theorem of_stored (invariant : RunInvariant number underlying holds)
    (told : ∀ {system : System} {key outcome place outer}, system.Reached 1 →
      system.At 0 ⟨.answer outcome, .computing number key place :: outer⟩ →
      holds system.world key ⟨.answer outcome, []⟩ → tells system.world key outcome)
    (lasts : ∀ {system after : System} {key outcome}, system.Reached 1 → Happens 1 system after →
      tells system.world key outcome → tells after.world key outcome)
    (reached : system.Reached 1) (found : system.world.caches[number]? = some cache)
    (behind : cache.underlying = underlying) {result : Result}
    (stored : cache.storage.stored? key = some result) :
    ∃ argument, argument.same key = true ∧ tells system.world argument (.ok result) := by
  have backed : Cache.Backed cache (system.phases number) (system.world.marks number) :=
    Cache.backed_invariant.of_reached reached cache found
  obtain ⟨argument, equal, ended, -⟩ := backed.stored stored
  exact ⟨argument, equal,
    invariant.of_ended told lasts reached found behind (ended_mem_marks.mp ended)⟩

end RunInvariant

end System

end FunctionValues
