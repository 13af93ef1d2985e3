import FunctionValues.Proofs.PlainResults
import FunctionValues.Proofs.Renumbering

/-!
# The missing work of a recursion

A pure function that applies itself, memoized with a lock for each argument and with every result
kept. Applied to an argument for which plain recursion comes to an end without a failure, it is
started once for every argument that is missing and for no other, whatever it was applied to before.
-/

namespace FunctionValues

/-- The argument of a run that started. -/
def Mark.started? : Mark → Option Value
  | started key => some key
  | ended .. => none

/-- The arguments that the function behind a cache was started for, the latest first. -/
def World.starts (world : World) (number : Nat) : List Value :=
  (world.marks number).filterMap Mark.started?

/-- A result is stored for an argument. -/
def Storage.Knows (storage : Storage) (key : Value) : Prop :=
  (storage.stored? key).isSome = true

namespace World

theorem starts_amend (world : World) (number : Nat) (storage : Storage) (entries : List Entry) :
    (world.amend number storage entries).starts number =
      (entries.filterMap (Entry.mark? number)).filterMap Mark.started? ++ world.starts number := by
  simp [starts, marks, amend]

end World

namespace Setting

variable {setting : Setting}

/-- No run of plain recursion for an argument fails, nor any run on the way. -/
def Calm (setting : Setting) (key : Value) : Prop :=
  ∀ other, Relation.ReflTransGen setting.Calls key other →
    ∀ failure deeds, ¬setting.Yields other (.error failure) deeds

theorem Calm.of_calls {key called : Value} (calm : setting.Calm key)
    (calls : setting.Calls key called) : setting.Calm called :=
  fun other reached => calm other (reached.head calls)

/-- A thread computes no argument that plain recursion reaches from this one. -/
def Apart (setting : Setting) (key : Value) (frames : List Frame) : Prop :=
  ∀ other ∈ Frame.keys setting.number frames, ¬Relation.ReflTransGen setting.Calls key other

namespace Apart

variable {own outer : List Frame} {key called : Value} {storage : Storage}

/-- What a run applies the function to does not lead back to its argument, nor to what was computed
before. -/
theorem within {place : Nat} (apart : setting.Apart key outer) (plain : setting.IsPlain)
    (waits : ∀ frame ∈ own, frame.IsPure setting.number setting.names) (halts : setting.Halts key)
    (calls : setting.Calls key called) :
    setting.Apart called (.computing setting.number key place :: (own ++ outer)) := by
  intro other computed reached
  rw [Frame.keys_computing, Frame.keys_append waits, List.mem_cons] at computed
  rcases computed with rfl | computed
  · exact halts.not_reached plain calls reached
  · exact apart other computed (reached.head calls)

/-- So an application is not refused. -/
theorem not_blocked (apart : setting.Apart key outer) (plain : setting.IsPlain)
    (faithful : setting.Faithful storage) (given : Activity.IsPure setting.number setting.names
      ⟨.run (.apply (.memoized setting.number) key), own⟩) :
    storage.policy.blocks (Frame.keys setting.number (own ++ outer)) key = false := by
  rw [faithful.policy, plain.policy, Frame.keys_append given.2, Policy.blocks, List.any_eq_false]
  intro other computed same
  obtain rfl := Value.eq_of_same given.isExact (Value.same_symm same)
  exact apart key computed .refl

end Apart

/-- From one world to another the function has done the work that was missing for the roots. -/
structure Completes (setting : Setting) (roots : Value → Prop) (started : List Value)
    (world : World) (storage : Storage) (after : World) (storage' : Storage) : Prop where
  serves : setting.Serves after storage'
  faithful : setting.Faithful storage'
  works : setting.Works roots storage.Knows storage'.Knows started
  starts : after.starts setting.number = started ++ world.starts setting.number
  size : storage'.size = storage.size + started.length

namespace Completes

variable {roots roots' : Value → Prop} {started started' : List Value}
  {world middle after : World} {storage storage' storage'' : Storage}

theorem congr (completes : setting.Completes roots started world storage after storage')
    (same : ∀ key, roots' key ↔ roots key) :
    setting.Completes roots' started world storage after storage' := by
  rwa [show roots' = roots from funext fun key => propext (same key)]

/-- Nothing is done where the function is not applied. -/
theorem nothing (none : ∀ key, ¬roots key) (serves : setting.Serves after storage)
    (faithful : setting.Faithful storage)
    (starts : after.starts setting.number = world.starts setting.number) :
    setting.Completes roots [] world storage after storage where
  serves := serves
  faithful := faithful
  works := .nothing none
  starts := starts
  size := rfl

theorem trans (first : setting.Completes roots started world storage middle storage')
    (second : setting.Completes roots' started' middle storage' after storage'') :
    setting.Completes (fun key => roots key ∨ roots' key) (started' ++ started) world storage after
      storage'' where
  serves := second.serves
  faithful := second.faithful
  works := first.works.trans second.works
  starts := by rw [second.starts, first.starts, List.append_assoc]
  size := by
    rw [second.size, first.size, List.length_append]
    omega

/-- A run for an argument that is missing: what was missing for what the function is applied to
meanwhile is done, and then the result is stored. -/
theorem run {begun : World} {before last : Storage} {key : Value} {result : Result}
    (completes : setting.Completes roots started begun before middle storage')
    (missing : storage.stored? key = none) (agrees : storage.Agrees before)
    (begins : begun.starts setting.number = key :: world.starts setting.number)
    (ends : after.starts setting.number = middle.starts setting.number)
    (serves : setting.Serves after last) (exact : key.isExact = true)
    (kept : setting.Matches key (.ok result)) (policy : last.policy = storage'.policy)
    (size : last.size = storage'.size + 1)
    (stored : ∀ other, last.stored? other =
      if key.same other then some result else storage'.stored? other)
    (calls : ∀ called, roots called ↔ setting.Calls key called)
    (acyclic : ∀ called, setting.Calls key called →
      ¬Relation.ReflTransGen setting.Calls called key) :
    setting.Completes (· = key) (started ++ [key]) world storage after last where
  serves := serves
  faithful := completes.faithful.of_kept exact kept policy stored
  works := by
    have known : before.Knows = storage.Knows := by
      funext other
      rw [Storage.Knows, agrees.stored, Storage.Knows]
    refine .run (by simp [Storage.Knows, missing]) (known ▸ completes.works) calls acyclic
      fun other => ?_
    rw [Storage.Knows, stored]
    split
    next same =>
      obtain rfl := Value.eq_of_same exact same
      simp
    next different =>
      have apart : other ≠ key := by
        rintro rfl
        exact different (Value.same_refl other)
      rw [or_iff_left apart, Storage.Knows]
  starts := by rw [ends, completes.starts, begins, List.append_assoc, List.singleton_append]
  size := by
    rw [size, completes.size, agrees.size, List.length_append, List.length_singleton]
    omega

end Completes

/-- A thread comes to an activity, and on the way the function does the work that was missing for
the roots. -/
def Attains (setting : Setting) (roots : Value → Prop) (world : World) (storage : Storage)
    (activity : Activity) (outer : List Frame) (to' : Activity) : Prop :=
  ∃ after, ∃ last : Activity, ∃ storage' started,
    Activity.Comes 0 world ⟨activity.focus, activity.frames ++ outer⟩ after
      ⟨last.focus, last.frames ++ outer⟩ ∧
    last.anonymous = to' ∧ last.IsPure setting.number setting.names ∧
    setting.Completes roots started world storage after storage'

/-! ## Courses of a thread on its own -/

section Comes

variable {inside : Bool} {own outer : List Frame} {key : Value} {world : World} {storage : Storage}
  {outcome : Outcome} {within : Multiset Deed}

/-- A thread that comes to the end of a course gives back its outcome. -/
private theorem Attains.answer {roots : Value → Prop} {activity : Activity}
    (attains : setting.Attains roots world storage activity outer ⟨.answer outcome, []⟩) :
    ∃ after last storage' started,
      Activity.Comes 0 world ⟨activity.focus, activity.frames ++ outer⟩ after
        ⟨.answer last, outer⟩ ∧
      last.anonymous = outcome ∧ last.IsPure setting.number setting.names ∧
      setting.Completes roots started world storage after storage' := by
  obtain ⟨after, ⟨focus, own⟩, storage', started, comes, ended, pure, completes⟩ := attains
  cases focus with
  | answer last =>
      obtain ⟨same, rfl⟩ : last.anonymous = outcome ∧ own = [] := by
        simpa [Activity.anonymous] using ended
      exact ⟨after, last, storage', started, comes, same, pure.1, completes⟩
  | run computation | applying cache key stage | counting cache counting => cases ended

/-- Pure code starts no run but by applying the function. -/
theorem Passes.starts {thread : Thread} {after : World} {activity next : Activity}
    {entries : List Entry} (passes : setting.Passes thread world activity outer after next entries)
    (given : activity.IsPure setting.number setting.names) (number : Nat) :
    after.starts number = world.starts number := by
  have stepped := passes.stepped
  obtain ⟨computation | outcome | _ | _, own⟩ := activity
  · simp only [Activity.next, Progress.step.injEq] at stepped
    rw [World.starts, ← stepped.1, Computation.marks_next, World.starts]
  · cases own with
    | nil => cases passes.paced true
    | cons frame own =>
        simp only [Activity.next, List.cons_append, Progress.step.injEq] at stepped
        rcases Outcome.phases_next world (own ++ outer) outcome frame number with
          ⟨-, marks⟩ | ⟨key, place, rfl, -, -⟩
        · rw [World.starts, ← stepped.1, marks, World.starts]
        · exact (List.forall_mem_cons.mp given.2).1.elim
  · exact given.elim
  · exact given.elim

/-- A move of plain recursion is a step of the thread, and no application. -/
private theorem exists_passes {activity next : Activity} {deeds : Multiset Deed}
    (pure : setting.IsPure) (plain : setting.IsPlain)
    (given : activity.IsPure setting.number setting.names) (serves : setting.Serves world storage)
    (paced : setting.pace inside activity.anonymous = some (deeds, next)) (outer : List Frame) :
    ∃ after last entries, setting.Passes 0 world activity outer after last entries := by
  obtain ⟨computation | outcome | _ | _, own⟩ := activity
  · by_cases applies : ∃ key, computation = .apply (.memoized setting.number) key
    · obtain ⟨key, rfl⟩ := applies
      cases (plain.pace_apply ..).symm.trans paced
    · exact pure.passes_run given (not_exists.mp applies) 0 serves.functions outer
  · cases own with
    | nil => cases paced
    | cons frame own =>
        obtain ⟨last, passes⟩ := passes_answer given 0 world outer
        exact ⟨world, last, [], passes⟩
  · exact given.elim
  · exact given.elim

/-- An application for which plain recursion comes to an end: a stored result is given back, or the
function is started and does what was missing for what it is applied to, before its result is
stored. -/
private theorem completes_of_yields (pure : setting.IsPure) (plain : setting.IsPlain)
    (all : setting.cache.retention = .all) (given : Activity.IsPure setting.number setting.names
      ⟨.run (.apply (.memoized setting.number) key), own⟩)
    (yields : setting.Yields key outcome within) (calm : setting.Calm key)
    (apart : setting.Apart key outer)
    (sound : world.SoundAt ⟨.run (.apply (.memoized setting.number) key), own ++ outer⟩)
    (serves : setting.Serves world storage) (faithful : setting.Faithful storage)
    (runs : ∀ {world : World} {storage : Storage} {place : Nat}, setting.Serves world storage →
      setting.Faithful storage →
      world.SoundAt ⟨.run (.apply setting.cache.underlying key),
        .computing setting.number key place :: (own ++ outer)⟩ →
      setting.Attains (fun other => .applied other ∈ within) world storage
        ⟨.run (.apply setting.cache.underlying key), []⟩
        (.computing setting.number key place :: (own ++ outer)) ⟨.answer outcome, []⟩) :
    ∃ after last storage' started, Activity.Comes 0 world
        ⟨.run (.apply (.memoized setting.number) key), own ++ outer⟩ after
        ⟨.answer last, own ++ outer⟩ ∧
      last.anonymous = outcome ∧ last.IsPure setting.number setting.names ∧
      setting.Completes (· = key) started world storage after storage' := by
  have open' := apart.not_blocked plain faithful given
  have begun := Activity.comes_seek world setting.number key (own ++ outer)
  have seeking := (sound.of_comes begun).seeking serves.found
  cases stored : storage.stored? key with
  | some result =>
      have hit := Activity.comes_of_stored (own ++ outer) serves.found seeking open' stored
      have known := faithful.stored stored
      exact ⟨_, .ok result, storage, [], begun.trans hit, (known.2 outcome within yields).symm,
        known.1, {
          serves := serves.record _
          faithful := faithful
          works := .hit (by simp [Storage.Knows, stored])
          starts := rfl
          size := rfl }⟩
  | none =>
      have exact := given.isExact
      have halts : setting.Halts key := ⟨outcome, within, yields⟩
      obtain ⟨storage₁, place, comes, agrees, policy⟩ :=
        Activity.comes_of_missing (own ++ outer) serves.found seeking open' stored
      have started := begun.trans comes
      obtain ⟨middle, last, storage₂, before, onward, rfl, pure', completes⟩ :=
        (runs (serves.amend _ _) (faithful.of_agrees agrees policy) (sound.of_comes started)).answer
      -- The run is on the course of plain recursion, so it does not fail, and every result is kept.
      rcases last with failure | result
      · exact (calm key .refl failure within yields).elim
      have ended := started.trans onward
      have computing := (sound.of_comes ended).computing completes.serves.found
      obtain ⟨storage₃, back, policy', size, stored'⟩ := Activity.comes_of_kept (own ++ outer)
        completes.serves.found computing (show setting.cache.retention.keeps result = true by
          rw [all]; rfl)
      have kept : setting.Matches key (.ok result) :=
        ⟨pure', fun plain' deeds yields' => (yields'.unique yields).2⟩
      refine ⟨_, .ok result, storage₃, before ++ [key], ended.trans back, rfl, pure', ?_⟩
      exact completes.run stored agrees
        (by simp [World.starts_amend, Entry.mark?, Mark.started?])
        (by simp [World.starts_amend, Entry.mark?, Mark.started?])
        (completes.serves.amend _ _) exact kept policy' size stored'
        (fun called => ⟨calls_of_applied pure exact yields, plain.applied_of_calls yields⟩)
        fun called => halts.not_reached plain

/-- A thread on its own goes along the course of what it runs, and the function does the work that
was missing for the arguments that it is applied to. -/
theorem Leads.attains {from' to' : Activity} {deeds : Multiset Deed}
    (leads : setting.Leads inside from' deeds to') (pure : setting.IsPure) (plain : setting.IsPlain)
    (all : setting.cache.retention = .all) {activity : Activity} (same : activity.anonymous = from')
    (given : activity.IsPure setting.number setting.names)
    (calm : ∀ key, .applied key ∈ deeds → setting.Calm key)
    (apart : ∀ key, .applied key ∈ deeds → setting.Apart key outer)
    (sound : world.SoundAt ⟨activity.focus, activity.frames ++ outer⟩)
    (serves : setting.Serves world storage) (faithful : setting.Faithful storage) :
    setting.Attains (fun key => .applied key ∈ deeds) world storage activity outer to' := by
  induction leads generalizing world storage activity outer with
  | refl =>
      exact ⟨world, activity, storage, [], .refl .., same, given,
        .nothing (by simp) serves faithful rfl⟩
  | @pace inside _ next _ deeds more paced _ induction =>
      subst same
      obtain ⟨middle, next', entries, passes⟩ := exists_passes pure plain given serves paced outer
      obtain ⟨-, same⟩ : _ ∧ next'.anonymous = next := by
        simpa using (passes.paced inside).symm.trans paced
      have stepped := Activity.Comes.single passes.stepped
      obtain ⟨after, last, storage', started, onward, same, pure', completes⟩ :=
        induction same passes.pure (fun key member => calm key (by simp [member]))
          (fun key member => apart key (by simp [member])) (sound.of_comes stepped)
          (serves.of_passes passes) faithful
      have first : setting.Completes (fun key => .applied key ∈ deeds) [] world storage middle
          storage :=
        .nothing (fun key => plain.not_applied paced) (serves.of_passes passes) faithful
          (passes.starts given setting.number)
      exact ⟨after, last, storage', _, stepped.trans onward, same, pure',
        (first.trans completes).congr fun key => Multiset.mem_add⟩
  | @compute inside key own outcome within more to' open' missing run rest runs induction =>
      obtain ⟨computation | _ | _ | _, frames⟩ := activity <;> try cases same
      simp only [Activity.anonymous, Activity.mk.injEq, Focus.run.injEq] at same
      obtain ⟨applies, rfl⟩ := same
      obtain rfl := Computation.eq_of_anonymous applies
      have exact := given.isExact
      have here : .applied key ∈ {.applied key} + more := by simp
      have halts : setting.Halts key := ⟨outcome, within, run⟩
      have calls : ∀ called, .applied called ∈ within → setting.Calls key called :=
        fun _ => calls_of_applied pure exact run
      have begins : Activity.anonymous ⟨.run (.apply setting.cache.underlying key), []⟩ =
        ⟨.run (setting.start key), []⟩ := rfl
      obtain ⟨middle, last, storage', started, comes, rfl, pure', first⟩ := completes_of_yields pure
        plain all given run (calm key here) (apart key here) sound serves faithful
        fun {world storage place} serves faithful sound =>
          runs begins ⟨.apply pure.underlying exact, List.forall_mem_nil _⟩
            (fun called member => (calm key here).of_calls (calls called member))
            (fun called member => (apart key here).within plain given.2 halts (calls called member))
            sound serves faithful
      have answers : Activity.anonymous ⟨.answer last, frames⟩ =
        ⟨.answer last.anonymous, frames⟩ := rfl
      obtain ⟨after, last', storage'', started', onward, same, pure'', second⟩ :=
        induction answers ⟨pure', given.2⟩ (fun called member => calm called (by simp [member]))
          (fun called member => apart called (by simp [member])) (sound.of_comes comes) first.serves
          first.faithful
      exact ⟨after, last', storage'', _, comes.trans onward, same, pure'',
        (first.trans second).congr fun called => by simp⟩

end Comes

end Setting

namespace System

/-- Any number of threads run pure code that applies a recursive function, memoized with a lock for
each argument and with every result kept, in any order of their steps in which all are done. Then
the function is applied to an argument for which plain recursion comes to an end without a failure
of any run. It comes back. It was started once for each argument that plain recursion reaches from
this one without coming by an argument that was stored before, the first and the last included, and
for no other; these have been stored besides what was stored, and so many more results are held. -/
theorem recursion_does_missing_work {limit : Nat} {world : World} {setting : Setting}
    {tasks : List (List Computation)} {schedule : List Thread} {after : System} {key : Value}
    (reached : (ofTasks world (tasks.map (·.map .run))).Reached limit)
    (functions : world.functions = setting.functions)
    (found : world.caches[setting.number]? = some setting.cache)
    (all : setting.cache.retention = .all) (empty : setting.cache.storage = .empty .perKey)
    (pure : setting.IsPure)
    (given : ∀ computations ∈ tasks, ∀ computation ∈ computations,
      computation.IsPure setting.number setting.names)
    (followed : (ofTasks world (tasks.map (·.map .run))).follow schedule = some after)
    (done : ∀ worker ∈ after.workers, worker.isDone = true) (exact : key.isExact = true)
    (halts : setting.Halts key) (calm : setting.Calm key) (thread : Thread) :
    ∃ last result before storage started,
      after.world.Ends thread (.apply (.memoized setting.number) key) last (.ok result) ∧
      after.world.caches[setting.number]? = some { setting.cache with storage := before } ∧
      last.caches[setting.number]? = some { setting.cache with storage := storage } ∧
      last.starts setting.number = started ++ after.world.starts setting.number ∧
      started.Nodup ∧ (∀ other, other ∈ started ↔ setting.Misses before.Knows key other) ∧
      (∀ other, storage.Knows other ↔ before.Knows other ∨ other ∈ started) ∧
      storage.size = before.size + started.length := by
  have plain : setting.IsPlain := .of_empty empty
  have orderly := (Setting.Orderly.start plain ⟨functions, found⟩ given).of_follow pure plain
    reached.sound followed
  obtain ⟨before, serves, faithful⟩ := orderly.serves
  have reached' : after.Reached limit := reached.trans (Reaches.of_follow followed)
  have sound : after.world.IsSound := reached'.sound.of_start [] done
  -- The application is itself a course, with the argument as the only one it is applied to.
  obtain ⟨outcome, within, yields⟩ := halts
  have leads := Setting.Gives.of_yields (plain.refuses true) (plain.unheld key) yields []
  have applied : ∀ {other}, Deed.applied other ∈ ({.applied key} : Multiset Deed) ↔ other = key :=
    by simp
  have attains : setting.Attains (fun other => .applied other ∈ ({.applied key} : Multiset Deed))
      after.world before ⟨.run (.apply (.memoized setting.number) key), []⟩ []
      ⟨.answer outcome, []⟩ :=
    leads.attains pure plain all rfl ⟨.apply .memoized exact, List.forall_mem_nil _⟩
      (fun other member => applied.mp member ▸ calm) (fun _ _ _ computed => nomatch computed)
      (sound.soundAt _) serves faithful
  obtain ⟨last, outcome', storage, started, comes, rfl, -, completes⟩ := attains.answer
  rcases outcome' with failure | result
  · exact (calm key .refl failure within yields).elim
  have works := (completes.congr fun _ => applied.symm).works
  have misses : ∀ other, other ∈ started ↔ setting.Misses before.Knows key other := fun other => by
    rw [works.mem_iff, exists_eq_left]
  exact ⟨last, result, before, storage, started,
    World.Ends.to_thread thread sound comes, serves.found, completes.serves.found, completes.starts,
    works.nodup, misses, works.stored_iff, completes.size⟩

/-! ## A program -/

/-- Count down by applying the memoized function, but on what is no number apply it to the same
argument again, and carry on if that fails. -/
def winding : Code
  | .int number =>
    if 0 < number then .apply (.memoized 0) (.int (number - 1)) else .value (.int 0)
  | argument => (Computation.apply (.memoized 0) argument).attempt

/-- The memoized function as it is made. -/
private def turning : Setting where
  functions := []
  names := ∅
  number := 0
  cache := ⟨.plain 0 winding, .all, .empty .perKey⟩

private theorem isPure_winding {argument : Value} (exact : argument.isExact = true) :
    (winding argument).IsPure 0 ∅ := by
  unfold winding
  split
  · split
    · exact .apply .memoized rfl
    · exact .finish rfl
  · exact Computation.IsPure.closed.attempt (.apply .memoized exact)

private theorem isPure_turning : turning.IsPure :=
  Setting.isPure_empty (fun _ known => known.elim) (.plain fun _ => isPure_winding)

private theorem isPlain_turning : turning.IsPlain :=
  .of_empty rfl

/-- What the function is applied to while it counts down from a number. -/
private def below : Nat → Multiset Deed
  | 0 => 0
  | number + 1 => {.applied (.int number)}

private theorem yields_turning (number : Nat) :
    turning.Yields (.int number) (.ok (.value (.int 0))) (below number) := by
  have begun : turning.pace true ⟨.run (turning.start (.int number)), []⟩ =
      some (0, ⟨.run (winding (.int number)).anonymous, []⟩) := rfl
  rw [← zero_add (below number)]
  refine .pace begun ?_
  induction number with
  | zero =>
      have ended : turning.pace true ⟨.run (winding (.int 0)).anonymous, []⟩ =
          some (0, ⟨.answer (.ok (.value (.int 0))), []⟩) := rfl
      exact .single ended
  | succ number induction =>
      have onward : (winding (.int ↑(number + 1))).anonymous =
          .apply (.memoized 0) (.int number) := by
        simp [winding, Computation.anonymous, Callable.anonymous]
      rw [onward, below]
      exact Setting.Gives.of_yields rfl rfl (.pace rfl (induction rfl)) []

private theorem calls_turning {number : Nat} {called : Value} :
    turning.Calls (.int number) called ↔ .applied called ∈ below number :=
  ⟨isPlain_turning.applied_of_calls (yields_turning number),
    Setting.calls_of_applied isPure_turning rfl (yields_turning number)⟩

private theorem calm_turning (number : Nat) : turning.Calm (.int number) := by
  have reached : ∀ other, Relation.ReflTransGen turning.Calls (.int number) other →
      ∃ lower : Nat, other = .int lower := by
    intro other reached
    induction reached with
    | refl => exact ⟨number, rfl⟩
    | tail _ calls induction =>
        obtain ⟨lower, rfl⟩ := induction
        have applied := calls_turning.mp calls
        cases lower with
        | zero => simp [below] at applied
        | succ lower => exact ⟨lower, by simpa [below] using applied⟩
  intro other path failure deeds yields
  obtain ⟨lower, rfl⟩ := reached other path
  cases (yields.unique (yields_turning lower)).2

private theorem misses_turning (number : Nat) {stored : Value → Prop} {other : Value}
    (missing : ¬stored (.int ↑(number + 1))) : turning.Misses stored (.int ↑(number + 1)) other ↔
      other = .int ↑(number + 1) ∨ turning.Misses stored (.int number) other := by
  rw [Setting.Misses.iff_calls, and_iff_right missing]
  simp only [calls_turning, below, Multiset.mem_singleton, Deed.applied.injEq, exists_eq_left]

/-- An application is refused inside of itself, which is caught, and then the function counts down
from one. Counting down from three starts it for three and two, but not for one again. -/
theorem recursion_does_missing_work_winding :
    ∃ after last result before storage started,
      (callers .perKey winding [[.text "loop", .int 1]]).follow (List.replicate 48 0) = some after ∧
      after.world.Ends 0 (.apply (.memoized 0) (.int 3)) last (.ok result) ∧
      after.world.caches[0]? = some ⟨.plain 0 winding, .all, before⟩ ∧ before.size = 3 ∧
      last.caches[0]? = some ⟨.plain 0 winding, .all, storage⟩ ∧ storage.size = 5 ∧
      last.starts 0 = started ++ after.world.starts 0 ∧ started.Nodup ∧
      (∀ other, other ∈ started ↔ other = .int 3 ∨ other = .int 2) ∧
      ∀ other, storage.Knows other ↔ before.Knows other ∨ other ∈ started := by
  have followed : ∃ after before,
      (callers .perKey winding [[.text "loop", .int 1]]).follow (List.replicate 48 0) = some after ∧
      after.workers.all (·.isDone) = true ∧
      after.world.caches[0]? = some ⟨.plain 0 winding, .all, before⟩ ∧ before.size = 3 ∧
      before.Knows (.int 1) ∧ before.stored? (.int 2) = none ∧ before.stored? (.int 3) = none :=
    ⟨_, _, rfl, rfl, rfl, rfl, rfl, rfl, rfl⟩
  obtain ⟨after, before, followed, done, found, size, one, two, three⟩ := followed
  have given : ∀ computations ∈ [[Computation.apply (.memoized 0) (.text "loop"),
      .apply (.memoized 0) (.int 1)]], ∀ computation ∈ computations, computation.IsPure 0 ∅ := by
    simp only [List.forall_mem_cons]
    exact ⟨⟨.apply .memoized rfl, .apply .memoized rfl, List.forall_mem_nil _⟩,
      List.forall_mem_nil _⟩
  obtain ⟨last, result, before', storage, started, ends, found', kept, starts, nodup, misses,
    stored, grown⟩ := recursion_does_missing_work
      (reached_callers .perKey winding [[.text "loop", .int 1]])
      (show _ = turning.functions from rfl) rfl rfl rfl isPure_turning given followed
      (by simpa using done) (show (Value.int 3).isExact = true from rfl) ⟨_, _, yields_turning 3⟩
      (calm_turning 3) 0
  obtain rfl : before = before' :=
    congrArg Cache.storage (Option.some.inj (found.symm.trans found'))
  have exactly : ∀ other, other ∈ started ↔ other = .int 3 ∨ other = .int 2 := by
    intro other
    have first : turning.Misses before.Knows (.int 3) other ↔
        other = .int 3 ∨ turning.Misses before.Knows (.int 2) other :=
      misses_turning 2 (by simp [Storage.Knows, three])
    have second : turning.Misses before.Knows (.int 2) other ↔
        other = .int 2 ∨ turning.Misses before.Knows (.int 1) other :=
      misses_turning 1 (by simp [Storage.Knows, two])
    have last : ¬turning.Misses before.Knows (.int 1) other := fun misses => misses.1 one
    rw [misses, first, second, or_iff_left last]
  have length : started.length = 2 := by
    have listed : started.Perm [.int 3, .int 2] :=
      (List.perm_ext_iff_of_nodup nodup (by simp)).mpr fun other => by simp [exactly]
    exact listed.length_eq
  exact ⟨after, last, result, before, storage, started, followed, ends, found, size, kept,
    by rw [grown, size, length], starts, nodup, exactly, stored⟩

end System

end FunctionValues
