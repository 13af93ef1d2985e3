import FunctionValues.Proofs.Followings
import FunctionValues.Proofs.Reachability
import FunctionValues.Proofs.Recursion

/-!
# Results of plain recursion

A function with a lock for each argument is applied by pure code in any number of threads, also to
arguments for which plain recursion would not come to an end. There an application may be refused
and the refusal caught, so that a thread leaves the course of plain recursion, and what it stores
then is nothing that plain recursion comes to. But where plain recursion comes to an end it is never
refused: whatever is stored for such an argument is the plain result.
-/

namespace FunctionValues

/-- The outcome that an application has come to. -/
def Stage.carried? : Stage → Option Outcome
  | settle _ outcome | keep _ outcome | unlock _ outcome _ | enter _ outcome | inspect _ outcome
  | clear _ outcome | leave _ outcome | drop _ outcome => some outcome
  | _ => none

/-- An application comes to an outcome by a refusal, by a stored result, or by a run. -/
theorem Storage.carried?_of_go {storage after : Storage} {retention : Retention} {thread : Thread}
    {key : Value} {stage next : Stage} {event : Option Event}
    (moved : storage.advance retention thread key stage = .go after event next) :
    next.carried? = stage.carried? ∨
      (∃ place, stage = .check place ∧ (storage.latch place).owner = some thread ∧
        next = .drop place (.error (.reentered storage.policy))) ∨
      ∃ place result, stage = .look place ∧ storage.find? place key = some result ∧
        next = .unlock place (.ok result) false := by
  cases goes_of_go moved with
  | refused owned => exact .inr (.inl ⟨_, rfl, owned, rfl⟩)
  | hit found => exact .inr (.inr ⟨_, _, rfl, found, rfl⟩)
  | unlatched place outcome vacant => exact .inl (by cases vacant <;> rfl)
  | passed place outcome flat cleans =>
      rcases cleans with rfl | rfl | rfl | rfl <;> exact .inl rfl
  | _ => exact .inl rfl

namespace Setting

variable (setting : Setting)

/-- An outcome is pure, and the one of plain recursion if that comes to an end. -/
def Matches (key : Value) (outcome : Outcome) : Prop :=
  outcome.IsPure setting.number setting.names ∧
    ∀ plain deeds, setting.Yields key plain deeds → plain = outcome.anonymous

/-- Every stored result is the one of plain recursion, if that comes to an end. -/
structure Faithful (storage : Storage) : Prop where
  policy : storage.policy = setting.policy
  stored {key : Value} {result : Result} (found : storage.stored? key = some result) :
    setting.Matches key (.ok result)

/-- A thread is at pure code, which is inside of a run for an argument or of none. If plain
recursion comes to an end for the argument, the thread is on its course. -/
structure Along (run : Option Value) (activity : Activity) : Prop where
  pure : activity.IsPure setting.number setting.names
  course : ∀ key ∈ run, setting.Halts key →
    ∃ deeds, setting.Leads true ⟨.run (setting.start key), []⟩ deeds activity.anonymous

/-- The run that a thread is inside of, with the frames outside of it. -/
inductive Inside : Option Value → List Frame → Prop
  | task : Inside none []
  | run {run : Option Value} {own outer : List Frame} {key : Value} (place : Nat)
      (inside : Inside run outer)
      (along : setting.Along run ⟨.run (.apply (.memoized setting.number) key), own⟩) :
      Inside (some key) (.computing setting.number key place :: (own ++ outer))

/-- A thread at pure code, or at an application of the function that has not come to another outcome
than plain recursion does. -/
inductive Conforms : Activity → Prop
  | level {run : Option Value} {outer : List Frame} (activity : Activity)
      (inside : setting.Inside run outer) (along : setting.Along run activity) :
      Conforms ⟨activity.focus, activity.frames ++ outer⟩
  | applying {run : Option Value} {own outer : List Frame} {key : Value} {stage : Stage}
      (inside : setting.Inside run outer)
      (along : setting.Along run ⟨.run (.apply (.memoized setting.number) key), own⟩)
      (carries : ∀ outcome, stage.carried? = some outcome → setting.Matches key outcome) :
      Conforms ⟨.applying setting.number key stage, own ++ outer⟩

variable {setting} {run : Option Value} {own outer : List Frame} {key other : Value}
  {storage after : Storage} {outcome : Outcome}

theorem Faithful.of_agrees (faithful : setting.Faithful storage) (agrees : storage.Agrees after)
    (policy : after.policy = storage.policy) : setting.Faithful after where
  policy := policy.trans faithful.policy
  stored found := faithful.stored (agrees.stored _ ▸ found)

/-- A result of the function is stored. -/
theorem Faithful.of_kept {result : Result} (faithful : setting.Faithful storage)
    (exact : key.isExact = true) (kept : setting.Matches key (.ok result))
    (policy : after.policy = storage.policy)
    (stored : ∀ other, after.stored? other =
      if key.same other then some result else storage.stored? other) : setting.Faithful after where
  policy := policy.trans faithful.policy
  stored {other result'} found := by
    rw [stored] at found
    split at found
    next same =>
      obtain rfl := Value.eq_of_same exact same
      cases found
      exact kept
    next => exact faithful.stored found

namespace Along

/-- The function is applied to exact values only. -/
theorem isExact (along : setting.Along run ⟨.run (.apply (.memoized setting.number) key), own⟩) :
    key.isExact = true :=
  along.pure.isExact

theorem calls {caller : Value}
    (along : setting.Along (some caller) ⟨.run (.apply (.memoized setting.number) key), own⟩)
    (halts : setting.Halts caller) : setting.Calls caller key := by
  obtain ⟨deeds, leads⟩ := along.course caller rfl halts
  exact ⟨own, deeds, leads⟩

/-- A step of pure code. -/
theorem of_passes {thread : Thread} {world after : World} {activity next : Activity}
    {entries : List Entry} (along : setting.Along run activity)
    (passes : setting.Passes thread world activity outer after next entries) :
    setting.Along run next where
  pure := passes.pure
  course key inside halts := by
    obtain ⟨deeds, leads⟩ := along.course key inside halts
    exact ⟨_, leads.trans (.single (passes.paced true))⟩

/-- The beginning of a run. -/
theorem start (pure : setting.IsPure) (exact : key.isExact = true) :
    setting.Along (some key) ⟨.run (.apply setting.cache.underlying key), []⟩ where
  pure := ⟨.apply pure.underlying exact, List.forall_mem_nil _⟩
  course key inside _ := by
    cases inside
    exact ⟨0, .refl _⟩

/-- The end of a run. -/
theorem ended (along : setting.Along (some key) ⟨.answer outcome, []⟩) :
    setting.Matches key outcome := by
  refine ⟨along.pure.1, fun plain deeds yields => ?_⟩
  obtain ⟨deeds', leads⟩ := along.course key rfl ⟨plain, deeds, yields⟩
  exact (yields.unique leads).2

/-- The end of an application. -/
theorem answer (along : setting.Along run ⟨.run (.apply (.memoized setting.number) key), own⟩)
    (plain : setting.IsPlain) (carries : setting.Matches key outcome) :
    setting.Along run ⟨.answer outcome, own⟩ where
  pure := ⟨carries.1, along.pure.2⟩
  course caller inside halts := by
    obtain ⟨deeds, leads⟩ := along.course caller inside halts
    obtain ⟨outcome', within, yields⟩ := halts.of_calls plain ⟨own, deeds, leads⟩
    obtain rfl := carries.2 outcome' within yields
    exact ⟨_, leads.trans (.compute (plain.refuses true) (plain.unheld key) yields (.refl _))⟩

end Along

namespace Inside

/-- If plain recursion comes to an end for an argument that a thread computes, it comes to the
argument of the innermost run. -/
theorem reached (inside : setting.Inside run outer) (plain : setting.IsPlain)
    (computed : key ∈ Frame.keys setting.number outer) (halts : setting.Halts key) :
    ∃ last ∈ run, Relation.ReflTransGen setting.Calls key last := by
  induction inside with
  | task => cases computed
  | @run run own outer argument place _ along induction =>
      rw [Frame.keys_computing, Frame.keys_append along.pure.2, List.mem_cons] at computed
      rcases computed with rfl | computed
      · exact ⟨_, rfl, .refl⟩
      · obtain ⟨last, here, reached⟩ := induction computed
        cases here
        exact ⟨_, rfl, reached.tail (along.calls (halts.of_reached plain reached))⟩

/-- Where plain recursion comes to an end, it is not refused. -/
theorem not_halts (inside : setting.Inside run outer)
    (along : setting.Along run ⟨.run (.apply (.memoized setting.number) key), own⟩)
    (plain : setting.IsPlain) (computed : key ∈ Frame.keys setting.number outer) :
    ¬setting.Halts key := by
  intro halts
  obtain ⟨last, rfl, reached⟩ := inside.reached plain computed halts
  have halts' := halts.of_reached plain reached
  exact halts'.not_reached plain (along.calls halts') reached

end Inside

/-! ## Steps -/

section Step

variable {world after : World} {thread : Thread} {next : Activity} {threads : List (List Phase)}
  {marks : List Mark} {stage : Stage}

/-- What a step comes to that conforms to plain recursion. -/
private def Persists (setting : Setting) (after : World) (next : Activity) : Prop :=
  ∃ storage, setting.Serves after storage ∧ setting.Faithful storage ∧ setting.Conforms next

private theorem persists_of_level {activity : Activity} (pure : setting.IsPure)
    (inside : setting.Inside run outer) (along : setting.Along run activity)
    (serves : setting.Serves world storage) (faithful : setting.Faithful storage)
    (stepped : Activity.next thread world ⟨activity.focus, activity.frames ++ outer⟩ =
      .step after next) : setting.Persists after next := by
  obtain ⟨computation | outcome | _ | _, own⟩ := activity
  · by_cases applies : ∃ key, computation = .apply (.memoized setting.number) key
    · obtain ⟨key, rfl⟩ := applies
      cases stepped
      exact ⟨storage, serves, faithful, .applying inside along fun _ carried => nomatch carried⟩
    · obtain ⟨after', next', entries, passes⟩ := pure.passes_run along.pure
        (not_exists.mp applies) thread serves.functions outer
      obtain ⟨rfl, rfl⟩ := Progress.step.inj (passes.stepped.symm.trans stepped)
      exact ⟨storage, serves.of_passes passes, faithful,
        .level next' inside (along.of_passes passes)⟩
  · cases own with
    | cons frame own =>
        obtain ⟨next', passes⟩ := passes_answer along.pure thread world outer
        obtain ⟨rfl, rfl⟩ := Progress.step.inj (passes.stepped.symm.trans stepped)
        exact ⟨storage, serves, faithful, .level next' inside (along.of_passes passes)⟩
    | nil =>
        cases inside with
        | task => cases stepped
        | @run run own outer key place inside along' =>
            rw [List.nil_append, Activity.next_answer_computing] at stepped
            cases stepped
            refine ⟨storage, serves.record _, faithful, .applying inside along' ?_⟩
            rintro _ ⟨⟩
            exact along.ended
  · exact along.pure.elim
  · exact along.pure.elim

/-- The stages of an application come to no other outcome than plain recursion does. -/
private theorem carries_of_go {next : Stage} {storage' : Storage} {event : Option Event}
    (plain : setting.IsPlain) (inside : setting.Inside run outer)
    (along : setting.Along run ⟨.run (.apply (.memoized setting.number) key), own⟩)
    (carries : ∀ outcome, stage.carried? = some outcome → setting.Matches key outcome)
    (faithful : setting.Faithful storage)
    (sound : Cache.Sound { setting.cache with storage := storage } threads marks)
    (present : threads[thread]? = some (.applying key stage :: Frame.phases setting.number outer))
    (moved : storage.advance setting.cache.retention thread key stage = .go storage' event next) :
    ∀ outcome, next.carried? = some outcome → setting.Matches key outcome := by
  intro outcome carried
  rcases Storage.carried?_of_go moved with same | ⟨place, rfl, owned, rfl⟩ |
    ⟨place, result, rfl, found, rfl⟩
  · exact carries outcome (same ▸ carried)
  · -- Refused: the thread computes the argument already, so plain recursion does not end for it.
    cases carried
    have blocked := (sound.owner_iff present (Frame.inward_phases _ _)).mp owned
    obtain ⟨other, computed, same⟩ := (Policy.blocks_iff ..).mp blocked
    rw [faithful.policy, plain.policy, or_iff_right (by simp)] at same
    obtain rfl := Value.eq_of_same along.isExact (Value.same_symm same)
    exact ⟨rfl, fun outcome deeds yields =>
      (inside.not_halts along plain computed ⟨outcome, deeds, yields⟩).elim⟩
  · cases carried
    have member : Phase.applying key (.look place) ∈ threads.getD thread [] := by simp [present]
    exact faithful.stored ((sound.find?_eq_stored? member rfl).symm.trans found)

/-- What the stages of an application store is what plain recursion comes to. -/
private theorem faithful_of_go {next : Stage} {storage' : Storage} {event : Option Event}
    (exact : key.isExact = true)
    (carries : ∀ outcome, stage.carried? = some outcome → setting.Matches key outcome)
    (faithful : setting.Faithful storage)
    (sound : Cache.Sound { setting.cache with storage := storage } threads marks)
    (present : threads[thread]? = some (.applying key stage :: Frame.phases setting.number outer))
    (moved : storage.advance setting.cache.retention thread key stage = .go storage' event next) :
    setting.Faithful storage' := by
  have member : Phase.applying key stage ∈ threads.getD thread [] := by simp [present]
  by_cases keeping : ∃ place outcome, stage = .keep place outcome
  · obtain ⟨place, outcome, rfl⟩ := keeping
    simp only [Storage.advance, Storage.keep] at moved
    split at moved
    next result =>
      split at moved <;> cases moved
      · exact faithful.of_kept exact (carries _ rfl) (Storage.policy_insert ..)
          (sound.stored?_insert member rfl)
      · exact faithful
    next =>
      cases moved
      exact faithful
  · exact faithful.of_agrees (sound.agrees_of_go member
      (fun place outcome same => keeping ⟨place, outcome, same⟩) moved) (Storage.policy_of_go moved)

private theorem persists_of_applying (pure : setting.IsPure) (plain : setting.IsPlain)
    (inside : setting.Inside run outer)
    (along : setting.Along run ⟨.run (.apply (.memoized setting.number) key), own⟩)
    (carries : ∀ outcome, stage.carried? = some outcome → setting.Matches key outcome)
    (serves : setting.Serves world storage) (faithful : setting.Faithful storage)
    (sound : Cache.Sound { setting.cache with storage := storage } threads marks)
    (present : threads[thread]? = some (.applying key stage :: Frame.phases setting.number outer))
    (stepped : Activity.next thread world ⟨.applying setting.number key stage, own ++ outer⟩ =
      .step after next) : setting.Persists after next := by
  simp only [Activity.next, serves.found] at stepped
  cases moved : storage.advance setting.cache.retention thread key stage with
  | wait =>
      rw [moved] at stepped
      cases stepped
  | go storage' event stage' =>
      rw [moved, Move.progress, World.setStorage_recordEvent] at stepped
      cases stepped
      exact ⟨storage', serves.amend _ _,
        faithful_of_go along.isExact carries faithful sound present moved,
        .applying inside along (carries_of_go plain inside along carries faithful sound present
          moved)⟩
  | compute storage' place =>
      rw [moved] at stepped
      cases stepped
      obtain ⟨-, rfl⟩ := Storage.eq_start_of_compute moved
      exact ⟨_, (serves.amend _ []).record _,
        faithful.of_agrees (.of_modifyLatch ..) (Storage.policy_modifyLatch ..),
        .level ⟨.run (.apply setting.cache.underlying key), []⟩ (.run place inside along)
          (.start pure along.isExact)⟩
  | finish storage' outcome =>
      rw [moved] at stepped
      cases stepped
      obtain ⟨place, rfl, dropped⟩ := Storage.eq_drop_of_finish moved
      exact ⟨storage', serves.amend _ [],
        faithful.of_agrees (.of_drop dropped) (Storage.alike_of_drop dropped).policy,
        .level ⟨.answer outcome, own⟩ inside (along.answer plain (carries outcome rfl))⟩

/-- A step of a thread that conforms to plain recursion. -/
theorem Conforms.of_next {activity : Activity} (conforms : setting.Conforms activity)
    (pure : setting.IsPure) (plain : setting.IsPlain) (serves : setting.Serves world storage)
    (faithful : setting.Faithful storage)
    (sound : Cache.Sound { setting.cache with storage := storage } threads marks)
    (present : threads[thread]? = some (activity.phases setting.number))
    (stepped : activity.next thread world = .step after next) :
    ∃ storage, setting.Serves after storage ∧ setting.Faithful storage ∧ setting.Conforms next := by
  cases conforms with
  | level activity inside along => exact persists_of_level pure inside along serves faithful stepped
  | @applying run own outer key stage inside along carries =>
      rw [Activity.phases_applying, if_pos rfl, Frame.phases_append along.pure.2] at present
      exact persists_of_applying pure plain inside along carries serves faithful sound present
        stepped

end Step

/-! ## Threads -/

/-- A thread runs pure code, and is at none that does not conform to plain recursion. -/
structure Tame (setting : Setting) (worker : Worker) : Prop where
  current : ∀ activity ∈ worker.current, setting.Conforms activity
  pending : ∀ task ∈ worker.pending, ∃ computation, task = .run computation ∧
    computation.IsPure setting.number setting.names

/-- Threads run pure code, and results are those of plain recursion. -/
structure Orderly (setting : Setting) (system : System) : Prop where
  serves : ∃ storage, setting.Serves system.world storage ∧ setting.Faithful storage
  tame : ∀ worker ∈ system.workers, setting.Tame worker

section Threads

variable {system after : System} {thread : Thread}

/-- A step of a thread that runs pure code. -/
theorem Tame.of_next {worker next : Worker} {world after : World} {threads : List (List Phase)}
    {marks : List Mark} (tame : setting.Tame worker) (pure : setting.IsPure)
    (plain : setting.IsPlain) (serves : setting.Serves world storage)
    (faithful : setting.Faithful storage)
    (sound : Cache.Sound { setting.cache with storage := storage } threads marks)
    (present : threads[thread]? = some (worker.phases setting.number))
    (stepped : worker.next thread world = some (after, next)) :
    (∃ storage, setting.Serves after storage ∧ setting.Faithful storage) ∧ setting.Tame next := by
  obtain ⟨_ | activity, pending, outcomes⟩ := worker
  · cases pending with
    | nil => cases stepped
    | cons task pending =>
        cases stepped
        obtain ⟨⟨computation, rfl, given⟩, later⟩ := List.forall_mem_cons.mp tame.pending
        refine ⟨⟨storage, serves, faithful⟩, ?_, later⟩
        rintro _ ⟨⟩
        exact .level ⟨.run computation, []⟩ .task
          ⟨⟨given, List.forall_mem_nil _⟩, fun _ inside => by cases inside⟩
  · simp only [Worker.next] at stepped
    split at stepped
    next world' activity' moved =>
      cases stepped
      obtain ⟨storage', serves', faithful', conforms⟩ :=
        (tame.current activity rfl).of_next pure plain serves faithful sound present moved
      refine ⟨⟨storage', serves', faithful'⟩, ?_, tame.pending⟩
      rintro _ ⟨⟩
      exact conforms
    · cases stepped
    · cases stepped
      exact ⟨⟨storage, serves, faithful⟩, fun _ busy => (by cases busy), tame.pending⟩

namespace Orderly

/-- Threads that have not begun. -/
theorem start {world : World} {tasks : List (List Computation)} (plain : setting.IsPlain)
    (serves : setting.Serves world setting.cache.storage)
    (given : ∀ computations ∈ tasks, ∀ computation ∈ computations,
      computation.IsPure setting.number setting.names) :
    setting.Orderly (.ofTasks world (tasks.map (·.map .run))) where
  serves := ⟨_, serves, rfl, fun {key result} found => by
    have held := plain.unheld key
    rw [held?, found] at held
    cases held⟩
  tame worker member := by
    simp only [System.ofTasks, List.mem_map] at member
    obtain ⟨_, ⟨computations, mine, rfl⟩, rfl⟩ := member
    refine ⟨fun _ busy => (by cases busy), fun task pending => ?_⟩
    obtain ⟨computation, member, rfl⟩ := List.mem_map.mp pending
    exact ⟨computation, rfl, given computations mine computation member⟩

/-- Threads that run pure code store only what plain recursion comes to, whatever they do. -/
theorem of_step (orderly : setting.Orderly system) (pure : setting.IsPure) (plain : setting.IsPlain)
    (sound : system.Sound) (stepped : system.step thread = some after) : setting.Orderly after := by
  obtain ⟨worker, next, world, present, moved, rfl⟩ := System.step_eq_some stepped
  obtain ⟨storage, serves, faithful⟩ := orderly.serves
  obtain ⟨serves', tame⟩ := (orderly.tame worker (List.mem_of_getElem? present)).of_next pure plain
    serves faithful (sound.present serves.found) (by simp [System.phases, present]) moved
  refine ⟨serves', fun other member => ?_⟩
  rcases List.mem_or_eq_of_mem_set member with member | rfl
  · exact orderly.tame other member
  · exact tame

theorem of_follow {schedule : List Thread} (orderly : setting.Orderly system)
    (pure : setting.IsPure) (plain : setting.IsPlain) (sound : system.Sound)
    (followed : system.follow schedule = some after) : setting.Orderly after := by
  induction schedule generalizing system with
  | nil =>
      obtain rfl : system = after := Option.some.inj followed
      exact orderly
  | cons thread schedule induction =>
      simp only [System.follow, Option.bind_eq_bind, Option.bind_eq_some_iff] at followed
      obtain ⟨middle, stepped, rest⟩ := followed
      exact induction (orderly.of_step pure plain sound stepped) (sound.of_step stepped) rest

end Orderly

end Threads

end Setting

end FunctionValues
