import FunctionValues.Proofs.Balance
import FunctionValues.Proofs.Renumbering

/-!
# Courses of a thread on its own

A course of pure code is what a thread does that nobody interferes with, so threads that run pure code
one after another come to the end of every task that has a course.
-/

namespace FunctionValues

namespace Setting

variable {setting : Setting} {less : Value → Value → Prop}

/-- A world keeps the accounts of the function, whatever was done before. -/
def Kept (setting : Setting) (world : World) : Prop :=
  ∃ storage runs, setting.Serves world storage ∧ setting.Holds runs storage

section Comes

variable {task start : Computation} {inside : Bool} {own outer : List Frame}
  {books before : Multiset Deed} {key : Value} {world : World} {storage : Storage}
  {runs : Multiset Value}

/-- An application that finds a stored result comes back with it. -/
private theorem comes_stored {result : Result} (serves : setting.Serves world storage)
    (holds : setting.Holds runs storage) {frames : List Frame}
    (sound : world.SoundAt ⟨.run (.apply (.memoized setting.number) key), frames⟩)
    (open' : setting.policy.blocks (Frame.keys setting.number frames) key = false)
    (stored : storage.stored? key = some result) :
    ∃ after, Activity.Comes 0 world ⟨.run (.apply (.memoized setting.number) key), frames⟩ after
      ⟨.answer (.ok result), frames⟩ ∧ setting.Kept after := by
  have begun := Activity.comes_seek world setting.number key frames
  have seeking := (sound.of_comes begun).seeking serves.found
  rw [← holds.policy] at open'
  exact ⟨_, begun.trans (Activity.comes_of_stored frames serves.found seeking open' stored),
    storage, runs, serves.record _, holds⟩

/-- The end of a run, whose result is stored if it is to be kept. -/
private theorem comes_back {outcome : Outcome} {deeds : Multiset Deed} {place : Nat}
    {frames : List Frame} (serves : setting.Serves world storage)
    (holds : setting.Holds runs storage) (exact : key.isExact = true)
    (sound : world.SoundAt ⟨.answer outcome, .computing setting.number key place :: frames⟩)
    (yields : setting.Yields key outcome.anonymous deeds) :
    ∃ after, Activity.Comes 0 world ⟨.answer outcome, .computing setting.number key place :: frames⟩
      after ⟨.answer outcome, frames⟩ ∧ setting.Kept after := by
  have computing := sound.computing serves.found
  have here : Phase.computing key place ∈
      [Phase.computing key place :: Frame.phases setting.number frames].getD 0 [] := by simp
  have missing : storage.stored? key = none :=
    (computing.find?_eq_stored? here rfl).symm.trans (computing.guarded.missing here rfl)
  cases retains : setting.cache.retention.retains outcome with
  | true =>
      rcases outcome with failure | result
      · cases retains
      · obtain ⟨storage', comes, policy, -, stored⟩ :=
          Activity.comes_of_kept frames serves.found computing retains
        exact ⟨_, comes, storage', _, serves.amend _ _, holds.of_kept exact missing
          ⟨⟨_, yields⟩, by rwa [Retention.keeps_anonymous]⟩ policy stored⟩
  | false =>
      obtain ⟨storage', removals, comes, agrees, policy, -⟩ :=
        Activity.comes_of_vain frames serves.found computing retains
      have vain : ∀ result, ¬setting.Keeps key result := by
        rintro result ⟨⟨deeds', yields'⟩, keeps⟩
        have same := (yields.unique yields').2
        rcases outcome with failure | result' <;> cases same
        rw [Retention.keeps_anonymous] at keeps
        exact Bool.noConfusion (keeps.symm.trans retains)
      exact ⟨_, comes, storage', key ::ₘ runs, serves.amend _ _,
        (holds.of_vain vain).of_agrees agrees policy⟩

/-- A thread comes to an activity that is on a course, with the accounts kept. -/
def Arrives (setting : Setting) (world : World) (activity : Activity) (outer : List Frame)
    (to' : Activity) : Prop :=
  ∃ after, ∃ last : Activity, Activity.Comes 0 world ⟨activity.focus, activity.frames ++ outer⟩ after
    ⟨last.focus, last.frames ++ outer⟩ ∧ last.anonymous = to' ∧ setting.Kept after

/-- A thread that comes to the end of a course gives back its outcome. -/
theorem Arrives.answer {activity : Activity} {outcome : Outcome}
    (arrives : setting.Arrives world activity outer ⟨.answer outcome, []⟩) :
    ∃ after last, Activity.Comes 0 world ⟨activity.focus, activity.frames ++ outer⟩ after
      ⟨.answer last, outer⟩ ∧ last.anonymous = outcome ∧ setting.Kept after := by
  obtain ⟨after, ⟨focus, own⟩, comes, ended, kept⟩ := arrives
  cases focus with
  | answer last =>
      obtain ⟨same, rfl⟩ : last.anonymous = outcome ∧ own = [] := by
        simpa [Activity.anonymous] using ended
      exact ⟨after, last, comes, same, kept⟩
  | run computation | applying cache key stage | counting cache counting => cases ended

/-- A move of a course is what a thread on its own does. -/
private theorem arrives_of_pace {activity next : Activity} {deeds : Multiset Deed}
    (pure : setting.IsPure) (given : task.IsPure setting.number setting.names)
    (founded : WellFounded less) (descends : setting.Descends less)
    (within : setting.Within task inside start outer books)
    (passed : setting.Leads inside ⟨.run start, []⟩ before activity.anonymous)
    (kept : setting.Kept world) (sound : world.SoundAt ⟨activity.focus, activity.frames ++ outer⟩)
    (paced : setting.pace inside activity.anonymous = some (deeds, next)) :
    setting.Arrives world activity outer next := by
  have here := Activity.isPure_anonymous.mp (passed.isPure pure (within.isPure pure given))
  obtain ⟨storage, runs, serves, holds⟩ := kept
  have stepped : ∀ {after : World} {last : Activity} {entries : List Entry},
      setting.Passes 0 world activity outer after last entries →
      setting.Arrives world activity outer next := by
    intro after last entries passes
    obtain ⟨-, same⟩ : _ ∧ last.anonymous = next := by
      simpa using (passes.paced inside).symm.trans paced
    exact ⟨after, last, .single passes.stepped, same, storage, runs, serves.of_passes passes, holds⟩
  obtain ⟨computation | outcome | _ | _, own⟩ := activity
  · by_cases applies : ∃ key, computation = .apply (.memoized setting.number) key
    · obtain ⟨key, rfl⟩ := applies
      have blocks := within.blocks pure given founded descends passed
      change setting.pace inside ⟨.run (.apply (.memoized setting.number) key), own⟩ = _ at paced
      simp only [Setting.pace] at paced
      split at paced
      next refused =>
        cases paced
        have begun := Activity.comes_seek world setting.number key (own ++ outer)
        have seeking := (sound.of_comes begun).seeking serves.found
        rw [refused, ← holds.policy] at blocks
        rw [← holds.policy]
        have refusal := Activity.comes_of_blocked (own ++ outer) serves.found seeking blocks
        exact ⟨_, ⟨.answer (.error (.reentered storage.policy)), own⟩, begun.trans refusal, rfl,
          storage, runs, serves.record _, holds⟩
      next open' =>
        obtain ⟨result, held, same⟩ := Option.map_eq_some_iff.mp paced
        cases same
        obtain ⟨stored, found, rfl⟩ :=
          Option.map_eq_some_iff.mp ((holds.stored key result).mpr (.inl held))
        rw [Bool.not_eq_true] at open'
        obtain ⟨after, comes, kept⟩ := comes_stored serves holds sound (blocks.trans open') found
        exact ⟨after, ⟨.answer (.ok stored), own⟩, comes, rfl, kept⟩
    · obtain ⟨after, last, entries, passes⟩ := pure.passes_run here (not_exists.mp applies) 0
        serves.functions outer
      exact stepped passes
  · cases own with
    | nil => cases paced
    | cons frame own =>
        obtain ⟨last, passes⟩ := passes_answer here 0 world outer
        exact stepped passes
  · exact here.elim
  · exact here.elim

/-- An application for which the course has a run comes back with what the run ends with: it was stored
meanwhile, or the thread goes along the course of the run. -/
private theorem comes_of_yields {outcome : Outcome} {deeds : Multiset Deed}
    (pure : setting.IsPure) (given : task.IsPure setting.number setting.names)
    (founded : WellFounded less) (descends : setting.Descends less)
    (within : setting.Within task inside start outer books)
    (passed : setting.Leads inside ⟨.run start, []⟩ before
      ⟨.run (.apply (.memoized setting.number) key), own⟩)
    (open' : setting.refuses inside = false) (missing : setting.held? key = none)
    (yields : setting.Yields key outcome deeds) (kept : setting.Kept world)
    (sound : world.SoundAt ⟨.run (.apply (.memoized setting.number) key), own ++ outer⟩)
    (runs : ∀ {world : World} {place : Nat}, setting.Kept world →
      world.SoundAt ⟨.run (.apply setting.cache.underlying key),
        .computing setting.number key place :: (own ++ outer)⟩ →
      setting.Arrives world ⟨.run (.apply setting.cache.underlying key), []⟩
        (.computing setting.number key place :: (own ++ outer)) ⟨.answer outcome, []⟩) :
    ∃ after last, Activity.Comes 0 world
        ⟨.run (.apply (.memoized setting.number) key), own ++ outer⟩ after
        ⟨.answer last, own ++ outer⟩ ∧
      last.anonymous = outcome ∧ setting.Kept after := by
  have exact := (passed.isPure pure (within.isPure pure given)).isExact
  obtain ⟨storage, ran, serves, holds⟩ := kept
  have blocks := within.blocks pure given founded descends passed
  rw [open'] at blocks
  cases stored : storage.stored? key with
  | some result =>
      obtain ⟨after, comes, kept⟩ := comes_stored serves holds sound blocks stored
      have known := holds.stored key result.anonymous
      rw [stored, missing] at known
      obtain ⟨-, ⟨deeds', yields'⟩, -⟩ := (known.mp rfl).resolve_left (by simp)
      exact ⟨after, .ok result, comes, (yields'.unique yields).2, kept⟩
  | none =>
      have begun := Activity.comes_seek world setting.number key (own ++ outer)
      have seeking := (sound.of_comes begun).seeking serves.found
      rw [← holds.policy] at blocks
      obtain ⟨storage', place, comes, agrees, policy⟩ :=
        Activity.comes_of_missing (own ++ outer) serves.found seeking blocks stored
      have started := begun.trans comes
      obtain ⟨middle, last, onward, rfl, storage'', ran', serves', holds'⟩ :=
        (runs ⟨storage', ran, serves.amend _ _, holds.of_agrees agrees policy⟩
          (sound.of_comes started)).answer
      have ended := started.trans onward
      obtain ⟨after, back, kept⟩ := comes_back serves' holds' exact (sound.of_comes ended) yields
      exact ⟨after, last, ended.trans back, rfl, kept⟩

/-- A thread on its own goes along the course of what it runs. -/
theorem Leads.arrives {from' to' : Activity} {deeds : Multiset Deed}
    (leads : setting.Leads inside from' deeds to') (pure : setting.IsPure)
    (given : task.IsPure setting.number setting.names) (founded : WellFounded less)
    (descends : setting.Descends less) (within : setting.Within task inside start outer books)
    (passed : setting.Leads inside ⟨.run start, []⟩ before from') {activity : Activity}
    (same : activity.anonymous = from') (kept : setting.Kept world)
    (sound : world.SoundAt ⟨activity.focus, activity.frames ++ outer⟩) :
    setting.Arrives world activity outer to' := by
  induction leads generalizing world activity start outer books before with
  | refl => exact ⟨world, activity, .refl .., same, kept⟩
  | pace paced _ induction =>
      subst same
      obtain ⟨middle, next, comes, rfl, kept⟩ :=
        arrives_of_pace pure given founded descends within passed kept sound paced
      obtain ⟨after, last, onward, same, kept⟩ :=
        induction within (passed.trans (.single paced)) rfl kept (sound.of_comes comes)
      exact ⟨after, last, comes.trans onward, same, kept⟩
  | @compute inside key own outcome deeds more to' open' missing run rest runs induction =>
      obtain ⟨computation | _ | _ | _, frames⟩ := activity <;> try cases same
      simp only [Activity.anonymous, Activity.mk.injEq, Focus.run.injEq] at same
      obtain ⟨applies, rfl⟩ := same
      obtain rfl := Computation.eq_of_anonymous applies
      have begins : Activity.anonymous ⟨.run (.apply setting.cache.underlying key), []⟩ =
        ⟨.run (setting.start key), []⟩ := rfl
      obtain ⟨middle, outcome', comes, rfl, kept⟩ := comes_of_yields pure given founded descends
        within passed open' missing run kept sound
        (runs (within.run _ passed open' missing) (.refl _) begins)
      have answers : Activity.anonymous ⟨.answer outcome', frames⟩ =
        ⟨.answer outcome'.anonymous, frames⟩ := rfl
      obtain ⟨after, last, onward, same, kept⟩ := induction within
        (passed.trans (.compute open' missing run (.refl _))) answers kept (sound.of_comes comes)
      exact ⟨after, last, comes.trans onward, same, kept⟩

end Comes

/-- Every computation that ended has a course. -/
theorem Ended.exists_leads {computations : List Computation} {outcomes : List Outcome}
    {books : Multiset Deed} (ended : setting.Ended computations outcomes books) :
    ∀ computation ∈ computations, ∃ deeds outcome,
      setting.Leads false ⟨.run computation.anonymous, []⟩ deeds ⟨.answer outcome, []⟩ := by
  induction ended with
  | nil => exact List.forall_mem_nil _
  | snoc _ leads induction =>
      rw [List.forall_mem_append, List.forall_mem_singleton]
      exact ⟨induction, _, _, leads⟩

section Threads

variable {world : World}

/-- A thread on its own ends a computation that has a course. -/
theorem exists_ends (pure : setting.IsPure) (founded : WellFounded less)
    (descends : setting.Descends less) {computation : Computation}
    (given : computation.IsPure setting.number setting.names) (sound : world.IsSound)
    (kept : setting.Kept world) {deeds : Multiset Deed} {outcome : Outcome}
    (leads : setting.Leads false ⟨.run computation.anonymous, []⟩ deeds ⟨.answer outcome, []⟩) :
    ∃ after last, world.Ends 0 computation after last ∧ setting.Kept after := by
  have begins : Activity.anonymous ⟨.run computation, []⟩ = ⟨.run computation.anonymous, []⟩ := rfl
  obtain ⟨after, last, comes, -, kept⟩ := (leads.arrives pure given founded descends .task
    (.refl _) begins kept (sound.soundAt computation)).answer
  exact ⟨after, last, comes, kept⟩

theorem exists_endAll (pure : setting.IsPure) (founded : WellFounded less)
    (descends : setting.Descends less) {computations : List Computation}
    (given : ∀ computation ∈ computations, computation.IsPure setting.number setting.names)
    (courses : ∀ computation ∈ computations, ∃ deeds outcome,
      setting.Leads false ⟨.run computation.anonymous, []⟩ deeds ⟨.answer outcome, []⟩)
    (sound : world.IsSound) (kept : setting.Kept world) :
    ∃ after outcomes, world.EndAll 0 computations after outcomes ∧ setting.Kept after := by
  induction computations generalizing world with
  | nil => exact ⟨world, [], .nil world, kept⟩
  | cons computation computations induction =>
      obtain ⟨first, rest⟩ := List.forall_mem_cons.mp given
      obtain ⟨⟨deeds, outcome, leads⟩, others⟩ := List.forall_mem_cons.mp courses
      obtain ⟨middle, last, ends, kept⟩ :=
        exists_ends pure founded descends first sound kept leads
      obtain ⟨after, outcomes, endAll, kept⟩ := induction rest others (ends.isSound sound) kept
      exact ⟨after, last :: outcomes, .cons ends endAll, kept⟩

/-- Threads whose computations have courses finish one after another. -/
theorem exists_finish (pure : setting.IsPure) (founded : WellFounded less)
    (descends : setting.Descends less) {tasks : List (List Computation)}
    (given : ∀ computations ∈ tasks, ∀ computation ∈ computations,
      computation.IsPure setting.number setting.names)
    (courses : ∀ computations ∈ tasks, ∀ computation ∈ computations, ∃ deeds outcome,
      setting.Leads false ⟨.run computation.anonymous, []⟩ deeds ⟨.answer outcome, []⟩)
    (sound : world.IsSound) (kept : setting.Kept world) {before : List Worker}
    (done : ∀ worker ∈ before, worker.isDone = true) :
    ∃ limit last, System.finish limit ⟨world, before ++ tasks.map fun computations =>
      { pending := computations.map .run }⟩ = some last := by
  induction tasks generalizing world before with
  | nil =>
      have none : System.first? ⟨world, before ++ []⟩ = none := by
        simpa [System.first?] using done
      exact ⟨1, ⟨world, before ++ []⟩, by rw [List.map_nil, System.finish, none]⟩
  | cons computations tasks induction =>
      obtain ⟨first, rest⟩ := List.forall_mem_cons.mp given
      obtain ⟨mine, others⟩ := List.forall_mem_cons.mp courses
      obtain ⟨after, ends, endAll, kept⟩ :=
        exists_endAll pure founded descends first mine sound kept
      have ended : ∀ worker ∈ before ++ [⟨none, [], [] ++ ends⟩], worker.isDone = true := by
        rw [List.forall_mem_append]
        exact ⟨done, by simp [Worker.isDone]⟩
      obtain ⟨limit, last, finished⟩ :=
        induction rest others (endAll.isSound sound) kept ended
      obtain ⟨steps, onward⟩ := System.finish_of_endAll_among done
        (tasks.map fun computations => { pending := computations.map .run })
        (endAll.to_thread before.length sound)
      refine ⟨steps + limit, last, ?_⟩
      rw [List.map_cons, onward, List.append_cons, finished]

end Threads

end Setting

end FunctionValues
