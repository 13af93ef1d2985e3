import FunctionValues.Proofs.Strides
import FunctionValues.Session

/-!
# Runs of threads on their own

What `System.finish` comes to: the computations of a thread end one after another, each in the world
that the one before it left, before another thread goes on. A limit that suffices may be raised.
-/

namespace FunctionValues

namespace World

/-- A computation comes to its end when a thread runs it on its own. -/
def Ends (thread : Thread) (world : World) (computation : Computation) (after : World)
    (outcome : Outcome) : Prop :=
  Activity.Comes thread world ⟨.run computation, []⟩ after ⟨.answer outcome, []⟩

/-- Computations come to their ends one after another. -/
inductive EndAll (thread : Thread) : World → List Computation → World → List Outcome → Prop
  | nil (world : World) : EndAll thread world [] world []
  | cons {world middle after : World} {computation : Computation}
      {computations : List Computation} {outcome : Outcome} {outcomes : List Outcome}
      (first : world.Ends thread computation middle outcome)
      (rest : EndAll thread middle computations after outcomes) :
      EndAll thread world (computation :: computations) after (outcome :: outcomes)

theorem EndAll.append {thread : Thread} {world middle after : World}
    {computations others : List Computation} {outcomes outcomes' : List Outcome}
    (first : world.EndAll thread computations middle outcomes)
    (second : middle.EndAll thread others after outcomes') :
    world.EndAll thread (computations ++ others) after (outcomes ++ outcomes') := by
  induction first with
  | nil world => exact second
  | cons first _ induction => exact .cons first (induction second)

end World

namespace Activity

/-- A run that ends passes through every point that its thread comes to. -/
theorem proceed_of_passed {steps more : Nat} {world middle after : World}
    {activity next : Activity} {outcome : Outcome}
    (passed : proceed 0 steps world activity = some (middle, next))
    (ended : proceed 0 more world activity = some (after, ⟨.answer outcome, []⟩)) :
    ∃ rest, rest + steps = more ∧ proceed 0 rest middle next = some (after, ⟨.answer outcome, []⟩) := by
  induction steps generalizing world activity more with
  | zero =>
      obtain ⟨rfl, rfl⟩ : world = middle ∧ activity = next := by simpa [proceed] using passed
      exact ⟨more, rfl, ended⟩
  | succ steps induction =>
      cases more with
      | zero =>
          obtain ⟨rfl, rfl⟩ : world = after ∧ activity = ⟨.answer outcome, []⟩ := by
            simpa [proceed] using ended
          cases passed
      | succ more =>
          simp only [proceed] at passed ended
          split at passed
          next world' activity' stepped =>
            rw [stepped] at ended
            obtain ⟨rest, count, onward⟩ := induction passed ended
            exact ⟨rest, by omega, onward⟩
          · cases passed
          · cases passed

theorem Comes.exists_pos {thread : Thread} {world after : World} {activity last : Activity}
    (comes : Comes thread world activity after last) (moved : activity ≠ last) :
    ∃ steps, 0 < steps ∧ proceed thread steps world activity = some (after, last) := by
  obtain ⟨steps, proceeded⟩ := comes
  refine ⟨steps, Nat.pos_of_ne_zero ?_, proceeded⟩
  rintro rfl
  simp only [proceed, Option.some.injEq, Prod.mk.injEq] at proceeded
  exact moved proceeded.2

theorem proceed_of_next {steps : Nat} {world middle after : World} {activity next : Activity}
    {outcome : Outcome} (stepped : activity.next 0 world = .step middle next)
    (ended : proceed 0 steps world activity = some (after, ⟨.answer outcome, []⟩)) :
    ∃ rest, rest + 1 = steps ∧ proceed 0 rest middle next = some (after, ⟨.answer outcome, []⟩) := by
  have passed : proceed 0 1 world activity = some (middle, next) := by
    simp only [proceed, stepped]
  exact proceed_of_passed passed ended

theorem proceed_of_moved {steps : Nat} {world middle after : World} {activity next : Activity}
    {outcome : Outcome} (comes : Comes 0 world activity middle next) (moved : activity ≠ next)
    (ended : proceed 0 steps world activity = some (after, ⟨.answer outcome, []⟩)) :
    ∃ rest, rest < steps ∧ proceed 0 rest middle next = some (after, ⟨.answer outcome, []⟩) := by
  obtain ⟨count, positive, passed⟩ := comes.exists_pos moved
  obtain ⟨rest, total, onward⟩ := proceed_of_passed passed ended
  exact ⟨rest, by omega, onward⟩

theorem Comes.log {thread : Thread} {world after : World} {activity last : Activity}
    (comes : Comes thread world activity after last) : world.log <:+ after.log := by
  obtain ⟨steps, proceeded⟩ := comes
  induction steps generalizing world activity with
  | zero =>
      obtain ⟨rfl, -⟩ : world = after ∧ activity = last := by simpa [proceed] using proceeded
      exact List.suffix_refl _
  | succ steps induction =>
      simp only [proceed] at proceeded
      split at proceeded
      next stepped => exact (log_of_next stepped).trans (induction proceeded)
      · cases proceeded
      · cases proceeded

end Activity

namespace World

/-- Every cache is sound while a single thread is at a point of a task. -/
def SoundAt (world : World) (activity : Activity) : Prop :=
  System.Sound ⟨world, [{ current := some activity }]⟩

/-- Every cache is sound while nothing runs. -/
def IsSound (world : World) : Prop :=
  System.Sound ⟨world, []⟩

namespace SoundAt

variable {world after : World} {activity next : Activity}

theorem present {number : Nat} {cache : Cache} (sound : world.SoundAt activity)
    (found : world.caches[number]? = some cache) :
    cache.Sound [activity.phases number] (world.marks number) :=
  System.Sound.present sound found

theorem of_next (sound : world.SoundAt activity)
    (stepped : activity.next 0 world = .step after next) : after.SoundAt next := by
  have moved : System.step ⟨world, [{ current := some activity }]⟩ 0 =
      some ⟨after, [{ current := some next }]⟩ := by
    simp [System.step, Worker.next, stepped]
  exact System.Sound.of_step sound moved

theorem of_comes (sound : world.SoundAt activity)
    (comes : Activity.Comes 0 world activity after next) : after.SoundAt next := by
  obtain ⟨steps, proceeded⟩ := comes
  induction steps generalizing world activity with
  | zero =>
      obtain ⟨rfl, rfl⟩ : world = after ∧ activity = next := by
        simpa [Activity.proceed] using proceeded
      exact sound
  | succ steps induction =>
      simp only [Activity.proceed] at proceeded
      split at proceeded
      next stepped => exact induction (sound.of_next stepped) proceeded
      · cases proceeded
      · cases proceeded

section Applying

variable {number : Nat} {cache : Cache} {key : Value} {place : Nat} {frames : List Frame}
  {outcome : Outcome}

theorem seeking (sound : world.SoundAt ⟨.applying number key .seek, frames⟩)
    (found : world.caches[number]? = some cache) :
    cache.Sound [.applying key .seek :: Frame.phases number frames] (world.marks number) := by
  simpa using sound.present found

theorem computing
    (sound : world.SoundAt ⟨.answer outcome, .computing number key place :: frames⟩)
    (found : world.caches[number]? = some cache) :
    cache.Sound [.computing key place :: Frame.phases number frames] (world.marks number) := by
  have cached := sound.present found
  have phases : Activity.phases number ⟨.answer outcome, .computing number key place :: frames⟩ =
      .computing key place :: Frame.phases number frames := by
    simp [Frame.phases]
  rwa [phases] at cached

/-- A cache that is computed for exists. -/
theorem exists_cache
    (sound : world.SoundAt ⟨.answer outcome, .computing number key place :: frames⟩) :
    ∃ cache, world.caches[number]? = some cache := by
  cases missing : world.caches[number]? with
  | some cache => exact ⟨cache, rfl⟩
  | none =>
      obtain ⟨-, idle⟩ := System.Sound.absent sound missing
      have fresh := idle _ List.mem_cons_self (.computing key place) (by
        simp [Worker.phases, Frame.phases])
      cases fresh

end Applying

/-- A world is sound when the last task is done. -/
theorem isSound {outcome : Outcome} (sound : world.SoundAt ⟨.answer outcome, []⟩) :
    world.IsSound := by
  have done : System.step ⟨world, [{ current := some ⟨.answer outcome, []⟩ }]⟩ 0 =
      some ⟨world, [⟨none, [], [outcome]⟩]⟩ := rfl
  exact (System.Sound.of_step sound done).of_start [] (by simp [Worker.isDone])

end SoundAt

theorem IsSound.soundAt {world : World} (sound : world.IsSound) (computation : Computation) :
    world.SoundAt ⟨.run computation, []⟩ := by
  have begun : System.step (.ofTasks world [[.run computation]]) 0 =
      some ⟨world, [⟨some ⟨.run computation, []⟩, [], []⟩]⟩ := rfl
  exact (sound.of_start [[.run computation]] (by simp)).of_step begun

theorem Ends.isSound {world after : World} {computation : Computation} {outcome : Outcome}
    (ends : world.Ends 0 computation after outcome) (sound : world.IsSound) : after.IsSound :=
  ((sound.soundAt computation).of_comes ends).isSound

theorem EndAll.isSound {world after : World} {computations : List Computation}
    {outcomes : List Outcome} (endAll : world.EndAll 0 computations after outcomes)
    (sound : world.IsSound) : after.IsSound := by
  induction endAll with
  | nil world => exact sound
  | cons first _ induction => exact induction (first.isSound sound)

theorem EndAll.log {thread : Thread} {world after : World} {computations : List Computation}
    {outcomes : List Outcome} (endAll : world.EndAll thread computations after outcomes) :
    world.log <:+ after.log := by
  induction endAll with
  | nil world => exact List.suffix_refl _
  | cons first _ induction => exact (Activity.Comes.log first).trans induction

end World

namespace System

/-- A limit that suffices may be raised. -/
theorem finish_mono {limit : Nat} {system after : System} (extra : Nat)
    (finished : finish limit system = some after) : finish (limit + extra) system = some after := by
  induction limit generalizing system with
  | zero => cases finished
  | succ limit induction =>
      rw [Nat.succ_add]
      simp only [finish] at finished ⊢
      split at finished
      next => exact finished
      next thread first =>
        simp only [Option.bind_eq_bind, Option.bind_eq_some_iff] at finished ⊢
        obtain ⟨middle, stepped, rest⟩ := finished
        exact ⟨middle, stepped, induction rest⟩

/-- Threads that finish make steps only, and are done then. -/
theorem reaches_of_finish {limit : Nat} {system after : System} (threads : Nat)
    (finished : finish limit system = some after) :
    Reaches threads system after ∧ ∀ worker ∈ after.workers, worker.isDone = true := by
  induction limit generalizing system with
  | zero => cases finished
  | succ limit induction =>
      simp only [finish] at finished
      split at finished
      next none =>
        obtain rfl : system = after := Option.some.inj finished
        have idle := List.findIdx?_eq_none_iff.mp none
        exact ⟨.refl, by simpa using idle⟩
      next thread first =>
        simp only [Option.bind_eq_bind, Option.bind_eq_some_iff] at finished
        obtain ⟨middle, stepped, rest⟩ := finished
        obtain ⟨reaches, idle⟩ := induction rest
        exact ⟨.head (.step thread stepped) reaches, idle⟩

/-! ## One thread after another -/

section Among

variable {world after : World} {activity last : Activity} {pending : List Task}
  {outcomes : List Outcome} {limit : Nat} {system : System} {before : List Worker}
  (done : ∀ worker ∈ before, worker.isDone = true) (rest : List Worker)

include done

/-- The first thread that is not done makes the next step. -/
theorem finish_among {worker : Worker} (busy : worker.isDone = false) (limit : Nat) :
    finish (limit + 1) ⟨world, before ++ worker :: rest⟩ =
      (worker.next before.length world).bind fun moved =>
        finish limit ⟨moved.1, before ++ moved.2 :: rest⟩ := by
  have first : first? ⟨world, before ++ worker :: rest⟩ = some before.length := by
    have none : before.findIdx? (!·.isDone) = none := by simpa using done
    simp [first?, List.findIdx?_append, none, List.findIdx?_cons, busy]
  simp only [finish, first, step, Option.bind_eq_bind, List.getElem?_append_right (Nat.le_refl _),
    Nat.sub_self, List.getElem?_cons_zero, Option.bind_some]
  cases worker.next before.length world with
  | none => rfl
  | some moved => simp

/-- A thread that comes to another point of its task goes on from there. -/
theorem finish_of_proceed {steps : Nat}
    (proceeded : Activity.proceed before.length steps world activity = some (after, last))
    (limit : Nat) :
    finish (steps + limit) ⟨world, before ++ ⟨some activity, pending, outcomes⟩ :: rest⟩ =
      finish limit ⟨after, before ++ ⟨some last, pending, outcomes⟩ :: rest⟩ := by
  induction steps generalizing world activity with
  | zero =>
      obtain ⟨rfl, rfl⟩ : world = after ∧ activity = last := by
        simpa [Activity.proceed] using proceeded
      rw [Nat.zero_add]
  | succ steps induction =>
      rw [Nat.succ_add, finish_among done rest rfl]
      simp only [Activity.proceed] at proceeded
      split at proceeded
      next middle next stepped =>
        simp only [Worker.next, stepped, Option.bind_some]
        exact induction proceeded
      · cases proceeded
      · cases proceeded

theorem finish_answer (outcome : Outcome) (limit : Nat) :
    finish (limit + 1)
        ⟨world, before ++ ⟨some ⟨.answer outcome, []⟩, pending, outcomes⟩ :: rest⟩ =
      finish limit ⟨world, before ++ ⟨none, pending, outcomes ++ [outcome]⟩ :: rest⟩ := by
  rw [finish_among done rest rfl]
  rfl

theorem finish_task (computation : Computation) (limit : Nat) :
    finish (limit + 1) ⟨world, before ++ ⟨none, .run computation :: pending, outcomes⟩ :: rest⟩ =
      finish limit
        ⟨world, before ++ ⟨some ⟨.run computation, []⟩, pending, outcomes⟩ :: rest⟩ := by
  rw [finish_among done rest rfl]
  rfl

/-- A thread that is at a task comes to the end of it before others go on. -/
theorem proceed_of_finish
    (finished : finish limit ⟨world, before ++ ⟨some activity, pending, outcomes⟩ :: rest⟩ =
      some system) :
    ∃ steps after outcome limit', Activity.proceed before.length steps world activity =
        some (after, ⟨.answer outcome, []⟩) ∧
      finish limit' ⟨after, before ++ ⟨none, pending, outcomes ++ [outcome]⟩ :: rest⟩ =
        some system := by
  induction limit generalizing world activity with
  | zero => cases finished
  | succ limit induction =>
      rw [finish_among done rest rfl] at finished
      simp only [Worker.next] at finished
      cases progress : activity.next before.length world with
      | step middle next =>
          simp only [progress, Option.bind_some] at finished
          obtain ⟨steps, after, outcome, limit', proceeded, onward⟩ := induction finished
          refine ⟨steps + 1, after, outcome, limit', ?_, onward⟩
          simp only [Activity.proceed, progress, proceeded]
      | wait => simp [progress] at finished
      | done outcome =>
          simp only [progress, Option.bind_some] at finished
          rw [Activity.eq_answer_of_next_done progress]
          exact ⟨0, world, outcome, limit, rfl, finished⟩

/-- A thread ends all its computations before others go on. -/
theorem endAll_among {computations : List Computation}
    (finished : finish limit ⟨world, before ++ ⟨none, computations.map .run, outcomes⟩ :: rest⟩ =
      some system) :
    ∃ limit' after ends, world.EndAll before.length computations after ends ∧
      finish limit' ⟨after, before ++ ⟨none, [], outcomes ++ ends⟩ :: rest⟩ = some system := by
  induction computations generalizing world outcomes limit with
  | nil => exact ⟨limit, world, [], .nil world, by rwa [List.append_nil]⟩
  | cons computation computations induction =>
      cases limit with
      | zero => cases finished
      | succ limit =>
          rw [List.map_cons, finish_task done] at finished
          obtain ⟨steps, middle, outcome, limit', proceeded, onward⟩ :=
            proceed_of_finish done rest finished
          obtain ⟨limit'', after, ends, endAll, finished⟩ := induction onward
          exact ⟨limit'', after, outcome :: ends, .cons ⟨steps, proceeded⟩ endAll,
            by simpa using finished⟩

/-- A thread whose computations end one after another ends them before others go on. -/
theorem finish_of_endAll_among {computations : List Computation} {ends : List Outcome}
    (endAll : world.EndAll before.length computations after ends) :
    ∃ steps, ∀ limit, finish (steps + limit)
        ⟨world, before ++ ⟨none, computations.map .run, outcomes⟩ :: rest⟩ =
      finish limit ⟨after, before ++ ⟨none, [], outcomes ++ ends⟩ :: rest⟩ := by
  induction endAll generalizing outcomes with
  | nil world => exact ⟨0, fun limit => by rw [Nat.zero_add, List.append_nil]; rfl⟩
  | @cons world middle after computation computations outcome ends first _ induction =>
      obtain ⟨more, onward⟩ := @induction (outcomes ++ [outcome])
      obtain ⟨steps, proceeded⟩ := first
      refine ⟨steps + (more + 1) + 1, fun limit => ?_⟩
      rw [List.map_cons, Nat.add_right_comm, finish_task done, Nat.add_assoc,
        finish_of_proceed done rest proceeded, Nat.add_right_comm, finish_answer done, onward]
      simp

end Among

section Single

variable {world after : World} {outcomes : List Outcome} {limit : Nat}

/-- What a single thread finishes is that its computations end one after another. -/
theorem endAll_of_finish {computations : List Computation} {system : System}
    (finished : finish limit ⟨world, [⟨none, computations.map .run, outcomes⟩]⟩ = some system) :
    ∃ after ends, world.EndAll 0 computations after ends ∧
      system = ⟨after, [⟨none, [], outcomes ++ ends⟩]⟩ := by
  obtain ⟨limit', after, ends, endAll, onward⟩ :=
    endAll_among (List.forall_mem_nil _) [] finished
  cases limit' with
  | zero => cases onward
  | succ limit' => exact ⟨after, ends, endAll, (Option.some.inj onward).symm⟩

/-- Computations that end one after another are finished within some limit. -/
theorem finish_of_endAll {computations : List Computation} {ends : List Outcome}
    (endAll : world.EndAll 0 computations after ends) :
    ∃ limit, finish limit ⟨world, [⟨none, computations.map .run, outcomes⟩]⟩ =
      some ⟨after, [⟨none, [], outcomes ++ ends⟩]⟩ := by
  obtain ⟨steps, onward⟩ := finish_of_endAll_among (List.forall_mem_nil _) [] endAll
  exact ⟨steps + 1, (onward 1).trans rfl⟩

end Single

end System

end FunctionValues
