import FunctionValues.Proofs.Nesting
import FunctionValues.Proofs.Reentry
import FunctionValues.Proofs.Schedules

/-!
# Threads that wait for one another

A thread waits for the lock of a slot map, whose holder never waits, or for the latch of a slot. The
latch of a slot is held for a few steps, or for as long as its argument is computed. Where functions
are applied inside of a computation only to what is smaller, in an order without infinite descent in
which equal arguments are equally great, a thread that computes and cannot go on waits for something
smaller than what it computes. So there is always a thread that can go on. Equal arguments share a
slot, so an order that tells them apart does not keep threads from waiting for one another.
-/

namespace FunctionValues

/-! ## Stages that wait -/

theorem Storage.advance_ne_wait_of_latched (storage : Storage) (retention : Retention)
    (thread : Thread) (key : Value) {stage : Stage} {place : Nat}
    (latched : stage.latched? = some place) :
    storage.advance retention thread key stage ≠ .wait := by
  cases stage with
  | look other =>
      simp only [advance, look]
      split <;> simp
  | keep other outcome =>
      simp only [advance, keep]
      split
      · split <;> simp
      · simp
  | start other | settle other outcome | unlock other outcome vacant =>
      simp [advance, start, settle, unlock]
  | seek | check other | lock other | enter other outcome | inspect other outcome
  | clear other outcome | leave other outcome | drop other outcome => cases latched

/-- Where a stage waits: for the lock of the map, or for the latch of a place. -/
theorem SlotMap.eq_of_advance_wait {map : SlotMap} {retention : Retention} {thread : Thread}
    {key : Value} {stage : Stage} (free : map.holder = none)
    (waits : (Storage.slots map).advance retention thread key stage = .wait) :
    (∃ place, stage = .lock place) ∨ ∃ place outcome, stage = .clear place outcome ∧
      (map.slot place).latch.holder ≠ none := by
  cases stage with
  | lock place => exact .inl ⟨place, rfl⟩
  | clear place outcome =>
      refine .inr ⟨place, outcome, rfl, fun open' => ?_⟩
      simp only [Storage.advance, Storage.clear, open'] at waits
      split at waits
      · contradiction
      · split at waits <;> cases waits
  | seek => simp [Storage.advance, Storage.seek, free] at waits
  | enter place outcome => simp [Storage.advance, Storage.enter, free] at waits
  | check place =>
      simp only [Storage.advance, Storage.check] at waits
      split at waits <;> cases waits
  | inspect place outcome | leave place outcome | drop place outcome => cases waits
  | look place | start place | settle place outcome | keep place outcome
  | unlock place outcome vacant =>
      exact absurd waits (Storage.advance_ne_wait_of_latched _ _ _ _ rfl)

theorem Move.eq_wait_of_progress {move : Move} {world : World} {number : Nat}
    {underlying : Callable} {key : Value} {frames : List Frame}
    (waits : move.progress world number underlying key frames = .wait) : move = .wait := by
  cases move <;> first | rfl | cases waits

namespace Activity

/-- The cache whose results a thread is counting. -/
def counted? : Activity → Option Nat
  | ⟨.counting number _, _⟩ => some number
  | _ => none

/-- A thread that is about to use a cache finds one that has a lock for each argument, and it is
about to apply a function only to what is smaller than the application that it is inside of. -/
def Descends (smaller : Nat × Value → Nat × Value → Prop) (world : World) (activity : Activity) :
    Prop :=
  (∀ number ∈ activity.counted?, world.policy? number = some .perKey) ∧
    ∀ target ∈ activity.applies?, world.policy? target.1 = some .perKey ∧
      ∀ around ∈ activity.applications.head?, smaller target around

instance (smaller : Nat × Value → Nat × Value → Prop) [DecidableRel smaller] (world : World)
    (activity : Activity) : Decidable (activity.Descends smaller world) :=
  inferInstanceAs (Decidable (_ ∧ _))

variable {smaller : Nat × Value → Nat × Value → Prop} {thread : Thread} {world after : World}
  {activity next : Activity}

/-- A thread that was about to use only caches with a lock for each argument, and to apply functions
inside of others only to what is smaller. -/
structure Ordered (smaller : Nat × Value → Nat × Value → Prop) (world : World)
    (activity : Activity) : Prop where
  falling : activity.applications.Pairwise (Relation.TransGen smaller)
  split : ∀ target ∈ activity.applications, world.policy? target.1 = some .perKey
  alone : ∀ number ∈ activity.counted?, activity.frames = []

theorem counted?_of_next {number : Nat} (stepped : activity.next thread world = .step after next)
    (counts : next.counted? = some number) :
    activity.counted? = some number ∧ next.frames = activity.frames := by
  obtain ⟨focus, frames⟩ := activity
  cases focus with
  | run computation =>
      cases stepped
      cases computation with
      | apply callable argument => cases callable <;> cases counts
      | _ => cases counts
  | answer outcome =>
      cases frames with
      | nil => cases stepped
      | cons frame frames =>
          cases stepped
          rcases outcome with failure | (value | callable) <;> cases frame <;> cases counts
  | applying number key stage =>
      simp only [Activity.next] at stepped
      split at stepped
      · cases stepped
      · unfold Move.progress at stepped
        split at stepped <;> cases stepped <;> cases counts
  | counting number progress =>
      simp only [Activity.next] at stepped
      split at stepped
      · cases stepped
      · unfold CountMove.progress at stepped
        split at stepped <;> cases stepped <;> cases counts
        exact ⟨rfl, rfl⟩

/-- A step keeps the order of the applications that a thread is inside of. -/
theorem Ordered.of_next (ordered : activity.Ordered smaller world)
    (descends : activity.Descends smaller world)
    (stepped : activity.next thread world = .step after next) : next.Ordered smaller after := by
  have alone : ∀ number ∈ next.counted?, next.frames = [] := by
    intro number counts
    obtain ⟨before, same⟩ := counted?_of_next stepped counts
    rw [same, ordered.alone number before]
  rcases applications_of_next stepped with begun | ⟨ended, rest⟩
  · cases applied : activity.applies? with
    | none =>
        rw [applied, Option.toList_none, List.nil_append] at begun
        refine ⟨begun ▸ ordered.falling, fun target member => ?_, alone⟩
        exact policy?_of_next stepped (ordered.split target (begun ▸ member))
    | some target =>
        rw [applied, Option.toList_some, List.singleton_append] at begun
        obtain ⟨policy, below⟩ := descends.2 target applied
        refine ⟨?_, fun other member => ?_, alone⟩
        · rw [begun, List.pairwise_cons]
          refine ⟨fun other member => ?_, ordered.falling⟩
          have falling := ordered.falling
          cases around : activity.applications with
          | nil =>
              rw [around] at member
              cases member
          | cons first others =>
              rw [around] at member falling
              have step : smaller target first := below first (by simp [around])
              rcases List.mem_cons.mp member with rfl | member
              · exact .single step
              · exact .head step ((List.pairwise_cons.mp falling).1 other member)
        · rw [begun] at member
          rcases List.mem_cons.mp member with rfl | member
          · exact policy?_of_next stepped policy
          · exact policy?_of_next stepped (ordered.split other member)
  · have falling := ordered.falling
    rw [rest, List.pairwise_cons] at falling
    refine ⟨falling.2, fun target member => ?_, alone⟩
    exact policy?_of_next stepped (ordered.split target (rest ▸ List.mem_cons_of_mem _ member))

theorem Ordered.of_policy (ordered : activity.Ordered smaller world)
    (kept : ∀ {number policy}, world.policy? number = some policy →
      after.policy? number = some policy) : activity.Ordered smaller after :=
  ⟨ordered.falling, fun target member => kept (ordered.split target member), ordered.alone⟩

theorem Ordered.begin (world : World) (task : Task) : task.begin.Ordered smaller world := by
  cases task <;> exact ⟨.nil, List.forall_mem_nil _, fun _ _ => rfl⟩

end Activity

namespace System

/-- Every thread is about to use only caches with a lock for each argument, and to apply functions
only to what is smaller than the application that it is inside of. -/
def Descends (smaller : Nat × Value → Nat × Value → Prop) (system : System) : Prop :=
  ∀ thread activity, system.At thread activity → activity.Descends smaller system.world

theorem descends_iff {smaller : Nat × Value → Nat × Value → Prop} {system : System} :
    system.Descends smaller ↔ ∀ worker ∈ system.workers, ∀ activity ∈ worker.current,
      activity.Descends smaller system.world := by
  constructor
  · intro descends worker member activity begun
    obtain ⟨thread, present⟩ := List.getElem?_of_mem member
    exact descends thread activity ⟨worker, present, begun⟩
  · rintro descends thread activity ⟨worker, present, begun⟩
    exact descends worker (List.mem_of_getElem? present) activity begun

instance (smaller : Nat × Value → Nat × Value → Prop) [DecidableRel smaller] (system : System) :
    Decidable (system.Descends smaller) :=
  decidable_of_iff _ descends_iff.symm

/-- The applications that any thread is inside of are in order. -/
def Ordered (smaller : Nat × Value → Nat × Value → Prop) (system : System) : Prop :=
  ∀ thread activity, system.At thread activity → activity.Ordered smaller system.world

variable {smaller : Nat × Value → Nat × Value → Prop} {limit : Nat} {system after : System}
  {thread other : Thread} {activity : Activity}

/-- Where a thread is after a step: where it was, if another made the step, at the next point of its
task, or at the beginning of one. -/
theorem At.of_step (stepped : system.step thread = some after) (at' : after.At other activity) :
    system.At other activity ∨
      (∃ before, system.At other before ∧
        before.next other system.world = .step after.world activity) ∨
      ∃ task : Task, activity = task.begin := by
  obtain ⟨worker, next, world, present, moved, rfl⟩ := step_eq_some stepped
  obtain ⟨current, found, begun⟩ := at'
  by_cases same : thread = other
  · subst same
    have inside : thread < system.workers.length := (List.getElem?_eq_some_iff.mp present).1
    rw [List.getElem?_set_self inside, Option.some.injEq] at found
    subst found
    obtain ⟨_ | before, pending, outcomes⟩ := worker
    · cases pending with
      | nil => cases moved
      | cons task pending =>
          cases moved
          exact .inr (.inr ⟨task, (Option.some.inj begun).symm⟩)
    · simp only [Worker.next] at moved
      cases progress : before.next thread system.world with
      | step later following =>
          simp only [progress, Option.some.injEq, Prod.mk.injEq] at moved
          obtain ⟨rfl, rfl⟩ := moved
          obtain rfl : following = activity := Option.some.inj begun
          exact .inr (.inl ⟨before, ⟨_, present, rfl⟩, progress⟩)
      | wait => simp [progress] at moved
      | done outcome =>
          simp only [progress, Option.some.injEq, Prod.mk.injEq] at moved
          obtain ⟨rfl, rfl⟩ := moved
          cases begun
  · rw [List.getElem?_set_ne same] at found
    exact .inl ⟨current, found, begun⟩

/-- What happens keeps the applications of every thread in order. -/
theorem Ordered.of_happens (ordered : system.Ordered smaller) (descends : system.Descends smaller)
    (happens : Happens limit system after) : after.Ordered smaller := by
  intro other activity at'
  have kept : ∀ {number policy}, system.world.policy? number = some policy →
      after.world.policy? number = some policy := happens.policy?
  cases happens with
  | step thread stepped =>
      rcases At.of_step stepped at' with still | ⟨before, there, progress⟩ | ⟨task, rfl⟩
      · exact (ordered other activity still).of_policy kept
      · exact (ordered other before there).of_next (descends other before there) progress
      · exact .begin ..
  | make made => exact (ordered other activity at').of_policy kept
  | start tasks few done =>
      obtain ⟨worker, present, begun⟩ := at'
      obtain ⟨_, _, rfl⟩ := List.mem_map.mp (List.mem_of_getElem? present)
      cases begun

/-! ## Systems that are stuck -/

/-- No thread can make a step. -/
def Stuck (system : System) : Prop :=
  ∀ thread, system.step thread = none

namespace Stuck

variable {number : Nat} {cache : Cache} {map : SlotMap}

theorem waits (stuck : system.Stuck) (at' : system.At thread activity) :
    activity.next thread system.world = .wait := by
  cases progress : activity.next thread system.world with
  | wait => rfl
  | step world next =>
      obtain ⟨after, stepped, -⟩ := at'.eq_of_step progress
      rw [stuck thread] at stepped
      cases stepped
  | done outcome =>
      obtain ⟨⟨_, pending, outcomes⟩, present, rfl⟩ := at'
      have stepped := stuck thread
      simp [step, present, Worker.next, progress] at stepped

/-- Nobody has the lock of a slot map. -/
theorem unlocked (stuck : system.Stuck) (reached : system.Reached limit)
    (found : system.world.caches[number]? = some cache) (storage : cache.storage = .slots map) :
    map.holder = none := by
  cases held : map.holder with
  | none => rfl
  | some holder =>
      obtain ⟨steps, middle, last, followed, kept, free⟩ :=
        unlocks_of_holder reached found storage held
      cases steps with
      | zero =>
          obtain rfl : system = middle := Option.some.inj followed
          rw [found, Option.some.injEq, Cache.mk.injEq] at kept
          rw [← kept.2.2, storage, Storage.isLocked, held] at free
          cases free
      | succ steps => simp [System.follow, List.replicate_succ, stuck holder] at followed

/-- Whoever has the latch of a slot computes its argument. -/
theorem computing_of_latched {place : Nat} {holder : Thread} (stuck : system.Stuck)
    (reached : system.Reached limit) (found : system.world.caches[number]? = some cache)
    (storage : cache.storage = .slots map) (held : (map.slot place).latch.holder = some holder) :
    ∃ key next, system.At holder next ∧ (number, key) ∈ Frame.computations next.frames ∧
      map.find? key = some place := by
  have sound := reached.sound.present found
  have count := sound.guarded.holder holder place
  rw [storage, if_pos (show ((Storage.slots map).latch place).holder = some holder from held)]
    at count
  obtain ⟨phase, member, latches⟩ :=
    List.countP_pos_iff.mp (Nat.lt_of_lt_of_eq Nat.one_pos count.symm)
  obtain ⟨other, latched, joined⟩ := (Option.any_eq_true ..).mp latches
  obtain rfl : place = other := by simpa [Storage.policy, Policy.joins] using joined
  obtain ⟨focus, frames, at', ⟨key, stage, rfl, rfl⟩ | ⟨progress, rfl, -⟩ |
    ⟨key, other, rfl, inside⟩⟩ := exists_at_of_mem member
  · have waits := stuck.waits at'
    simp only [Activity.next, found] at waits
    exact absurd (Move.eq_wait_of_progress waits)
      (Storage.advance_ne_wait_of_latched _ _ _ _ latched)
  · cases latched
  · obtain rfl : other = place := Option.some.inj latched
    exact ⟨key, _, at', List.mem_filterMap.mpr ⟨_, inside, rfl⟩,
      (sound.traced map storage).mapped member rfl⟩

/-- A thread that waits at an argument waits for one that computes an equal argument, and a thread
that waits while it counts waits for one that computes. -/
theorem exists_computing (stuck : system.Stuck) (reached : system.Reached limit)
    (ordered : system.Ordered smaller) (descends : system.Descends smaller)
    (at' : system.At thread activity) :
    ∃ number key other next, system.At other next ∧
      (number, key) ∈ Frame.computations next.frames ∧
      ((∃ argument,
          activity.applications = (number, argument) :: Frame.computations activity.frames ∧
          key.same argument = true) ∨ activity.frames = []) := by
  have waits := stuck.waits at'
  have slots : ∀ {number cache}, system.world.policy? number = some .perKey →
      system.world.caches[number]? = some cache → ∃ map, cache.storage = .slots map := by
    intro number cache policy found
    rw [World.policy?, found, Option.map_some, Option.some.injEq] at policy
    cases storage : cache.storage with
    | table results => simp [storage, Storage.policy] at policy
    | slots map => exact ⟨map, rfl⟩
  obtain ⟨focus, frames⟩ := activity
  cases focus with
  | run computation => cases waits
  | answer outcome => cases frames <;> cases waits
  | applying number argument stage =>
      have policy := (ordered thread _ at').split (number, argument) List.mem_cons_self
      obtain ⟨cache, found, -⟩ := World.policy?_eq_some.mp policy
      obtain ⟨map, storage⟩ := slots policy found
      have sound := reached.sound.present found
      simp only [Activity.next, found, storage] at waits
      have waits := Move.eq_wait_of_progress waits
      rcases SlotMap.eq_of_advance_wait (stuck.unlocked reached found storage) waits with
        ⟨place, rfl⟩ | ⟨place, outcome, rfl, held⟩
      · obtain ⟨holder, held⟩ : ∃ holder, (map.slot place).latch.holder = some holder := by
          simp only [Storage.advance, Storage.lock] at waits
          split at waits
          next held => exact Option.isSome_iff_exists.mp held
          next => cases waits
        obtain ⟨key, next, there, inside, mapped⟩ :=
          stuck.computing_of_latched reached found storage held
        have traced := sound.traced map storage
        have here : map.find? argument = some place := traced.mapped at'.mem_phases rfl
        exact ⟨number, key, holder, next, there, inside,
          .inl ⟨argument, rfl, SlotMap.same_of_find? traced.nodup mapped here⟩⟩
      · exact absurd (sound.free_of_clear storage at'.getElem?_phases) held
  | counting number progress =>
      have policy := (descends thread _ at').1 number rfl
      obtain ⟨cache, found, -⟩ := World.policy?_eq_some.mp policy
      obtain ⟨map, storage⟩ := slots policy found
      obtain ⟨place, holder, held⟩ : ∃ place holder,
          (map.slot place).latch.holder = some holder := by
        have free := stuck.unlocked reached found storage
        simp only [Activity.next, found, storage] at waits
        cases progress with
        | collect traversal => simp [Storage.count, free, CountMove.progress] at waits
        | visit ahead behind count =>
            cases ahead with
            | nil => cases waits
            | cons place ahead =>
                simp only [Storage.count] at waits
                split at waits
                next held => exact ⟨place, Option.isSome_iff_exists.mp held⟩
                next => cases waits
        | drop held count => cases held <;> cases waits
      obtain ⟨key, next, there, inside, -⟩ :=
        stuck.computing_of_latched reached found storage held
      exact ⟨number, key, holder, next, there, inside,
        .inr ((ordered thread _ at').alone number rfl)⟩

/-- Nobody is inside of a computation: it would wait for a smaller one. -/
theorem no_computation (stuck : system.Stuck) (reached : system.Reached limit)
    (ordered : system.Ordered smaller) (descends : system.Descends smaller)
    (founded : WellFounded smaller)
    (respects : ∀ lower number key other, key.same other = true →
      smaller lower (number, key) → smaller lower (number, other))
    (at' : system.At thread activity) : Frame.computations activity.frames = [] := by
  have below : ∀ {lower number key other}, key.same other = true →
      Relation.TransGen smaller lower (number, key) →
      Relation.TransGen smaller lower (number, other) := by
    intro lower number key other equal falls
    cases falls with
    | single step => exact .single (respects _ _ _ _ equal step)
    | tail falls step => exact .tail falls (respects _ _ _ _ equal step)
  have none : ∀ (target : Nat × Value) thread activity key, system.At thread activity →
      (target.1, key) ∈ Frame.computations activity.frames → key.same target.2 = true → False := by
    intro target
    induction target using founded.transGen.induction with
    | _ target induction =>
        intro thread activity key at' inside equal
        obtain ⟨number, other, holder, next, there, within,
            ⟨argument, applications, same⟩ | alone⟩ :=
          stuck.exists_computing reached ordered descends at'
        · have falling := (ordered thread activity at').falling
          rw [applications, List.pairwise_cons] at falling
          exact induction (number, argument) (below equal (falling.1 _ inside)) holder next other
            there within same
        · rw [alone] at inside
          cases inside
  rw [List.eq_nil_iff_forall_not_mem]
  rintro ⟨number, key⟩ inside
  exact none (number, key) thread activity key at' inside (Value.same_refl key)

/-- All threads are done. -/
theorem isDone (stuck : system.Stuck) (reached : system.Reached limit)
    (ordered : system.Ordered smaller) (descends : system.Descends smaller)
    (founded : WellFounded smaller)
    (respects : ∀ lower number key other, key.same other = true →
      smaller lower (number, key) → smaller lower (number, other))
    {worker : Worker} (member : worker ∈ system.workers) : worker.isDone = true := by
  obtain ⟨thread, present⟩ := List.getElem?_of_mem member
  obtain ⟨_ | activity, pending, outcomes⟩ := worker
  · cases pending with
    | nil => rfl
    | cons task pending =>
        have stepped := stuck thread
        simp [step, present, Worker.next] at stepped
  · have at' : system.At thread activity := ⟨_, present, rfl⟩
    obtain ⟨number, key, other, next, there, inside, -⟩ :=
      stuck.exists_computing reached ordered descends at'
    rw [stuck.no_computation reached ordered descends founded respects there] at inside
    cases inside

end Stuck

/-- The applications that the threads are inside of are in order where they always were about to
apply functions only to what is smaller. -/
theorem ordered_of_reaches (reaches : Relation.ReflTransGen (fun middle next =>
      Happens limit middle next ∧ next.Descends smaller) ⟨{}, []⟩ system) :
    system.Reached limit ∧ system.Descends smaller ∧ system.Ordered smaller := by
  induction reaches with
  | refl =>
      have nobody : ∀ thread activity, ¬System.At ⟨{}, []⟩ thread activity := by
        rintro thread activity ⟨worker, present, -⟩
        cases present
      exact ⟨.refl, fun _ _ at' => (nobody _ _ at').elim, fun _ _ at' => (nobody _ _ at').elim⟩
  | tail _ step induction =>
      obtain ⟨reached, descends, ordered⟩ := induction
      exact ⟨.tail reached step.1, step.2, ordered.of_happens descends step.1⟩

/-- Any number of threads apply functions that are memoized with a lock for each argument, inside of
the computation for an argument only to what is smaller, in an order without infinite descent in
which equal arguments of a cache are equally great. Computations may fail, and threads may count
results. Whatever the order of their steps, as long as some thread is not done there is one that can
go on. -/
theorem ordered_recursion_goes_on (founded : WellFounded smaller)
    (respects : ∀ lower number key other, key.same other = true →
      smaller lower (number, key) → smaller lower (number, other))
    (reaches : Relation.ReflTransGen (fun middle next => Happens limit middle next ∧
      next.Descends smaller) ⟨{}, []⟩ system)
    (unfinished : ∃ worker ∈ system.workers, worker.isDone = false) :
    ∃ thread worker, system.workers[thread]? = some worker ∧ worker.isDone = false ∧
      (system.step thread).isSome = true := by
  obtain ⟨reached, descends, ordered⟩ := ordered_of_reaches reaches
  by_contra none
  have stuck : system.Stuck := by
    intro thread
    cases stepped : system.step thread with
    | none => rfl
    | some after =>
        obtain ⟨worker, next, world, present, moved, -⟩ := step_eq_some stepped
        refine absurd ⟨thread, worker, present, ?_, by simp [stepped]⟩ none
        obtain ⟨_ | activity, _ | ⟨task, pending⟩, outcomes⟩ := worker <;>
          first | rfl | cases moved
  obtain ⟨worker, member, busy⟩ := unfinished
  rw [stuck.isDone reached ordered descends founded respects member] at busy
  cases busy

/-! ## A program -/

private theorem height_of_same {key other : Value} (equal : key.same other = true) :
    height key = height other := by
  have folded : ∀ value : Value, height value.folded = height value := by
    intro value
    cases value <;> rfl
  rw [← folded key, (Value.same_iff key other).mp equal, folded other]

/-- A thread computes an argument and is about to apply the function to a smaller one, while another
waits for the result. -/
theorem ordered_recursion_goes_on_descending :
    ∃ system, (callers .perKey descending [[.int 1], [.int 1]]).follow
        (List.replicate 9 0 ++ List.replicate 4 1) = some system ∧
      system.step 1 = none ∧
      ∃ thread worker, system.workers[thread]? = some worker ∧ worker.isDone = false ∧
        (system.step thread).isSome = true := by
  let smaller : Nat × Value → Nat × Value → Prop := fun lower upper =>
    height lower.2 < height upper.2
  have followed : ∃ system, (callers .perKey descending [[.int 1], [.int 1]]).follow
      (List.replicate 9 0 ++ List.replicate 4 1) = some system ∧ system.step 1 = none ∧
        (system.workers.any fun worker => !worker.isDone) = true := ⟨_, rfl, rfl, rfl⟩
  obtain ⟨system, followed, waits, busy⟩ := followed
  have begun : Relation.ReflTransGen (fun middle next => Happens 2 middle next ∧
      next.Descends smaller) ⟨{}, []⟩ (callers .perKey descending [[.int 1], [.int 1]]) :=
    .head ⟨.make (.memoize {} .perKey .all (.plain 0 descending)), by decide⟩
      (.single ⟨.start _ (by simp) (by simp), by decide⟩)
  have along : Relation.ReflTransGen (fun middle next => Happens 2 middle next ∧
      next.Descends smaller) (callers .perKey descending [[.int 1], [.int 1]]) system :=
    reaches_along followed (by decide)
  have onward := ordered_recursion_goes_on
    (InvImage.wf (fun target : Nat × Value => height target.2) Nat.lt_wfRel.wf)
    (fun _ _ _ _ equal falls => Nat.lt_of_lt_of_eq falls (height_of_same equal))
    (begun.trans along) (by simpa using busy)
  exact ⟨system, followed, waits, onward⟩

/-- Code that applies the function to `b` for `A`, and to `a` for `b`. -/
def folding : Code
  | .caseless "A" => .apply (.memoized 0) (.caseless "b")
  | .caseless "b" => .apply (.memoized 0) (.caseless "a")
  | _ => .value (.int 0)

/-- How great an argument of that code is: `a` is less than `b`, and `b` is less than `A`. -/
def magnitude : Value → Nat
  | .caseless "A" => 2
  | .caseless "b" => 1
  | _ => 0

/-- Equal arguments have to be equally great. One thread computes `A` and waits for another, which
computes `b` and waits at the place of `a`, which is that of `A`; yet each applies the function only
to something smaller. -/
theorem equal_arguments_deadlock :
    ∃ system, (callers .perKey folding [[.caseless "A"], [.caseless "b"]]).follow
        (List.replicate 7 0 ++ List.replicate 7 1 ++ List.replicate 4 0 ++ List.replicate 4 1) =
          some system ∧
      WellFounded (fun lower upper : Nat × Value => magnitude lower.2 < magnitude upper.2) ∧
      Relation.ReflTransGen (fun middle next => Happens 2 middle next ∧
        next.Descends fun lower upper => magnitude lower.2 < magnitude upper.2) ⟨{}, []⟩ system ∧
      (∃ worker ∈ system.workers, worker.isDone = false) ∧
      ∀ thread, system.step thread = none := by
  let smaller : Nat × Value → Nat × Value → Prop := fun lower upper =>
    magnitude lower.2 < magnitude upper.2
  let start := callers .perKey folding [[.caseless "A"], [.caseless "b"]]
  let schedule : List Thread :=
    List.replicate 7 0 ++ List.replicate 7 1 ++ List.replicate 4 0 ++ List.replicate 4 1
  have followed : (start.follow schedule).any (fun system => system.workers.length == 2 &&
      system.workers.any (!·.isDone) && (system.step 0).isNone && (system.step 1).isNone) = true := by
    decide +kernel
  have along : Along (·.Descends smaller) start schedule := by decide +kernel
  obtain ⟨system, followed, stuck⟩ := (Option.any_eq_true ..).mp followed
  simp only [Bool.and_eq_true, beq_iff_eq, List.any_eq_true, Bool.not_eq_true',
    Option.isNone_iff_eq_none] at stuck
  obtain ⟨⟨⟨two, unfinished⟩, first⟩, second⟩ := stuck
  have begun : Relation.ReflTransGen (fun middle next => Happens 2 middle next ∧
      next.Descends smaller) ⟨{}, []⟩ start :=
    .head ⟨.make (.memoize {} .perKey .all (.plain 0 folding)), by decide⟩
      (.single ⟨.start _ (by simp) (by simp), by decide⟩)
  refine ⟨system, followed, InvImage.wf (fun target : Nat × Value => magnitude target.2)
    Nat.lt_wfRel.wf, begun.trans (reaches_along followed along), unfinished, fun thread => ?_⟩
  match thread with
  | 0 => exact first
  | 1 => exact second
  | other + 2 =>
      have absent : system.workers[other + 2]? = none :=
        List.getElem?_eq_none (by rw [two]; exact Nat.le_add_left 2 other)
      simp [step, absent]

end System

end FunctionValues
