import FunctionValues.Proofs.AtMostOnce
import FunctionValues.Proofs.Invariants
import FunctionValues.Proofs.Sharing

/-!
# Re-entry

A thread that computes an equal argument of the same cache, or any argument where one lock serves them
all, would wait for itself when it applies the memoized function, so it is refused. It does not matter
what other threads compute, nor what they do between its steps. A refused application takes three
steps, which leave one entry in the log and nothing else.
-/

namespace FunctionValues

namespace Storage

/-- Give up a reference to a place. -/
def release (storage : Storage) (place : Nat) : Storage :=
  match storage with
  | table results => table results
  | slots map => slots (map.release place)

/-- Whether the lock of the slot map is held. -/
def isLocked : Storage → Bool
  | table _ => false
  | slots map => map.holder.isSome

theorem drop_eq_finish (storage : Storage) (place : Nat) (outcome : Outcome) :
    storage.drop place outcome = .finish (storage.release place) outcome := by
  cases storage <;> rfl

@[simp]
theorem release_refer (storage : Storage) (place : Nat) :
    (storage.refer place).release place = storage := by
  have dropped := storage.drop_refer place (.error .oversized)
  rw [drop_eq_finish, Move.finish.injEq] at dropped
  exact dropped.1

/-- Finding an argument that has a place takes a reference to it, once the lock of the map is free. -/
theorem seek_of_place? {storage : Storage} {key : Value} {place : Nat}
    (placed : storage.place? key = some place) :
    storage.seek key =
      if storage.isLocked then .wait else .go (storage.refer place) none (.check place) := by
  cases storage with
  | table results =>
      cases placed
      rfl
  | slots map =>
      have found : map.find? key = some place := placed
      simp only [seek, isLocked, SlotMap.obtain, found, refer]
      rfl

end Storage

theorem Frame.mem_phases {number : Nat} {frames : List Frame} {phase : Phase} :
    phase ∈ phases number frames ↔
      ∃ key place, phase = .computing key place ∧ .computing number key place ∈ frames := by
  induction frames with
  | nil => simp [phases]
  | cons frame frames induction =>
      cases frame with
      | bind next | feed argument => simpa [phases] using induction
      | computing cache key place =>
          by_cases here : cache = number
          · subst here
            simp [phases, induction, and_or_left, exists_or]
          · simp [phases, here, induction, Ne.symm here]

theorem Activity.mem_phases {number : Nat} {focus : Focus} {frames : List Frame} {phase : Phase} :
    phase ∈ Activity.phases number ⟨focus, frames⟩ ↔
      (∃ key stage, phase = .applying key stage ∧ focus = .applying number key stage) ∨
        (∃ progress, phase = .counting progress ∧ focus = .counting number progress) ∨
        ∃ key place, phase = .computing key place ∧ .computing number key place ∈ frames := by
  cases focus with
  | run computation | answer outcome => simp [Frame.mem_phases]
  | applying cache key stage =>
      by_cases here : cache = number <;> simp [here, Frame.mem_phases]
  | counting cache progress =>
      by_cases here : cache = number <;> simp [here, Frame.mem_phases]

theorem World.setStorage_self {world : World} {number : Nat} {cache : Cache}
    (found : world.caches[number]? = some cache) : world.setStorage number cache.storage = world :=
  World.amend_self found []

namespace System

variable {limit : Nat} {system after : System} {thread : Thread} {number : Nat} {key : Value}
  {place : Nat} {frames : List Frame} {cache : Cache} {activity : Activity}

/-! ## While a thread makes no step -/

/-- Something that happens while a thread is in the middle of a task and makes no step. -/
inductive Meanwhile (thread : Thread) : System → System → Prop
  | step {system after : System} {other : Thread} (different : other ≠ thread)
      (stepped : system.step other = some after) : Meanwhile thread system after
  | make {world after : World} {workers : List Worker} (made : world.Makes after) :
      Meanwhile thread ⟨world, workers⟩ ⟨after, workers⟩

/-- What the next step of a thread comes to, whatever happens before it. -/
def Next (thread : Thread) (system : System) (expected : System → System → Prop) : Prop :=
  ∀ middle after, Relation.ReflTransGen (Meanwhile thread) system middle →
    middle.step thread = some after → expected middle after

theorem Meanwhile.happens (meanwhile : Meanwhile thread system after) (limit : Nat) :
    Happens limit system after := by
  cases meanwhile with
  | step _ stepped => exact .step _ stepped
  | make made => exact .make made

theorem Reached.meanwhile (reached : system.Reached limit)
    (meanwhile : Relation.ReflTransGen (Meanwhile thread) system after) : after.Reached limit := by
  induction meanwhile with
  | refl => exact reached
  | tail _ meanwhile induction => exact .tail induction (meanwhile.happens limit)

theorem At.meanwhile (at' : system.At thread activity)
    (meanwhile : Relation.ReflTransGen (Meanwhile thread) system after) :
    after.At thread activity := by
  induction meanwhile with
  | refl => exact at'
  | @tail middle next _ meanwhile induction =>
      obtain ⟨worker, present, current⟩ := induction
      cases meanwhile with
      | make made => exact ⟨worker, present, current⟩
      | step different stepped =>
          obtain ⟨_, moved, world, -, -, rfl⟩ := step_eq_some stepped
          exact ⟨worker, by rw [List.getElem?_set_ne different, present], current⟩

theorem caches_meanwhile (meanwhile : Relation.ReflTransGen (Meanwhile thread) system after)
    (found : system.world.caches[number]? = some cache) :
    ∃ storage, after.world.caches[number]? = some { cache with storage := storage } ∧
      storage.policy = cache.storage.policy := by
  have reaches : Reaches 0 system after :=
    Relation.ReflTransGen.mono (fun _ _ meanwhile => Meanwhile.happens meanwhile 0) _ _ meanwhile
  exact Reaches.caches reaches found

theorem meanwhile_of_follow {threads : List Thread} (apart : thread ∉ threads)
    (followed : system.follow threads = some after) :
    Relation.ReflTransGen (Meanwhile thread) system after := by
  induction threads generalizing system with
  | nil =>
      obtain rfl : system = after := Option.some.inj followed
      exact .refl
  | cons other threads induction =>
      simp only [follow, Option.bind_eq_bind, Option.bind_eq_some_iff] at followed
      obtain ⟨middle, stepped, rest⟩ := followed
      have different : other ≠ thread := fun same => apart (same ▸ List.mem_cons_self)
      exact .head (.step different stepped)
        (induction (fun member => apart (List.mem_cons_of_mem other member)) rest)

/-! ## Single steps -/

theorem At.getElem?_phases {stage : Stage}
    (at' : system.At thread ⟨.applying number key stage, frames⟩) :
    (system.phases number)[thread]? = some (.applying key stage :: Frame.phases number frames) := by
  obtain ⟨worker, present, current⟩ := at'
  simp [phases, present, Worker.phases, current]

theorem At.eq_of_progress {world : World} {next : Activity} (at' : system.At thread activity)
    (stepped : system.step thread = some after)
    (progress : activity.next thread system.world = .step world next) :
    after.world = world ∧ after.At thread next := by
  obtain ⟨after', stepped', same, there⟩ := at'.eq_of_step progress
  rw [stepped, Option.some.injEq] at stepped'
  exact stepped' ▸ ⟨same, there⟩

theorem At.step_of_wait (at' : system.At thread activity)
    (progress : activity.next thread system.world = .wait) : system.step thread = none := by
  obtain ⟨⟨_, pending, outcomes⟩, present, rfl⟩ := at'
  simp [step, present, Worker.next, progress]

/-- A thread that can go on finds a place. -/
theorem At.of_seek (at' : system.At thread ⟨.applying number key .seek, frames⟩)
    (found : system.world.caches[number]? = some cache) (stepped : system.step thread = some after) :
    ∃ place, after.At thread ⟨.applying number key (.check place), frames⟩ ∧
      after.world.log = system.world.log := by
  have moved : cache.storage.seek key = .wait ∨
      ∃ storage place, cache.storage.seek key = .go storage none (.check place) := by
    cases cache.storage with
    | table results => exact .inr ⟨_, _, rfl⟩
    | slots map =>
        simp only [Storage.seek]
        split
        · exact .inl rfl
        · exact .inr ⟨_, _, rfl⟩
  rcases moved with waits | ⟨storage, place, goes⟩
  · rw [at'.step_of_wait (by
      simp only [Activity.next, found, Storage.advance, waits, Move.progress])] at stepped
    cases stepped
  · obtain ⟨world, there⟩ := at'.eq_of_progress stepped (by
      simp only [Activity.next, found, Storage.advance, goes, Move.progress]
      rfl)
    exact ⟨place, there, by rw [world]; rfl⟩

/-- A thread that computes what blocks an argument finds the place of that argument. -/
theorem At.next_seek (reached : system.Reached limit)
    (at' : system.At thread ⟨.applying number key .seek, frames⟩)
    (found : system.world.caches[number]? = some cache)
    (blocked : cache.storage.policy.blocks (Frame.keys number frames) key = true) :
    ∃ place, Activity.next thread system.world ⟨.applying number key .seek, frames⟩ =
      if cache.storage.isLocked then .wait
      else .step (system.world.setStorage number (cache.storage.refer place))
        ⟨.applying number key (.check place), frames⟩ := by
  obtain ⟨place, placed⟩ :=
    (reached.sound.present found).exists_place?_of_blocks at'.getElem?_phases blocked
  refine ⟨place, ?_⟩
  simp only [Activity.next, found, Storage.advance, Storage.seek_of_place? placed]
  split <;> rfl

/-- A thread at the place of an argument is refused exactly when it computes what blocks that
argument. -/
theorem At.next_check (reached : system.Reached limit)
    (at' : system.At thread ⟨.applying number key (.check place), frames⟩)
    (found : system.world.caches[number]? = some cache) :
    Activity.next thread system.world ⟨.applying number key (.check place), frames⟩ =
      if cache.storage.policy.blocks (Frame.keys number frames) key then
        .step (system.world.record
            (.event number (some key) (.reentryRejected cache.storage.policy)))
          ⟨.applying number key (.drop place (.error (.reentered cache.storage.policy))), frames⟩
      else .step system.world ⟨.applying number key (.lock place), frames⟩ := by
  have owner := (reached.sound.present found).owner_iff at'.getElem?_phases
    (Frame.inward_phases number frames)
  simp only [Activity.next, found, Storage.advance, Storage.check]
  by_cases blocked : cache.storage.policy.blocks (Frame.keys number frames) key = true
  · rw [if_pos blocked, if_pos (owner.mpr blocked)]
    simp only [Move.progress, World.setStorage_self found, World.recordEvent]
  · rw [if_neg blocked, if_neg (fun owned => blocked (owner.mp owned))]
    simp only [Move.progress, World.setStorage_self found, World.recordEvent]

theorem next_drop {world : World} {outcome : Outcome} (found : world.caches[number]? = some cache) :
    Activity.next thread world ⟨.applying number key (.drop place outcome), frames⟩ =
      .step (world.setStorage number (cache.storage.release place)) ⟨.answer outcome, frames⟩ := by
  simp only [Activity.next, found, Storage.advance, Storage.drop_eq_finish, Move.progress]

/-! ## Refusal -/

/-- The steps of an application that is refused, whatever happens between them. The thread refers to
the place of the argument, it is refused, which is all that the log tells, and it gives up the
reference and comes back with the failure. -/
def Refuses (system : System) (thread : Thread) (number : Nat) (key : Value) (frames : List Frame)
    (policy : Policy) : Prop :=
  system.Next thread fun before sought => ∃ cache place,
    before.world.caches[number]? = some cache ∧
      sought.world = before.world.setStorage number (cache.storage.refer place) ∧
      sought.Next thread fun before checked =>
        checked.world = before.world.record (.event number (some key) (.reentryRejected policy)) ∧
          checked.Next thread fun before dropped => ∃ cache,
            before.world.caches[number]? = some cache ∧
              dropped.world = before.world.setStorage number (cache.storage.release place) ∧
              dropped.At thread ⟨.answer (.error (.reentered policy)), frames⟩

theorem refuses_of_blocked (reached : system.Reached limit)
    (found : system.world.caches[number]? = some cache)
    (at' : system.At thread ⟨.applying number key .seek, frames⟩)
    (blocked : cache.storage.policy.blocks (Frame.keys number frames) key = true) :
    system.Refuses thread number key frames cache.storage.policy := by
  intro before sought idle stepped
  obtain ⟨storage, found, policy⟩ := caches_meanwhile idle found
  obtain ⟨place, progress⟩ := (at'.meanwhile idle).next_seek (reached.meanwhile idle) found
    (by rw [policy]; exact blocked)
  cases locked : storage.isLocked with
  | true =>
      rw [if_pos locked] at progress
      rw [(at'.meanwhile idle).step_of_wait progress] at stepped
      cases stepped
  | false =>
      rw [if_neg (by simp [locked])] at progress
      obtain ⟨world, there⟩ := (at'.meanwhile idle).eq_of_progress stepped progress
      have reached := Reached.meanwhile reached idle
      refine ⟨_, place, found, world, ?_⟩
      have happens : Happens limit before sought := .step thread stepped
      have reached : sought.Reached limit := .tail reached happens
      obtain ⟨storage', found, policy'⟩ := happens.caches found
      intro before checked idle stepped
      obtain ⟨storage'', found, policy''⟩ := caches_meanwhile idle found
      have same : storage''.policy = cache.storage.policy := policy''.trans (policy'.trans policy)
      have progress := (there.meanwhile idle).next_check (reached.meanwhile idle) found
      rw [if_pos (by rw [same]; exact blocked), same] at progress
      obtain ⟨world, there⟩ := (there.meanwhile idle).eq_of_progress stepped progress
      have happens : Happens limit before checked := .step thread stepped
      obtain ⟨storage', found, -⟩ := happens.caches found
      refine ⟨world, ?_⟩
      intro before dropped idle stepped
      obtain ⟨storage'', found, -⟩ := caches_meanwhile idle found
      obtain ⟨world, there⟩ := (there.meanwhile idle).eq_of_progress stepped (next_drop found)
      exact ⟨_, found, world, there⟩

/-! ## Coming to an end -/

/-- A phase belongs to a thread that is in the middle of a task: it is the application or the
counting that the thread is at, or a computation that it is inside of. -/
theorem exists_at_of_mem {phase : Phase} (member : phase ∈ (system.phases number).getD thread []) :
    ∃ focus frames, system.At thread ⟨focus, frames⟩ ∧
      ((∃ key stage, phase = .applying key stage ∧ focus = .applying number key stage) ∨
        (∃ progress, phase = .counting progress ∧ focus = .counting number progress) ∨
        ∃ key place, phase = .computing key place ∧ .computing number key place ∈ frames) := by
  obtain ⟨⟨current, pending, outcomes⟩, present, within⟩ :
      ∃ worker, system.workers[thread]? = some worker ∧ phase ∈ worker.phases number := by
    rw [System.phases, List.getD_eq_getElem?_getD, List.getElem?_map] at member
    cases present : system.workers[thread]? with
    | none => simp [present] at member
    | some worker => exact ⟨worker, rfl, by simpa [present] using member⟩
  cases current with
  | none => cases within
  | some activity =>
      obtain ⟨focus, frames⟩ := activity
      refine ⟨focus, frames, ⟨_, present, rfl⟩, ?_⟩
      rcases Activity.mem_phases.mp within with applying | counting | inward
      · exact .inl applying
      · exact .inr (.inl counting)
      · exact .inr (.inr inward)

/-- A phase that has the lock of the map is a stage of an application. -/
theorem exists_at_of_locksMap {phase : Phase}
    (member : phase ∈ (system.phases number).getD thread []) (locks : phase.locksMap = true) :
    ∃ key stage frames, stage.locksMap = true ∧
      system.At thread ⟨.applying number key stage, frames⟩ := by
  obtain ⟨focus, frames, at', ⟨key, stage, rfl, rfl⟩ | ⟨progress, rfl, -⟩ | ⟨key, place, rfl, -⟩⟩ :=
    exists_at_of_mem member
  · exact ⟨key, stage, frames, locks, at'⟩
  · cases locks
  · cases locks

/-- A thread comes to a point at which the lock of a slot map is free. -/
def Unlocks (system : System) (thread : Thread) (number : Nat) (cache : Cache) : Prop :=
  ∃ steps middle storage, system.follow (List.replicate steps thread) = some middle ∧
    middle.world.caches[number]? = some { cache with storage := storage } ∧
    storage.isLocked = false

theorem Unlocks.of_step (storage : Storage) (stepped : system.step thread = some after)
    (unlocks : after.Unlocks thread number { cache with storage := storage }) :
    system.Unlocks thread number cache := by
  obtain ⟨steps, middle, last, followed, found, free⟩ := unlocks
  refine ⟨steps + 1, middle, last, ?_, found, free⟩
  simp [follow, List.replicate_succ, stepped, followed]

private theorem unlocks_of_leave {map : SlotMap} {outcome : Outcome}
    (found : system.world.caches[number]? = some cache) (storage : cache.storage = .slots map)
    (at' : system.At thread ⟨.applying number key (.leave place outcome), frames⟩) :
    system.Unlocks thread number cache := by
  obtain ⟨after, stepped, world, -⟩ := at'.eq_of_step (by
    simp only [Activity.next, found, storage, Storage.advance, Storage.leave, Move.progress]
    rfl)
  refine Unlocks.of_step (.slots { map with holder := none }) stepped
    ⟨0, after, .slots { map with holder := none }, rfl, ?_, rfl⟩
  rw [world]
  simp [World.caches_setStorage, found]

private theorem unlocks_of_clear {map : SlotMap} {outcome : Outcome} (reached : system.Reached limit)
    (found : system.world.caches[number]? = some cache) (storage : cache.storage = .slots map)
    (at' : system.At thread ⟨.applying number key (.clear place outcome), frames⟩) :
    system.Unlocks thread number cache := by
  have free := (reached.sound.present found).free_of_clear storage at'.getElem?_phases
  obtain ⟨last, event, moved⟩ : ∃ last event, cache.storage.advance cache.retention thread key
      (.clear place outcome) = .go (.slots last) event (.leave place outcome) := by
    simp only [storage, Storage.advance, Storage.clear, free]
    split
    · contradiction
    · split <;> exact ⟨_, _, rfl⟩
  obtain ⟨after, stepped, world, there⟩ := at'.eq_of_step (by
    simp only [Activity.next, found, moved, Move.progress]
    rfl)
  refine Unlocks.of_step (.slots last) stepped (unlocks_of_leave ?_ rfl there)
  rw [world]
  simp [World.caches_setStorage, found]

/-- Whoever has the lock of a slot map gives it up without waiting for anybody. -/
theorem unlocks_of_holder {map : SlotMap} (reached : system.Reached limit)
    (found : system.world.caches[number]? = some cache) (storage : cache.storage = .slots map)
    (held : map.holder = some thread) : system.Unlocks thread number cache := by
  have count := ((reached.sound.present found).traced map storage).holder thread
  rw [if_pos held] at count
  obtain ⟨phase, member, locks⟩ := List.countP_pos_iff.mp (Nat.lt_of_lt_of_eq Nat.one_pos count.symm)
  obtain ⟨key, stage, frames, locked, at'⟩ := exists_at_of_locksMap member locks
  cases stage with
  | leave place outcome => exact unlocks_of_leave found storage at'
  | clear place outcome => exact unlocks_of_clear reached found storage at'
  | inspect place outcome =>
      by_cases unshared : map.isUnshared key place = true
      · obtain ⟨after, stepped, world, there⟩ := at'.eq_of_step (by
          simp only [Activity.next, found, storage, Storage.advance, Storage.inspect, unshared,
            if_true, Move.progress]
          rfl)
        have happens : Happens limit system after := .step thread stepped
        refine Unlocks.of_step (.slots map) stepped
          (unlocks_of_clear (.tail reached happens) ?_ rfl there)
        rw [world]
        simp [World.caches_setStorage, found]
      · obtain ⟨after, stepped, world, there⟩ := at'.eq_of_step (by
          simp only [Activity.next, found, storage, Storage.advance, Storage.inspect,
            if_neg unshared, Move.progress]
          rfl)
        refine Unlocks.of_step (.slots map) stepped (unlocks_of_leave ?_ rfl there)
        rw [world]
        simp [World.caches_setStorage, found]
  | seek | check _ | lock _ | look _ | start _ | settle _ _ | keep _ _ | unlock _ _ _ | enter _ _
  | drop _ _ => cases locked

/-- A thread that is refused comes back with the failure as soon as nobody has the lock of the map,
and only the log is different then. -/
theorem At.comes_of_refused (reached : system.Reached limit)
    (found : system.world.caches[number]? = some cache)
    (at' : system.At thread ⟨.applying number key .seek, frames⟩)
    (blocked : cache.storage.policy.blocks (Frame.keys number frames) key = true)
    (free : cache.storage.isLocked = false) :
    ∃ after, system.follow (List.replicate 3 thread) = some after ∧
      after.world = system.world.record
        (.event number (some key) (.reentryRejected cache.storage.policy)) ∧
      after.At thread ⟨.answer (.error (.reentered cache.storage.policy)), frames⟩ := by
  obtain ⟨place, progress⟩ := at'.next_seek reached found blocked
  rw [if_neg (by simp [free])] at progress
  obtain ⟨sought, stepped, world, there⟩ := at'.eq_of_step progress
  have kept : sought.world.caches[number]? =
      some { cache with storage := cache.storage.refer place } := by
    rw [world]
    simp [World.caches_setStorage, found]
  have happens : Happens limit system sought := .step thread stepped
  have same : (cache.storage.refer place).policy = cache.storage.policy :=
    (cache.storage.alike_refer place).policy
  have progress := there.next_check (.tail reached happens) kept
  rw [if_pos (by rw [same]; exact blocked)] at progress
  obtain ⟨checked, stepped', world', there'⟩ := there.eq_of_step progress
  have kept' : checked.world.caches[number]? =
      some { cache with storage := cache.storage.refer place } := by
    rw [world']
    exact kept
  obtain ⟨dropped, stepped'', world'', there''⟩ := there'.eq_of_step (next_drop kept')
  refine ⟨dropped, by simp [System.follow, List.replicate_succ, stepped, stepped', stepped''], ?_, ?_⟩
  · rw [world'', world', world]
    simp only [Storage.release_refer, same]
    exact (system.world.amend_amend number (cache.storage.refer place) cache.storage [] [_]).trans
      (World.amend_self found _)
  · simpa only [same] using there''

/-- A thread that is to be refused comes back with the failure once others have made some steps. -/
theorem At.comes_of_blocked (reached : system.Reached limit)
    (found : system.world.caches[number]? = some cache)
    (at' : system.At thread ⟨.applying number key .seek, frames⟩)
    (blocked : cache.storage.policy.blocks (Frame.keys number frames) key = true) :
    ∃ threads middle after, thread ∉ threads ∧ system.follow threads = some middle ∧
      middle.follow (List.replicate 3 thread) = some after ∧
      after.world = middle.world.record
        (.event number (some key) (.reentryRejected cache.storage.policy)) ∧
      after.At thread ⟨.answer (.error (.reentered cache.storage.policy)), frames⟩ := by
  cases locked : cache.storage.isLocked with
  | false =>
      obtain ⟨after, followed, world, there⟩ := at'.comes_of_refused reached found blocked locked
      exact ⟨[], system, after, by simp, rfl, followed, world, there⟩
  | true =>
      obtain ⟨map, other, storage, held⟩ : ∃ map other, cache.storage = .slots map ∧
          map.holder = some other := by
        cases storage : cache.storage with
        | table results => simp [storage, Storage.isLocked] at locked
        | slots map =>
            rw [storage] at locked
            obtain ⟨other, held⟩ := Option.isSome_iff_exists.mp locked
            exact ⟨map, other, rfl, held⟩
      have different : thread ≠ other := by
        rintro rfl
        have count := ((reached.sound.present found).traced map storage).holder thread
        have here : (system.phases number).getD thread [] =
            .applying key .seek :: Frame.phases number frames := by
          simp [at'.getElem?_phases]
        rw [if_pos held, here, List.countP_cons_of_neg (by simp [Phase.locksMap, Stage.locksMap])]
          at count
        obtain ⟨phase, member, locks⟩ :=
          List.countP_pos_iff.mp (Nat.lt_of_lt_of_eq Nat.one_pos count.symm)
        obtain ⟨argument, place, rfl⟩ := Frame.inward_phases number frames phase member
        cases locks
      obtain ⟨steps, middle, storage', followed, kept, free⟩ :=
        unlocks_of_holder reached found storage held
      have apart : thread ∉ List.replicate steps other := by
        intro member
        exact different (List.eq_of_mem_replicate member)
      have idle := meanwhile_of_follow apart followed
      obtain ⟨storage'', kept', policy⟩ := caches_meanwhile idle found
      obtain rfl : storage' = storage'' := by
        rw [kept, Option.some.injEq, Cache.mk.injEq] at kept'
        exact kept'.2.2
      obtain ⟨after, onward, world, there⟩ := (at'.meanwhile idle).comes_of_refused
        (reached.meanwhile idle) kept (by rw [policy]; exact blocked) free
      rw [policy] at world there
      exact ⟨_, middle, after, apart, followed, onward, world, there⟩

end System

end FunctionValues
