import FunctionValues.Proofs.Runs
import Mathlib.Logic.Equiv.Basic

/-!
# The numbers of threads

Which number a thread has makes no difference. Renumbering all threads renumbers the holders and the
owners of latches and commutes with every step. Where nothing runs there is nobody to renumber, so
whatever one thread does between two such moments another would do too. Threads that finish one after
another do together what a single one would.
-/

namespace FunctionValues

/-- A change that commutes with a map of items commutes with it at every position of a list. -/
theorem modify_map {α β : Type} {across : α → β} {first : α → α} {second : β → β}
    (commutes : ∀ item, second (across item) = across (first item)) (items : List α) (position : Nat) :
    (items.map across).modify position second = (items.modify position first).map across := by
  induction items generalizing position with
  | nil => simp
  | cons item items induction =>
      cases position with
      | zero => simp [commutes]
      | succ position => simp [induction]

variable (change : Thread → Thread)

/-! ## Renumbering -/

/-- Renumber the threads that hold and own a latch. -/
def Latch.renumber (latch : Latch) : Latch where
  holder := latch.holder.map change
  owner := latch.owner.map change

def Slot.renumber (slot : Slot) : Slot :=
  { slot with latch := slot.latch.renumber change }

/-- Renumber the threads that hold the lock of the map and the latches of its slots. -/
def SlotMap.renumber (map : SlotMap) : SlotMap :=
  { map with holder := map.holder.map change, slots := map.slots.map (Slot.renumber change) }

def Storage.renumber : Storage → Storage
  | .table results => .table { results with latch := results.latch.renumber change }
  | .slots map => .slots (map.renumber change)

def Cache.renumber (cache : Cache) : Cache :=
  { cache with storage := cache.storage.renumber change }

/-- Renumber the threads in all caches. -/
def World.renumber (world : World) : World :=
  { world with caches := world.caches.map (Cache.renumber change) }

def Move.renumber : Move → Move
  | .wait => .wait
  | .go storage event stage => .go (storage.renumber change) event stage
  | .compute storage place => .compute (storage.renumber change) place
  | .finish storage outcome => .finish (storage.renumber change) outcome

def CountMove.renumber : CountMove → CountMove
  | .wait => .wait
  | .go storage counting => .go (storage.renumber change) counting
  | .finish count => .finish count

def Progress.renumber : Progress → Progress
  | .step world activity => .step (world.renumber change) activity
  | .wait => .wait
  | .done outcome => .done outcome

variable {change}

/-! ## Slot maps -/

namespace SlotMap

@[simp]
theorem isSome_holder_renumber (map : SlotMap) :
    (map.renumber change).holder.isSome = map.holder.isSome := by
  simp [renumber]

theorem slot_renumber (map : SlotMap) (place : Nat) :
    (map.renumber change).slot place = (map.slot place).renumber change := by
  simp only [slot, renumber, List.getD_eq_getElem?_getD, List.getElem?_map]
  cases map.slots[place]? <;> rfl

theorem modify_renumber {first second : Slot → Slot}
    (commutes : ∀ slot, second (slot.renumber change) = (first slot).renumber change)
    (map : SlotMap) (place : Nat) :
    (map.renumber change).modify place second = (map.modify place first).renumber change := by
  simp only [modify, renumber, modify_map commutes]

theorem refer_renumber (map : SlotMap) (place : Nat) :
    (map.renumber change).refer place = (map.refer place).renumber change := by
  rw [refer, refer]
  exact modify_renumber (by intro slot; rfl) map place

theorem release_renumber (map : SlotMap) (place : Nat) :
    (map.renumber change).release place = (map.release place).renumber change := by
  rw [release, release]
  exact modify_renumber (by intro slot; rfl) map place

theorem foldl_refer_renumber (map : SlotMap) (places : List Nat) :
    places.foldl refer (map.renumber change) = (places.foldl refer map).renumber change := by
  induction places generalizing map with
  | nil => rfl
  | cons place places induction => rw [List.foldl_cons, List.foldl_cons, refer_renumber, induction]

theorem obtain_renumber (map : SlotMap) (key : Value) :
    (map.renumber change).obtain key =
      ((map.obtain key).1, (map.obtain key).2.renumber change) := by
  have same : (map.renumber change).find? key = map.find? key := rfl
  cases found : map.find? key with
  | some place => simp only [obtain, same, found, refer_renumber]
  | none =>
      simp only [obtain, same, found]
      simp [renumber, Slot.renumber, Latch.renumber]

theorem isUnshared_renumber (map : SlotMap) (key : Value) (place : Nat) :
    (map.renumber change).isUnshared key place = map.isUnshared key place := by
  simp only [isUnshared, slot_renumber]
  rfl

theorem remove_renumber (map : SlotMap) (key : Value) :
    (map.renumber change).remove key = (map.remove key).renumber change := by
  have same : (map.renumber change).find? key = map.find? key := rfl
  cases found : map.find? key with
  | some place =>
      simp only [remove, same, found, release_renumber]
      rfl
  | none => simp only [remove, same, found]

end SlotMap

/-! ## Applications -/

namespace Storage

theorem latch_renumber (storage : Storage) (place : Nat) :
    (storage.renumber change).latch place = (storage.latch place).renumber change := by
  cases storage with
  | table results => rfl
  | slots map => exact congrArg Slot.latch (map.slot_renumber place)

theorem isSome_holder_renumber (storage : Storage) (place : Nat) :
    ((storage.renumber change).latch place).holder.isSome =
      (storage.latch place).holder.isSome := by
  rw [latch_renumber]
  exact Option.isSome_map

theorem modifyLatch_renumber {first second : Latch → Latch}
    (commutes : ∀ latch, second (latch.renumber change) = (first latch).renumber change)
    (storage : Storage) (place : Nat) :
    (storage.renumber change).modifyLatch place second =
      (storage.modifyLatch place first).renumber change := by
  cases storage with
  | table results => simp only [renumber, modifyLatch, commutes]
  | slots map =>
      exact congrArg slots (SlotMap.modify_renumber
        (fun slot => by simp only [Slot.renumber, commutes]) map place)

theorem find?_renumber (storage : Storage) (place : Nat) (key : Value) :
    (storage.renumber change).find? place key = storage.find? place key := by
  cases storage with
  | table results => rfl
  | slots map =>
      simp only [find?, renumber, map.slot_renumber]
      rfl

theorem insert_renumber (storage : Storage) (place : Nat) (key : Value) (result : Result) :
    (storage.renumber change).insert place key result =
      (storage.insert place key result).renumber change := by
  cases storage with
  | table results =>
      simp only [insert, renumber, Table.insert]
      have same : Table.find? { results with latch := results.latch.renumber change } key =
        results.find? key := rfl
      rw [same]
      split <;> rfl
  | slots map =>
      refine congrArg slots ?_
      exact SlotMap.modify_renumber (by intro slot; rfl) map place

theorem policy_renumber (storage : Storage) : (storage.renumber change).policy = storage.policy := by
  cases storage <;> rfl

theorem reported_renumber (storage : Storage) :
    (storage.renumber change).reported = storage.reported := by
  cases storage <;> rfl

/-- Renumbering commutes with the stages of an application. -/
theorem advance_renumber (injective : change.Injective) (storage : Storage)
    (retention : Retention) (thread : Thread) (key : Value) (stage : Stage) :
    (storage.renumber change).advance retention (change thread) key stage =
      (storage.advance retention thread key stage).renumber change := by
  cases stage with
  | seek =>
      cases storage with
      | table results => rfl
      | slots map =>
          simp only [advance, seek, renumber, SlotMap.isSome_holder_renumber, SlotMap.obtain_renumber]
          split <;> rfl
  | check place =>
      have owner : ((storage.renumber change).latch place).owner = some (change thread) ↔
          (storage.latch place).owner = some thread := by
        rw [latch_renumber]
        exact Option.map_injective injective |>.eq_iff (b := some thread)
      simp only [advance, check, owner, policy_renumber]
      split <;> rfl
  | lock place =>
      simp only [advance, lock, isSome_holder_renumber]
      split
      · rfl
      · simp only [Move.renumber, Move.go.injEq, and_true]
        exact modifyLatch_renumber (by intro latch; rfl) storage place
  | look place =>
      simp only [advance, look, find?_renumber, policy_renumber]
      split <;> rfl
  | start place =>
      simp only [advance, start, Move.renumber, Move.compute.injEq, and_true]
      exact modifyLatch_renumber (by intro latch; rfl) storage place
  | settle place outcome | unlock place outcome vacant =>
      simp only [advance, settle, unlock, Move.renumber, Move.go.injEq, and_true]
      exact modifyLatch_renumber (by intro latch; rfl) storage place
  | keep place outcome =>
      cases outcome with
      | error failure => rfl
      | ok result =>
          simp only [advance, keep, insert_renumber, reported_renumber]
          split <;> rfl
  | enter place outcome =>
      cases storage with
      | table results => rfl
      | slots map =>
          simp only [advance, enter, renumber, SlotMap.isSome_holder_renumber]
          split <;> rfl
  | inspect place outcome =>
      cases storage with
      | table results => rfl
      | slots map =>
          simp only [advance, inspect, renumber, SlotMap.isUnshared_renumber]
          rfl
  | clear place outcome =>
      cases storage with
      | table results => rfl
      | slots map =>
          have held : ((map.renumber change).slot place).latch.holder.isSome =
              (map.slot place).latch.holder.isSome := by
            rw [map.slot_renumber]
            exact Option.isSome_map
          have content : ((map.renumber change).slot place).content = (map.slot place).content := by
            rw [map.slot_renumber]
            rfl
          simp only [advance, clear, renumber, held, content, SlotMap.remove_renumber]
          split
          · rfl
          · split <;> rfl
  | leave place outcome => cases storage <;> rfl
  | drop place outcome =>
      cases storage with
      | table results => rfl
      | slots map =>
          simp only [advance, drop, renumber, SlotMap.release_renumber]
          rfl

/-- Renumbering commutes with the steps of counting. -/
theorem count_renumber (storage : Storage) (counting : Counting) :
    (storage.renumber change).count counting = (storage.count counting).renumber change := by
  cases counting with
  | collect traversal =>
      cases storage with
      | table results =>
          simp only [count, renumber, Latch.renumber, Option.isSome_map]
          split <;> rfl
      | slots map =>
          simp only [count, renumber, SlotMap.isSome_holder_renumber]
          split
          · rfl
          · simp only [CountMove.renumber, renumber, ← SlotMap.foldl_refer_renumber]
            rfl
  | visit ahead behind found =>
      cases ahead with
      | nil => rfl
      | cons place ahead =>
          simp only [count, isSome_holder_renumber]
          split
          · rfl
          · cases storage with
            | table results => rfl
            | slots map =>
                simp only [renumber, map.slot_renumber]
                rfl
  | drop held found =>
      cases held with
      | nil => rfl
      | cons place held =>
          cases storage with
          | table results => rfl
          | slots map =>
              simp only [count, renumber, SlotMap.release_renumber]
              rfl

end Storage

/-! ## Steps of threads -/

namespace World

theorem cache_renumber (world : World) (number : Nat) :
    (world.renumber change).caches[number]? =
      world.caches[number]?.map (Cache.renumber change) := by
  simp [renumber]

theorem setStorage_renumber (world : World) (number : Nat) (storage : Storage) :
    (world.renumber change).setStorage number (storage.renumber change) =
      (world.setStorage number storage).renumber change := by
  simp only [setStorage, renumber]
  rw [modify_map]
  intro cache
  rfl

theorem recordEvent_renumber (world : World) (number : Nat) (key : Value) (event : Option Event) :
    (world.renumber change).recordEvent number key event =
      (world.recordEvent number key event).renumber change := by
  cases event <;> rfl

end World

namespace Activity

/-- Renumbering commutes with the steps of a thread. -/
theorem next_renumber (injective : change.Injective) (thread : Thread) (world : World)
    (activity : Activity) :
    activity.next (change thread) (world.renumber change) =
      (activity.next thread world).renumber change := by
  obtain ⟨focus, frames⟩ := activity
  cases focus with
  | run computation =>
      cases computation with
      | apply callable argument => cases callable <;> rfl
      | _ => rfl
  | answer outcome =>
      cases frames with
      | nil => rfl
      | cons frame frames =>
          cases frame <;> rcases outcome with failure | value | callable <;> rfl
  | applying number key stage =>
      simp only [next, World.cache_renumber]
      cases world.caches[number]? with
      | none => rfl
      | some cache =>
          simp only [Option.map_some, Cache.renumber, Storage.advance_renumber injective]
          cases cache.storage.advance cache.retention thread key stage with
          | wait => rfl
          | go storage event stage =>
              simp only [Move.renumber, Move.progress, Progress.renumber,
                World.setStorage_renumber, World.recordEvent_renumber]
          | compute storage place =>
              simp only [Move.renumber, Move.progress, Progress.renumber,
                World.setStorage_renumber]
              rfl
          | finish storage outcome =>
              simp only [Move.renumber, Move.progress, Progress.renumber,
                World.setStorage_renumber]
  | counting number counting =>
      simp only [next, World.cache_renumber]
      cases world.caches[number]? with
      | none => rfl
      | some cache =>
          simp only [Option.map_some, Cache.renumber, Storage.count_renumber]
          cases cache.storage.count counting with
          | wait => rfl
          | go storage counting =>
              simp only [CountMove.renumber, CountMove.progress, Progress.renumber,
                World.setStorage_renumber]
          | finish count => rfl

/-- Renumbering commutes with what a thread does on its own. -/
theorem Comes.renumber (injective : change.Injective) {thread : Thread} {world after : World}
    {activity last : Activity} (comes : Comes thread world activity after last) :
    Comes (change thread) (world.renumber change) activity (after.renumber change) last := by
  obtain ⟨steps, proceeded⟩ := comes
  refine ⟨steps, ?_⟩
  induction steps generalizing world activity with
  | zero =>
      obtain ⟨rfl, rfl⟩ : world = after ∧ activity = last := by simpa [proceed] using proceeded
      rfl
  | succ steps induction =>
      simp only [proceed, next_renumber injective] at proceeded ⊢
      cases progress : activity.next thread world with
      | step middle next =>
          rw [progress] at proceeded
          exact induction proceeded
      | wait | done outcome =>
          rw [progress] at proceeded
          cases proceeded

end Activity

/-! ## Worlds where nothing runs -/

/-- Nobody holds a latch or the lock of the map. -/
structure Storage.Idle (storage : Storage) : Prop where
  latch (place) : storage.latch place = {}
  holder (map) : storage = .slots map → map.holder = none

namespace Storage.Idle

variable {storage : Storage}

theorem renumber_eq_self (idle : storage.Idle) (change : Thread → Thread) :
    storage.renumber change = storage := by
  cases storage with
  | table results =>
      obtain ⟨latch, entries⟩ := results
      obtain rfl : latch = {} := idle.latch 0
      rfl
  | slots map =>
      obtain ⟨holder, index, slots⟩ := map
      obtain rfl : holder = none := idle.holder _ rfl
      have each : ∀ slot ∈ slots, slot.renumber change = slot := by
        intro slot member
        obtain ⟨place, inside, rfl⟩ := List.getElem_of_mem member
        have free : slots[place].latch = {} := by
          simpa [Storage.latch, SlotMap.slot, inside] using idle.latch place
        have kept : slots[place].latch.renumber change = slots[place].latch := by
          rw [free]
          rfl
        rw [Slot.renumber, kept]
      have same : slots.map (Slot.renumber change) = slots := by
        rw [List.map_congr_left each, List.map_id']
      simp only [renumber, SlotMap.renumber, same]
      rfl

theorem of_renumber {change : Thread → Thread} (idle : (storage.renumber change).Idle) :
    storage.Idle := by
  refine ⟨fun place => ?_, ?_⟩
  · have free := idle.latch place
    rw [latch_renumber] at free
    cases latch : storage.latch place with
    | mk holder owner =>
        rw [latch] at free
        simpa [Latch.renumber] using free
  · rintro map rfl
    have free := idle.holder _ rfl
    simpa [SlotMap.renumber] using free

end Storage.Idle

theorem Cache.Sound.idle {cache : Cache} {marks : List Mark} (sound : cache.Sound [] marks) :
    cache.storage.Idle := by
  refine ⟨fun place => ?_, fun map storage => ?_⟩
  · have held := fun thread => sound.guarded.holder thread place
    have owned := fun thread => sound.guarded.owner thread place
    cases latch : cache.storage.latch place with
    | mk holder owner =>
        simp only [latch, List.getD_nil, List.countP_nil] at held owned
        cases holder with
        | some thread => simp at held
        | none =>
            cases owner with
            | some thread => simp at owned
            | none => rfl
  · have held := fun thread => (sound.traced map storage).holder thread
    cases holder : map.holder with
    | some thread => simp [holder] at held
    | none => rfl

namespace World

variable {world after : World}

theorem renumber_eq_self (idle : ∀ cache ∈ world.caches, cache.storage.Idle)
    (change : Thread → Thread) : world.renumber change = world := by
  have each : ∀ cache ∈ world.caches, cache.renumber change = cache := by
    intro cache member
    simp only [Cache.renumber, (idle cache member).renumber_eq_self]
  simp only [renumber]
  rw [List.map_congr_left each, List.map_id']

theorem IsSound.idle (sound : world.IsSound) : ∀ cache ∈ world.caches, cache.storage.Idle := by
  intro cache member
  obtain ⟨number, found⟩ := List.getElem?_of_mem member
  exact (System.Sound.present sound found).idle

theorem IsSound.of_renumber {change : Thread → Thread} (sound : (world.renumber change).IsSound) :
    world.renumber change = world := by
  refine renumber_eq_self (fun cache member => ?_) change
  exact .of_renumber (sound.idle (cache.renumber change) (List.mem_map_of_mem member))

/-- What one thread comes to on its own, any other does. -/
theorem Ends.of_thread {thread : Thread} {computation : Computation} {outcome : Outcome}
    (sound : world.IsSound) (ends : world.Ends thread computation after outcome) :
    world.Ends 0 computation after outcome := by
  have moved := Activity.Comes.renumber (Equiv.swap thread 0).injective ends
  rw [Equiv.swap_apply_left, renumber_eq_self sound.idle] at moved
  have same := IsSound.of_renumber (Ends.isSound moved sound)
  rwa [same] at moved

/-- What the first thread comes to on its own, any other does. -/
theorem Ends.to_thread {computation : Computation} {outcome : Outcome} (thread : Thread)
    (sound : world.IsSound) (ends : world.Ends 0 computation after outcome) :
    world.Ends thread computation after outcome := by
  have moved := Activity.Comes.renumber (Equiv.swap thread 0).injective ends
  rwa [Equiv.swap_apply_right, renumber_eq_self sound.idle,
    renumber_eq_self (ends.isSound sound).idle] at moved

theorem EndAll.to_thread {computations : List Computation} {outcomes : List Outcome}
    (thread : Thread) (sound : world.IsSound)
    (endAll : world.EndAll 0 computations after outcomes) :
    world.EndAll thread computations after outcomes := by
  induction endAll with
  | nil world => exact .nil world
  | cons first _ induction =>
      exact .cons (first.to_thread thread sound) (induction (first.isSound sound))

theorem EndAll.of_thread {thread : Thread} {computations : List Computation}
    {outcomes : List Outcome} (sound : world.IsSound)
    (endAll : world.EndAll thread computations after outcomes) :
    world.EndAll 0 computations after outcomes := by
  induction endAll with
  | nil world => exact .nil world
  | cons first _ induction =>
      have ends := first.of_thread sound
      exact .cons ends (induction (ends.isSound sound))

end World

/-- Threads that finish one after another end all their computations, as a single one would. -/
theorem System.endAll_of_threads {limit : Nat} {world : World} {system : System}
    {before : List Worker} {tasks : List (List Computation)} (sound : world.IsSound)
    (done : ∀ worker ∈ before, worker.isDone = true)
    (finished : finish limit ⟨world, before ++ tasks.map fun computations =>
      { pending := computations.map .run }⟩ = some system) :
    ∃ outcomes, world.EndAll 0 tasks.flatten system.world outcomes := by
  induction tasks generalizing world before limit with
  | nil =>
      cases limit with
      | zero => cases finished
      | succ limit =>
          have none : first? ⟨world, before ++ []⟩ = none := by simpa [first?] using done
          rw [List.map_nil, finish, none] at finished
          obtain rfl := Option.some.inj finished
          exact ⟨[], .nil world⟩
  | cons computations tasks induction =>
      rw [List.map_cons] at finished
      obtain ⟨limit', after, ends, endAll, onward⟩ := endAll_among done _ finished
      have first := endAll.of_thread sound
      have rest : ∀ worker ∈ before ++ [⟨none, [], [] ++ ends⟩], worker.isDone = true := by
        rw [List.forall_mem_append]
        exact ⟨done, by simp [Worker.isDone]⟩
      rw [List.append_cons] at onward
      obtain ⟨outcomes, others⟩ := induction (first.isSound sound) rest onward
      exact ⟨ends ++ outcomes, first.append others⟩

end FunctionValues
