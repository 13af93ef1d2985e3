import FunctionValues.Proofs.Phases
import FunctionValues.Proofs.Stored

/-!
# What stages do

How the stages of an application change the latches and the results of a storage. Places that share
a latch are joined: those of a table all are. Only two stages lead elsewhere than to another stage,
and what a stage does beside its latch leaves the storage alike.
-/

namespace FunctionValues

namespace Policy

/-- Whether two places have the same latch. A table has one for all places. -/
def joins : Policy → Nat → Nat → Bool
  | global, _, _ => true
  | perKey, place, other => place == other

@[simp]
theorem joins_refl (policy : Policy) (place : Nat) : policy.joins place place = true := by
  cases policy <;> simp [joins]

theorem joins_congr {policy : Policy} {place other : Nat} (joined : policy.joins place other = true) :
    policy.joins place = policy.joins other := by
  cases policy with
  | global => rfl
  | perKey => rw [show place = other by simpa [joins] using joined]

end Policy

namespace Storage

/-- Whether a storage has a place. -/
def HasPlace : Storage → Nat → Prop
  | table _, _ => True
  | slots map, place => place < map.slots.length

theorem latch_congr (storage : Storage) {place other : Nat}
    (joined : storage.policy.joins place other = true) :
    storage.latch place = storage.latch other := by
  cases storage with
  | table results => rfl
  | slots map =>
      have here : place = other := by simpa [policy, Policy.joins] using joined
      rw [here]

@[simp]
theorem policy_modifyLatch (storage : Storage) (place : Nat) (change : Latch → Latch) :
    (storage.modifyLatch place change).policy = storage.policy := by
  cases storage <;> rfl

theorem latch_modifyLatch (storage : Storage) {place : Nat} (other : Nat) (change : Latch → Latch)
    (known : storage.HasPlace place) :
    (storage.modifyLatch place change).latch other =
      if storage.policy.joins other place then change (storage.latch place)
      else storage.latch other := by
  cases storage with
  | table results => simp [modifyLatch, latch, policy, Policy.joins]
  | slots map =>
      by_cases here : place = other
      · subst here
        simp [modifyLatch, latch, policy, Policy.joins, map.slot_modify_self _ known]
      · have apart : ¬other = place := fun same => here same.symm
        simp [modifyLatch, latch, policy, Policy.joins, map.slot_modify_of_ne _ here, apart]

/-- Changing a latch leaves the stored results as they are. -/
theorem find?_modifyLatch (storage : Storage) (place other : Nat) (change : Latch → Latch)
    (key : Value) :
    (storage.modifyLatch place change).find? other key = storage.find? other key := by
  cases storage with
  | table results => rfl
  | slots map =>
      by_cases here : place = other
      · subst here
        by_cases known : place < map.slots.length
        · simp [modifyLatch, find?, map.slot_modify_self _ known]
        · have outside := map.slot_of_length_le (Nat.le_of_not_lt known)
          simp only [modifyLatch, find?]
          rw [outside, SlotMap.slot_of_length_le _ (by simpa using known)]
      · simp [modifyLatch, find?, map.slot_modify_of_ne _ here]

theorem latch_insert (storage : Storage) (place other : Nat) (key : Value) (result : Result) :
    (storage.insert place key result).latch other = storage.latch other := by
  cases storage with
  | table results =>
      simp only [insert, latch, Table.insert]
      split <;> rfl
  | slots map =>
      by_cases here : place = other
      · subst here
        by_cases known : place < map.slots.length
        · simp [insert, latch, map.slot_modify_self _ known]
        · have outside := map.slot_of_length_le (Nat.le_of_not_lt known)
          simp only [insert, latch]
          rw [outside, SlotMap.slot_of_length_le _ (by simpa using known)]
      · simp [insert, latch, map.slot_modify_of_ne _ here]

@[simp]
theorem policy_insert (storage : Storage) (place : Nat) (key : Value) (result : Result) :
    (storage.insert place key result).policy = storage.policy := by
  cases storage <;> rfl

/-- Storing a result leaves the places that have other latches as they are. -/
theorem find?_insert_of_not_joins (storage : Storage) {place other : Nat} (key argument : Value)
    (result : Result) (apart : storage.policy.joins place other = false) :
    (storage.insert place key result).find? other argument = storage.find? other argument := by
  cases storage with
  | table results => simp [policy, Policy.joins] at apart
  | slots map =>
      have different : place ≠ other := by simpa [policy, Policy.joins] using apart
      simp [insert, find?, map.slot_modify_of_ne _ different]

/-- Two storages with the same latches and the same results at every place. -/
structure Alike (storage after : Storage) : Prop where
  policy : after.policy = storage.policy
  latch (place) : after.latch place = storage.latch place
  find (place key) : after.find? place key = storage.find? place key

theorem Alike.refl (storage : Storage) : storage.Alike storage :=
  ⟨rfl, fun _ => rfl, fun _ _ => rfl⟩

theorem Alike.of_slots {map after : SlotMap}
    (same : ∀ place, (after.slot place).latch = (map.slot place).latch ∧
      (after.slot place).content = (map.slot place).content) :
    (slots map).Alike (slots after) :=
  ⟨rfl, fun place => (same place).1, fun place _ => (same place).2⟩

/-- The stages that an application goes on from, with what each finds, and what it goes on with: the
storage, the event that is reported, and the next stage. -/
inductive Goes (storage : Storage) (retention : Retention) (thread : Thread) (key : Value) :
    Stage → Storage → Option Event → Stage → Prop
  | sought {after : Storage} {place : Nat} (found : storage.seek key = .go after none (.check place)) :
      Goes storage retention thread key .seek after none (.check place)
  | refused {place : Nat} (owned : (storage.latch place).owner = some thread) :
      Goes storage retention thread key (.check place) storage
        (some (.reentryRejected storage.policy)) (.drop place (.error (.reentered storage.policy)))
  | admitted {place : Nat} (unowned : (storage.latch place).owner ≠ some thread) :
      Goes storage retention thread key (.check place) storage none (.lock place)
  | latched {place : Nat} (free : (storage.latch place).holder = none) :
      Goes storage retention thread key (.lock place)
        (storage.modifyLatch place ({ · with holder := some thread })) none (.look place)
  | hit {place : Nat} {result : Result} (found : storage.find? place key = some result) :
      Goes storage retention thread key (.look place) storage (some (.hit storage.policy))
        (.unlock place (.ok result) false)
  | missed {place : Nat} (missing : storage.find? place key = none) :
      Goes storage retention thread key (.look place) storage (some (.miss storage.policy))
        (.start place)
  | settled (place : Nat) (outcome : Outcome) :
      Goes storage retention thread key (.settle place outcome)
        (storage.modifyLatch place ({ · with owner := none })) none (.keep place outcome)
  | stored {result : Result} (place : Nat) (keeps : retention.keeps result = true) :
      Goes storage retention thread key (.keep place (.ok result))
        (storage.insert place key result)
        (some (.stored (storage.insert place key result).reported)) (.unlock place (.ok result) false)
  | notRetained {result : Result} (place : Nat) (passing : retention.keeps result = false) :
      Goes storage retention thread key (.keep place (.ok result)) storage (some .notRetained)
        (.unlock place (.ok result) true)
  | failed (place : Nat) (failure : Failure) :
      Goes storage retention thread key (.keep place (.error failure)) storage none
        (.unlock place (.error failure) true)
  | unlatched (place : Nat) (outcome : Outcome) (vacant : Bool) :
      Goes storage retention thread key (.unlock place outcome vacant)
        (storage.modifyLatch place ({ · with holder := none })) none
        (if vacant then .enter place outcome else .drop place outcome)
  /-- A table has no slots, so there is nothing to remove. -/
  | passed {stage : Stage} (place : Nat) (outcome : Outcome) (flat : storage.policy = .global)
      (cleans : stage = .enter place outcome ∨ stage = .inspect place outcome ∨
        stage = .clear place outcome ∨ stage = .leave place outcome) :
      Goes storage retention thread key stage storage none (.drop place outcome)
  | entered {map : SlotMap} (place : Nat) (outcome : Outcome) (here : storage = .slots map)
      (free : map.holder = none) :
      Goes storage retention thread key (.enter place outcome)
        (.slots { map with holder := some thread }) none (.inspect place outcome)
  | unshared {map : SlotMap} {place : Nat} (outcome : Outcome) (here : storage = .slots map)
      (unshared : map.isUnshared key place = true) :
      Goes storage retention thread key (.inspect place outcome) storage none (.clear place outcome)
  | shared {map : SlotMap} {place : Nat} (outcome : Outcome) (here : storage = .slots map)
      (shared : map.isUnshared key place = false) :
      Goes storage retention thread key (.inspect place outcome) storage none (.leave place outcome)
  | removed {map : SlotMap} {place : Nat} (outcome : Outcome) (here : storage = .slots map)
      (empty : (map.slot place).content = none) :
      Goes storage retention thread key (.clear place outcome) (.slots (map.remove key))
        (some (.slotRemoved (map.remove key).index.length)) (.leave place outcome)
  | spared {map : SlotMap} {place : Nat} (outcome : Outcome) (here : storage = .slots map)
      (filled : (map.slot place).content ≠ none) :
      Goes storage retention thread key (.clear place outcome) storage none (.leave place outcome)
  | left {map : SlotMap} (place : Nat) (outcome : Outcome) (here : storage = .slots map) :
      Goes storage retention thread key (.leave place outcome) (.slots { map with holder := none })
        none (.drop place outcome)

/-- An application goes on in one of these ways. -/
theorem goes_of_go {storage after : Storage} {retention : Retention} {thread : Thread} {key : Value}
    {stage next : Stage} {event : Option Event}
    (moved : storage.advance retention thread key stage = .go after event next) :
    storage.Goes retention thread key stage after event next := by
  cases stage with
  | seek =>
      have found : storage.seek key = .go after event next := moved
      cases storage with
      | table results =>
          cases moved
          exact .sought found
      | slots map =>
          simp only [advance, seek] at moved
          split at moved <;> cases moved
          exact .sought found
  | check place =>
      simp only [advance, check] at moved
      split at moved <;> cases moved
      next owned => exact .refused owned
      next unowned => exact .admitted unowned
  | lock place =>
      simp only [advance, lock] at moved
      split at moved <;> cases moved
      next free => exact .latched (by simpa using free)
  | look place =>
      simp only [advance, look] at moved
      split at moved <;> cases moved
      next found => exact .hit found
      next missing => exact .missed missing
  | start place => cases moved
  | settle place outcome =>
      cases moved
      exact .settled place outcome
  | keep place outcome =>
      simp only [advance, keep] at moved
      split at moved
      next result =>
        split at moved <;> cases moved
        next keeps => exact .stored place keeps
        next passing => exact .notRetained place (by simpa using passing)
      next failure =>
        cases moved
        exact .failed place failure
  | unlock place outcome vacant =>
      cases moved
      exact .unlatched place outcome vacant
  | enter place outcome =>
      cases storage with
      | table results =>
          cases moved
          exact .passed place outcome rfl (by simp)
      | slots map =>
          simp only [advance, enter] at moved
          split at moved <;> cases moved
          next free => exact .entered place outcome rfl (by simpa using free)
  | inspect place outcome =>
      cases storage with
      | table results =>
          cases moved
          exact .passed place outcome rfl (by simp)
      | slots map =>
          cases moved
          cases seen : map.isUnshared key place with
          | true => exact .unshared outcome rfl seen
          | false => exact .shared outcome rfl seen
  | clear place outcome =>
      cases storage with
      | table results =>
          cases moved
          exact .passed place outcome rfl (by simp)
      | slots map =>
          simp only [advance, clear] at moved
          split at moved
          · cases moved
          · split at moved <;> cases moved
            next empty => exact .removed outcome rfl (by simpa using empty)
            next filled => exact .spared outcome rfl (by simpa using filled)
  | leave place outcome =>
      cases storage with
      | table results =>
          cases moved
          exact .passed place outcome rfl (by simp)
      | slots map =>
          cases moved
          exact .left place outcome rfl
  | drop place outcome => cases storage <;> cases moved

/-- A stage at which no latch is held changes none, unless it takes one, and no stored result. -/
theorem alike_of_go {storage after : Storage} {retention : Retention} {thread : Thread}
    {key : Value} {stage next : Stage} {event : Option Event} (free : stage.latched? = none)
    (unlocking : ∀ place, stage ≠ .lock place)
    (moved : storage.advance retention thread key stage = .go after event next) :
    storage.Alike after ∧ next.latched? = none := by
  cases goes_of_go moved with
  | sought found =>
      cases storage with
      | table results =>
          cases found
          exact ⟨.refl _, rfl⟩
      | slots map =>
          simp only [seek] at found
          split at found <;> cases found
          exact ⟨.of_slots (map.slot_obtain key), rfl⟩
  | refused | admitted | passed | unshared | shared | spared => exact ⟨.refl _, rfl⟩
  | latched => exact absurd rfl (unlocking _)
  | hit | missed | settled | stored | notRetained | failed | unlatched => cases free
  | @entered map _ _ here | @left map _ _ here =>
      subst here
      exact ⟨.of_slots fun _ => ⟨rfl, rfl⟩, rfl⟩
  | @removed map _ _ here =>
      subst here
      exact ⟨.of_slots (by simp [map.slot_remove key]), rfl⟩

/-- A stage keeps the policy of a storage. -/
theorem policy_of_go {storage after : Storage} {retention : Retention} {thread : Thread}
    {key : Value} {stage next : Stage} {event : Option Event}
    (moved : storage.advance retention thread key stage = .go after event next) :
    after.policy = storage.policy := by
  cases goes_of_go moved with
  | refused | admitted | hit | missed | notRetained | failed | passed | unshared | shared | spared =>
      rfl
  | latched | settled | unlatched => exact policy_modifyLatch ..
  | stored => exact policy_insert ..
  | sought | entered | removed | left => exact (alike_of_go rfl (by simp) moved).1.policy

/-- Only the stages at which computing starts and at which the application ends lead elsewhere than
to a stage. -/
theorem advance_eq_go (storage : Storage) (retention : Retention) (thread : Thread) (key : Value)
    {stage : Stage} (unstarted : ∀ place, stage ≠ .start place)
    (unfinished : ∀ place outcome, stage ≠ .drop place outcome) :
    storage.advance retention thread key stage = .wait ∨
      ∃ after event next, storage.advance retention thread key stage = .go after event next := by
  have split_go : ∀ {test : Prop} [Decidable test] {storage event next},
      (if test then Move.wait else .go storage event next) = .wait ∨
        ∃ after reported following,
          (if test then Move.wait else .go storage event next) = .go after reported following := by
    intro test _ storage event next
    by_cases holds : test
    · exact .inl (if_pos holds)
    · exact .inr ⟨_, _, _, if_neg holds⟩
  cases stage with
  | seek =>
      cases storage with
      | table results => exact .inr ⟨_, _, _, rfl⟩
      | slots map => exact split_go
  | check place => right; simp only [advance, check]; split <;> exact ⟨_, _, _, rfl⟩
  | lock place => exact split_go
  | look place => right; simp only [advance, look]; split <;> exact ⟨_, _, _, rfl⟩
  | start place => exact absurd rfl (unstarted place)
  | settle place outcome | unlock place outcome vacant => exact .inr ⟨_, _, _, rfl⟩
  | keep place outcome =>
      right
      simp only [advance, keep]
      split
      · split <;> exact ⟨_, _, _, rfl⟩
      · exact ⟨_, _, _, rfl⟩
  | enter place outcome =>
      cases storage with
      | table results => exact .inr ⟨_, _, _, rfl⟩
      | slots map => exact split_go
  | inspect place outcome | leave place outcome =>
      cases storage <;> exact .inr ⟨_, _, _, rfl⟩
  | clear place outcome =>
      cases storage with
      | table results => exact .inr ⟨_, _, _, rfl⟩
      | slots map =>
          simp only [advance, clear]
          split
          · exact .inl rfl
          · right
            split <;> exact ⟨_, _, _, rfl⟩
  | drop place outcome => exact absurd rfl (unfinished place outcome)

/-- Computing starts at one stage, where the thread becomes the owner. -/
theorem eq_start_of_compute {storage after : Storage} {retention : Retention} {thread : Thread}
    {key : Value} {stage : Stage} {place : Nat}
    (moved : storage.advance retention thread key stage = .compute after place) :
    stage = .start place ∧ after = storage.modifyLatch place ({ · with owner := some thread }) := by
  by_cases started : ∃ other, stage = .start other
  · obtain ⟨other, rfl⟩ := started
    simp only [advance, start, Move.compute.injEq] at moved
    obtain ⟨rfl, rfl⟩ := moved
    exact ⟨rfl, rfl⟩
  · by_cases finished : ∃ other outcome, stage = .drop other outcome
    · obtain ⟨other, outcome, rfl⟩ := finished
      cases storage <;> simp [advance, drop] at moved
    · push Not at started finished
      rcases storage.advance_eq_go retention thread key started finished with
        waits | ⟨_, _, _, goes⟩
      · simp [waits] at moved
      · simp [goes] at moved

/-- An application ends at one stage, with the outcome that it has there. -/
theorem eq_drop_of_finish {storage after : Storage} {retention : Retention} {thread : Thread}
    {key : Value} {stage : Stage} {outcome : Outcome}
    (moved : storage.advance retention thread key stage = .finish after outcome) :
    ∃ place, stage = .drop place outcome ∧ storage.drop place outcome = .finish after outcome := by
  by_cases finished : ∃ place reached, stage = .drop place reached
  · obtain ⟨place, reached, rfl⟩ := finished
    have same : reached = outcome := by
      cases storage <;> simp only [advance, drop, Move.finish.injEq] at moved <;> exact moved.2
    subst same
    exact ⟨place, rfl, moved⟩
  · by_cases started : ∃ place, stage = .start place
    · obtain ⟨place, rfl⟩ := started
      cases moved
    · push Not at started finished
      rcases storage.advance_eq_go retention thread key started finished with
        waits | ⟨_, _, _, goes⟩
      · simp [waits] at moved
      · simp [goes] at moved

/-- The end of an application gives up a reference at most. -/
theorem alike_of_drop {storage after : Storage} {place : Nat} {outcome : Outcome}
    (moved : storage.drop place outcome = .finish after outcome) : storage.Alike after := by
  cases storage with
  | table results =>
      simp only [drop, Move.finish.injEq, and_true] at moved
      exact moved ▸ .refl _
  | slots map =>
      simp only [drop, Move.finish.injEq, and_true] at moved
      exact moved ▸ .of_slots fun other => map.slot_modify_references place other (· - 1)

/-- Counting changes references and nothing else. -/
theorem alike_of_tally {storage after : Storage} {counting next : Counting}
    (moved : storage.count counting = .go after next) : storage.Alike after := by
  cases counting with
  | collect traversal =>
      cases storage with
      | table results =>
          simp only [count] at moved
          split at moved <;> cases moved
      | slots map =>
          simp only [count] at moved
          split at moved
          · cases moved
          · simp only [CountMove.go.injEq] at moved
            obtain ⟨rfl, -⟩ := moved
            exact .of_slots fun place => map.slot_foldl_refer _ place
  | visit ahead behind found =>
      cases ahead with
      | nil =>
          simp only [count, CountMove.go.injEq] at moved
          exact moved.1 ▸ .refl _
      | cons place ahead =>
          simp only [count] at moved
          split at moved
          · cases moved
          · simp only [CountMove.go.injEq] at moved
            exact moved.1 ▸ .refl _
  | drop held found =>
      cases held with
      | nil => cases moved
      | cons place held =>
          cases storage with
          | table results => cases moved
          | slots map =>
              simp only [count, CountMove.go.injEq] at moved
              exact moved.1 ▸ .of_slots fun other => map.slot_modify_references place other (· - 1)

end Storage

end FunctionValues
