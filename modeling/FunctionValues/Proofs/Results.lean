import FunctionValues.Proofs.Stages

/-!
# Keeping results

Two storages agree when they hold the same results, wherever they keep them. The stages of an
application keep the results of a storage, apart from the one that stores.
-/

namespace FunctionValues

namespace Storage

/-- Two storages hold the same results. -/
structure Agrees (storage after : Storage) : Prop where
  stored (key) : after.stored? key = storage.stored? key
  size : after.size = storage.size

namespace Agrees

variable {storage middle after : Storage} {map : SlotMap} {key : Value} {place : Nat}

theorem refl (storage : Storage) : storage.Agrees storage :=
  ⟨fun _ => rfl, rfl⟩

theorem trans (first : storage.Agrees middle) (second : middle.Agrees after) :
    storage.Agrees after :=
  ⟨fun key => (second.stored key).trans (first.stored key), second.size.trans first.size⟩

theorem symm (agrees : storage.Agrees after) : after.Agrees storage :=
  ⟨fun key => (agrees.stored key).symm, agrees.size.symm⟩

theorem of_index {other : SlotMap} (index : other.index = map.index)
    (content : ∀ place, (other.slot place).content = (map.slot place).content) :
    (slots map).Agrees (slots other) := by
  refine ⟨stored?_of_index index content, ?_⟩
  simp only [Storage.size, SlotMap.stored, index, content]

theorem of_modifyLatch (storage : Storage) (place : Nat) (change : Latch → Latch) :
    storage.Agrees (storage.modifyLatch place change) := by
  cases storage with
  | table results => exact ⟨fun _ => rfl, rfl⟩
  | slots map =>
      have content : ∀ other, ((map.modify place fun slot =>
          { slot with latch := change slot.latch }).slot other).content =
          (map.slot other).content :=
        fun other => (slots map).find?_modifyLatch place other change .unit
      refine of_index ?_ content
      rfl

theorem of_references (map : SlotMap) (place : Nat) (count : Nat → Nat) :
    (slots map).Agrees (slots (map.modify place fun slot =>
      { slot with references := count slot.references })) := by
  refine of_index ?_ fun other => (map.slot_modify_references place other count).2
  rfl

/-- An argument that gets a slot has no result yet. -/
theorem of_obtain (map : SlotMap) (key : Value) : (slots map).Agrees (slots (map.obtain key).2) := by
  cases found : map.find? key with
  | some place =>
      rw [show (map.obtain key).2 = map.refer place by simp [SlotMap.obtain, found]]
      exact of_references map place (· + 1)
  | none =>
      have content := fun place => (map.slot_obtain key place).2
      have empty : (map.slot map.slots.length).content = none := by
        rw [map.slot_of_length_le (Nat.le_refl _)]
      have obtained : (map.obtain key).1 = map.slots.length := by
        simp [SlotMap.obtain, found]
      constructor
      · intro other
        simp only [stored?]
        by_cases equal : key.same other = true
        · rw [← map.find?_congr equal, found, ← (map.obtain key).2.find?_congr equal,
            map.find?_obtain, Option.bind_some, content, obtained, empty]
          rfl
        · simp only [map.find?_obtain_other equal, content]
      · have index : (map.obtain key).2.index = map.index ++ [(key, map.slots.length)] := by
          simp [SlotMap.obtain, found]
        simp only [Storage.size, SlotMap.stored, index, content, List.countP_append]
        simp [empty]

/-- Removing an argument without a result removes nothing that is stored. -/
theorem of_remove (distinct : map.Distinct) (found : map.find? key = some place)
    (empty : (map.slot place).content = none) : (slots map).Agrees (slots (map.remove key)) := by
  have content := fun place => (map.slot_remove key place).2
  constructor
  · intro other
    simp only [stored?]
    by_cases equal : key.same other = true
    · rw [SlotMap.find?_remove_of_same distinct found equal, ← map.find?_congr equal, found,
        Option.bind_some, empty]
      rfl
    · simp only [map.find?_remove_of_ne equal, content]
  · obtain ⟨stored, front, back, split, erased, -⟩ := SlotMap.split_index found
    simp only [Storage.size, SlotMap.stored, SlotMap.index_remove, content, erased]
    rw [split, List.countP_append, List.countP_append, List.countP_cons]
    simp [empty]

/-- Counting keeps all results. -/
theorem of_tally {counting next : Counting} (moved : storage.count counting = .go after next) :
    storage.Agrees after := by
  cases counting with
  | collect traversal =>
      cases storage with
      | table results =>
          simp only [count] at moved
          split at moved <;> cases moved
      | slots map =>
          simp only [count] at moved
          split at moved
          · cases moved
          · cases moved
            refine of_index ?_ fun place => (map.slot_foldl_refer _ place).2
            exact (map.foldl_refer _).1
  | visit ahead behind found =>
      cases ahead with
      | nil =>
          cases moved
          exact .refl _
      | cons place ahead =>
          simp only [count] at moved
          split at moved <;> cases moved
          exact .refl _
  | drop held found =>
      cases held with
      | nil => cases moved
      | cons place held =>
          cases storage with
          | table results => cases moved
          | slots map =>
              cases moved
              exact of_references map place (· - 1)

theorem of_drop {outcome : Outcome} (moved : storage.drop place outcome = .finish after outcome) :
    storage.Agrees after := by
  cases storage with
  | table results =>
      cases moved
      exact .refl _
  | slots map =>
      cases moved
      exact of_references map place (· - 1)

end Agrees

end Storage

end FunctionValues
