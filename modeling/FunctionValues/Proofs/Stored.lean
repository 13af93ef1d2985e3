import FunctionValues.Cache.Application
import Mathlib.Data.List.Nodup
import Mathlib.Data.List.Pairwise
import Mathlib.Tactic.ByContra

/-!
# Stored results

Which result a storage holds for an argument, wherever it keeps it, and how the operations of slot
maps and tables change that. A slot map leads from equal arguments to one slot, and the slots of
different arguments are different.
-/

namespace FunctionValues

namespace SlotMap

/-- No two entries of the index are for the same argument. -/
def Distinct (map : SlotMap) : Prop :=
  map.index.Pairwise fun left right => ¬left.1.same right.1 = true

private local instance : Std.Symm fun left right : Value × Nat =>
    ¬left.1.same right.1 = true :=
  ⟨fun _ _ apart equal => apart (Value.same_symm equal)⟩

/-- The places that the index leads to. -/
def places (map : SlotMap) : List Nat :=
  map.index.map (·.2)

/-! ## Slots -/

theorem slot_of_length_le (map : SlotMap) {place : Nat} (absent : map.slots.length ≤ place) :
    map.slot place = {} := by
  simp [slot, List.getD_eq_getElem?_getD, List.getElem?_eq_none absent]

theorem slot_modify_self (map : SlotMap) {place : Nat} (change : Slot → Slot)
    (present : place < map.slots.length) :
    (map.modify place change).slot place = change (map.slot place) := by
  simp [slot_modify map place place change present]

theorem slot_modify_of_ne (map : SlotMap) {place other : Nat} (change : Slot → Slot)
    (different : place ≠ other) : (map.modify place change).slot other = map.slot other := by
  simp [slot, modify, List.getD_eq_getElem?_getD, different]

/-- A change of references leaves the latch and the content of every place as they are. -/
theorem slot_modify_references (map : SlotMap) (number place : Nat) (count : Nat → Nat) :
    ((map.modify number fun slot => { slot with references := count slot.references }).slot
          place).latch = (map.slot place).latch ∧
      ((map.modify number fun slot => { slot with references := count slot.references }).slot
          place).content = (map.slot place).content := by
  by_cases here : number = place
  · subst here
    by_cases present : number < map.slots.length
    · simp [map.slot_modify_self _ present]
    · rw [slot_of_length_le _ (by simpa [modify] using present),
        slot_of_length_le map (Nat.le_of_not_lt present)]
      simp
  · simp [map.slot_modify_of_ne _ here]

/-- Referring to slots leaves the latch and the content of every place as they are. -/
theorem slot_foldl_refer (map : SlotMap) (numbers : List Nat) (place : Nat) :
    ((numbers.foldl refer map).slot place).latch = (map.slot place).latch ∧
      ((numbers.foldl refer map).slot place).content = (map.slot place).content := by
  induction numbers generalizing map with
  | nil => exact ⟨rfl, rfl⟩
  | cons number numbers induction =>
      have rest := induction (map.refer number)
      have first := map.slot_modify_references number place (· + 1)
      exact ⟨rest.1.trans first.1, rest.2.trans first.2⟩

@[simp]
theorem index_modify (map : SlotMap) (place : Nat) (change : Slot → Slot) :
    (map.modify place change).index = map.index :=
  rfl

@[simp]
theorem length_modify (map : SlotMap) (place : Nat) (change : Slot → Slot) :
    (map.modify place change).slots.length = map.slots.length := by
  simp [modify]

/-- Referring to slots changes nothing but references. -/
theorem foldl_refer (map : SlotMap) (numbers : List Nat) :
    (numbers.foldl refer map).index = map.index ∧
      (numbers.foldl refer map).holder = map.holder ∧
      (numbers.foldl refer map).slots.length = map.slots.length := by
  induction numbers generalizing map with
  | nil => exact ⟨rfl, rfl, rfl⟩
  | cons number numbers induction =>
      obtain ⟨index, holder, length⟩ := induction (map.refer number)
      exact ⟨index, holder, length.trans (by simp [refer])⟩

theorem modify_modify (map : SlotMap) (place : Nat) (first second : Slot → Slot) :
    (map.modify place first).modify place second = map.modify place (second ∘ first) := by
  simp [modify, List.modify_modify_eq]

/-- A change that leaves a slot as it is leaves the map as it is. -/
theorem modify_eq_self (map : SlotMap) {place : Nat} {change : Slot → Slot}
    (same : change (map.slot place) = map.slot place) : map.modify place change = map := by
  have slots : map.slots.modify place change = map.slots := by
    apply List.ext_getElem?
    intro position
    rw [List.getElem?_modify]
    by_cases here : place = position
    · subst here
      cases found : map.slots[place]? with
      | none => rfl
      | some slot =>
          have value : map.slot place = slot := by
            simp [SlotMap.slot, List.getD_eq_getElem?_getD, found]
          simp [← value, same]
    · simp [here]
  simp [modify, slots]

/-! ## The index -/

theorem find?_congr (map : SlotMap) {key other : Value} (equal : key.same other = true) :
    map.find? key = map.find? other := by
  have tests : (fun entry : Value × Nat => entry.1.same key) =
      fun entry => entry.1.same other := by
    funext entry
    rw [Bool.eq_iff_iff]
    exact ⟨fun found => Value.same_trans found equal,
      fun found => Value.same_trans found (Value.same_symm equal)⟩
  simp only [find?, tests]

theorem mem_of_find? {map : SlotMap} {key : Value} {place : Nat}
    (found : map.find? key = some place) :
    ∃ stored, (stored, place) ∈ map.index ∧ stored.same key = true := by
  obtain ⟨entry, present, rfl⟩ := Option.map_eq_some_iff.mp found
  exact ⟨entry.1, List.mem_of_find?_eq_some present, by simpa using List.find?_some present⟩

theorem find?_eq_none_iff (map : SlotMap) (key : Value) :
    map.find? key = none ↔ ∀ entry ∈ map.index, ¬entry.1.same key = true := by
  simp [find?]

theorem find?_mem_places {map : SlotMap} {key : Value} {place : Nat}
    (found : map.find? key = some place) : place ∈ map.places := by
  obtain ⟨stored, present, -⟩ := mem_of_find? found
  exact List.mem_map_of_mem (f := (·.2)) present

/-- Different entries of the index lead to different places. -/
theorem same_of_find? {map : SlotMap} (nodup : map.places.Nodup) {key other : Value} {place : Nat}
    (found : map.find? key = some place) (reached : map.find? other = some place) :
    key.same other = true := by
  obtain ⟨stored, present, equal⟩ := mem_of_find? found
  obtain ⟨value, member, same⟩ := mem_of_find? reached
  have entries := List.inj_on_of_nodup_map nodup present member rfl
  obtain rfl := (Prod.mk.inj entries).1
  exact Value.same_trans (Value.same_symm equal) same

/-! ## Obtaining a slot -/

@[simp]
theorem holder_obtain (map : SlotMap) (key : Value) : (map.obtain key).2.holder = map.holder := by
  unfold obtain
  split <;> rfl

theorem find?_obtain_other (map : SlotMap) {key other : Value}
    (different : ¬key.same other = true) :
    (map.obtain key).2.find? other = map.find? other := by
  unfold obtain
  split
  · simp [refer]
  · simp [find?, List.find?_append, different]

/-- An argument that has a slot keeps it. -/
theorem find?_obtain_of_some (map : SlotMap) (key : Value) {other : Value} {place : Nat}
    (found : map.find? other = some place) : (map.obtain key).2.find? other = some place := by
  unfold obtain
  split
  next => exact found
  next missing =>
    have different : ¬key.same other = true := by
      intro equal
      rw [map.find?_congr equal, found] at missing
      cases missing
    have kept := map.find?_obtain_other different
    simp only [obtain, missing] at kept
    rw [kept, found]

/-- Obtaining a slot leaves the latch and the content of every place as they are. -/
theorem slot_obtain (map : SlotMap) (key : Value) (place : Nat) :
    ((map.obtain key).2.slot place).latch = (map.slot place).latch ∧
      ((map.obtain key).2.slot place).content = (map.slot place).content := by
  unfold obtain
  split
  next number found => exact map.slot_modify_references number place (· + 1)
  next missing =>
    rcases Nat.lt_trichotomy place map.slots.length with before | here | after
    · simp [slot, List.getD_eq_getElem?_getD, List.getElem?_append_left before]
    · subst here
      simp [slot, List.getD_eq_getElem?_getD]
    · rw [slot_of_length_le map (Nat.le_of_lt after), slot_of_length_le]
      · simp
      · simpa [Nat.succ_le_iff] using after

/-- An argument that has no slot gets one behind all others. -/
theorem obtain_of_missing {map : SlotMap} {key : Value} (missing : map.find? key = none) :
    map.obtain key = (map.slots.length,
      { map with
        index := map.index ++ [(key, map.slots.length)]
        slots := map.slots ++ [{ references := 2 }] }) := by
  simp [obtain, missing]

theorem places_obtain {map : SlotMap} {key : Value} (missing : map.find? key = none) :
    (map.obtain key).2.places = map.places ++ [map.slots.length] := by
  simp [obtain_of_missing missing, places]

theorem length_obtain {map : SlotMap} {key : Value} (missing : map.find? key = none) :
    (map.obtain key).2.slots.length = map.slots.length + 1 := by
  simp [obtain_of_missing missing]

theorem references_obtain {map : SlotMap} {key : Value} (missing : map.find? key = none)
    (place : Nat) :
    ((map.obtain key).2.slot place).references =
      if place = map.slots.length then 2 else (map.slot place).references := by
  rw [obtain_of_missing missing]
  rcases Nat.lt_trichotomy place map.slots.length with before | here | after
  · simp [slot, List.getD_eq_getElem?_getD, List.getElem?_append_left before, Nat.ne_of_lt before]
  · simp [slot, List.getD_eq_getElem?_getD, here]
  · rw [slot_of_length_le, slot_of_length_le map (Nat.le_of_lt after),
      if_neg (Nat.ne_of_gt after)]
    simpa [Nat.succ_le_iff] using after

theorem Distinct.obtain {map : SlotMap} {key : Value} (distinct : map.Distinct)
    (missing : map.find? key = none) : (map.obtain key).2.Distinct := by
  rw [obtain_of_missing missing]
  simp only [Distinct, List.pairwise_append, List.pairwise_singleton, List.mem_singleton, true_and]
  refine ⟨distinct, ?_⟩
  rintro entry member _ rfl
  exact (find?_eq_none_iff map key).mp missing entry member

/-! ## Removing an argument -/

theorem index_remove (map : SlotMap) (key : Value) :
    (map.remove key).index = map.index.eraseP (·.1.same key) := by
  unfold remove
  split
  next missing =>
    rw [List.eraseP_of_forall_not]
    simpa [find?] using missing
  next => rfl

@[simp]
theorem holder_remove (map : SlotMap) (key : Value) : (map.remove key).holder = map.holder := by
  unfold remove
  split <;> rfl

@[simp]
theorem length_remove (map : SlotMap) (key : Value) :
    (map.remove key).slots.length = map.slots.length := by
  unfold remove
  split <;> simp [release]

theorem Distinct.remove {map : SlotMap} (distinct : map.Distinct) (key : Value) :
    (map.remove key).Distinct := by
  rw [Distinct, index_remove]
  exact distinct.sublist List.eraseP_sublist

private theorem find?_eraseP {index : List (Value × Nat)} {key other : Value}
    (different : ¬key.same other = true) :
    (index.eraseP (·.1.same key)).find? (·.1.same other) = index.find? (·.1.same other) := by
  induction index with
  | nil => rfl
  | cons entry entries induction =>
      by_cases erased : entry.1.same key = true
      · have unequal : ¬entry.1.same other = true := fun equal =>
          different (Value.same_trans (Value.same_symm erased) equal)
        simp [erased, unequal]
      · by_cases found : entry.1.same other = true
        · simp [erased, found]
        · simp [erased, found, induction]

/-- The entry of an argument splits the index. -/
theorem split_index {map : SlotMap} {key : Value} {place : Nat}
    (found : map.find? key = some place) :
    ∃ stored front back, map.index = front ++ (stored, place) :: back ∧
      map.index.eraseP (·.1.same key) = front ++ back ∧ stored.same key = true := by
  obtain ⟨stored, member, equal⟩ := mem_of_find? found
  obtain ⟨⟨other, reached⟩, front, back, before, same, split, erased⟩ :=
    List.exists_of_eraseP member (p := (·.1.same key)) equal
  have here : map.find? key = some reached := by
    simp only [find?, split]
    rw [List.find?_append, List.find?_eq_none.mpr (by simpa using before)]
    simp [same]
  rw [found, Option.some.injEq] at here
  subst here
  exact ⟨other, front, back, split, erased, same⟩

/-- An argument that is removed takes its place along. -/
theorem places_remove {map : SlotMap} {key : Value} {place : Nat}
    (found : map.find? key = some place) :
    ∃ front back, map.places = front ++ place :: back ∧
      (map.remove key).places = front ++ back := by
  obtain ⟨stored, front, back, split, erased, -⟩ := split_index found
  exact ⟨front.map (·.2), back.map (·.2), by simp [places, split],
    by simp [places, index_remove, erased]⟩

/-- An argument that was removed is not found. -/
theorem find?_remove_of_same {map : SlotMap} (distinct : map.Distinct) {key other : Value}
    {place : Nat} (found : map.find? key = some place) (equal : key.same other = true) :
    (map.remove key).find? other = none := by
  obtain ⟨stored, front, back, split, erased, same⟩ := split_index found
  rw [find?_eq_none_iff, index_remove, erased]
  rw [Distinct, split, List.pairwise_middle] at distinct
  · have apart := (List.pairwise_cons.mp distinct).1
    intro entry member reached
    exact apart entry member
      (Value.same_trans same (Value.same_trans equal (Value.same_symm reached)))
  · exact fun apart equal => apart (Value.same_symm equal)

theorem find?_remove_of_ne (map : SlotMap) {key other : Value}
    (different : ¬key.same other = true) :
    (map.remove key).find? other = map.find? other := by
  simp only [find?, index_remove, find?_eraseP different]

/-- Removing an argument leaves the latch and the content of every place as they are. -/
theorem slot_remove (map : SlotMap) (key : Value) (place : Nat) :
    ((map.remove key).slot place).latch = (map.slot place).latch ∧
      ((map.remove key).slot place).content = (map.slot place).content := by
  unfold remove
  split
  · simp
  next number found => exact map.slot_modify_references number place (· - 1)

/-! ## Counting -/

/-- A slot of the map that gets its first result makes one more. -/
theorem stored_modify_of_empty (map : SlotMap) {key : Value} {place : Nat} {result : Result}
    (nodup : map.places.Nodup) (bounded : ∀ place ∈ map.places, place < map.slots.length)
    (found : map.find? key = some place) (empty : (map.slot place).content = none) :
    (map.modify place fun slot => { slot with content := some result }).stored = map.stored + 1 := by
  obtain ⟨stored, front, back, split, -, -⟩ := split_index found
  have within := bounded place (find?_mem_places found)
  have apart : ∀ entry ∈ front ++ back, place ≠ entry.2 := by
    have entries : map.places = front.map (·.2) ++ place :: back.map (·.2) := by
      simp [places, split]
    rw [entries, List.nodup_middle, ← List.map_append, List.nodup_cons] at nodup
    rintro entry member rfl
    exact nodup.1 (List.mem_map_of_mem (f := (·.2)) member)
  have same : ∀ entries : List (Value × Nat), (∀ entry ∈ entries, place ≠ entry.2) →
      entries.countP (fun entry => ((map.modify place fun slot =>
        { slot with content := some result }).slot entry.2).content.isSome) =
        entries.countP fun entry => (map.slot entry.2).content.isSome := by
    intro entries different
    refine List.countP_congr fun entry member => ?_
    rw [map.slot_modify_of_ne _ (different entry member)]
  simp only [SlotMap.stored, index_modify]
  rw [split, List.countP_append, List.countP_append, List.countP_cons, List.countP_cons,
    same front fun entry member => apart entry (List.mem_append_left back member),
    same back fun entry member => apart entry (List.mem_append_right front member),
    map.slot_modify_self _ within]
  simp [empty]
  omega

end SlotMap

namespace Storage

/-- The result that is stored for an argument, wherever its place is. -/
def stored? (storage : Storage) (key : Value) : Option Result :=
  match storage with
  | table results => results.find? key
  | slots map => (map.find? key).bind fun place => (map.slot place).content

theorem stored?_congr (storage : Storage) {key other : Value} (equal : key.same other = true) :
    storage.stored? key = storage.stored? other := by
  cases storage with
  | table results =>
      have tests : (fun entry : Value × Result => entry.1.same key) =
          fun entry => entry.1.same other := by
        funext entry
        rw [Bool.eq_iff_iff]
        exact ⟨fun found => Value.same_trans found equal,
          fun found => Value.same_trans found (Value.same_symm equal)⟩
      simp only [stored?, Table.find?, tests]
  | slots map => simp only [stored?, map.find?_congr equal]

/-- What is stored for an argument depends on the index and on the contents of the slots. -/
theorem stored?_of_index {map after : SlotMap} (index : after.index = map.index)
    (content : ∀ place, (after.slot place).content = (map.slot place).content) (key : Value) :
    (slots after).stored? key = (slots map).stored? key := by
  simp only [stored?, SlotMap.find?, index, content]

end Storage

end FunctionValues
