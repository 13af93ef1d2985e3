import FunctionValues.Cache.Latch
import FunctionValues.Computation

/-!
# Slot maps

A map from arguments to slots, each with a latch of its own and room for one result, which is how the
per-key policy keeps results. The lock of the map is held only to find, add or remove a slot. Every
slot counts who refers to it, so that a slot is removed only when nobody else can be waiting for it.
-/

namespace FunctionValues

/-- Room for the result of one argument. -/
structure Slot where
  latch : Latch := {}
  /-- The stored result. -/
  content : Option Result := none
  /-- How many refer to the slot: the map, and everyone who has obtained it from there. -/
  references : Nat := 0
  deriving Inhabited

/-- Slots by argument. -/
structure SlotMap where
  /-- The thread that holds the lock of the map. -/
  holder : Option Thread := none
  /-- The number of the slot of each argument in the map. -/
  index : List (Value × Nat) := []
  /-- Every slot there has been, also those that the map has given up. -/
  slots : List Slot := []
  deriving Inhabited

namespace SlotMap

/-- The slot of a number. -/
def slot (map : SlotMap) (number : Nat) : Slot :=
  map.slots.getD number {}

/-- Change the slot of a number. -/
def modify (map : SlotMap) (number : Nat) (change : Slot → Slot) : SlotMap :=
  { map with slots := map.slots.modify number change }

/-- The number of the slot of an argument. -/
def find? (map : SlotMap) (key : Value) : Option Nat :=
  (map.index.find? (·.1.same key)).map (·.2)

/-- Take one more reference to a slot. -/
def refer (map : SlotMap) (number : Nat) : SlotMap :=
  map.modify number fun slot => { slot with references := slot.references + 1 }

/-- Give up a reference to a slot. -/
def release (map : SlotMap) (number : Nat) : SlotMap :=
  map.modify number fun slot => { slot with references := slot.references - 1 }

/-- Obtain the slot of an argument with a reference to it. An argument that has no slot gets an
empty one, which the map refers to as well. -/
def obtain (map : SlotMap) (key : Value) : Nat × SlotMap :=
  match map.find? key with
  | some number => (number, map.refer number)
  | none =>
    (map.slots.length,
      { map with
        index := map.index ++ [(key, map.slots.length)]
        slots := map.slots ++ [{ references := 2 }] })

/-- Whether the map still leads from an argument to a slot that, beside the map, only one other
refers to. -/
def isUnshared (map : SlotMap) (key : Value) (number : Nat) : Bool :=
  (map.slot number).references == 2 && map.find? key == some number

/-- Take an argument out of the map, which gives up its reference to the slot. -/
def remove (map : SlotMap) (key : Value) : SlotMap :=
  match map.find? key with
  | none => map
  | some number =>
    { map.release number with index := map.index.eraseP (·.1.same key) }

/-- The number of arguments in the map whose slot holds a result. -/
def stored (map : SlotMap) : Nat :=
  map.index.countP fun entry => (map.slot entry.2).content.isSome

@[simp]
theorem find?_modify (map : SlotMap) (number : Nat) (change : Slot → Slot) (key : Value) :
    (map.modify number change).find? key = map.find? key :=
  rfl

theorem slot_modify (map : SlotMap) (number other : Nat) (change : Slot → Slot)
    (present : number < map.slots.length) :
    (map.modify number change).slot other =
      if number = other then change (map.slot number) else map.slot other := by
  simp only [slot, modify, List.getD_eq_getElem?_getD, List.getElem?_modify]
  split
  · subst_vars
    simp [present]
  · simp

/-- The map leads from an argument to the slot that was obtained for it. -/
theorem find?_obtain (map : SlotMap) (key : Value) :
    (map.obtain key).2.find? key = some (map.obtain key).1 := by
  unfold obtain
  split
  next number found => simpa [refer] using found
  next missing =>
    simp only [find?, Option.map_eq_none_iff] at missing
    simp [find?, List.find?_append, missing]

end SlotMap

end FunctionValues
