import FunctionValues.Cache.SlotMap
import FunctionValues.Cache.Table

/-!
# Caches

A cache keeps results of a function in a table or in a slot map, as its policy says. Where the
result of an argument is kept is called its place: the number of its slot, while a table is one
place for all arguments. What both storages do alike is stated for places.
-/

namespace FunctionValues

/-- The state of a cache. -/
inductive Storage where
  | table (table : Table)
  | slots (map : SlotMap)
  deriving Inhabited

namespace Storage

/-- The storage of a new cache. -/
def empty : Policy → Storage
  | .global => table {}
  | .perKey => slots {}

/-- The policy that a storage serves. -/
def policy : Storage → Policy
  | table _ => .global
  | slots _ => .perKey

/-- The latch of a place. -/
def latch (storage : Storage) (place : Nat) : Latch :=
  match storage with
  | table results => results.latch
  | slots map => (map.slot place).latch

/-- Change the latch of a place. -/
def modifyLatch (storage : Storage) (place : Nat) (change : Latch → Latch) : Storage :=
  match storage with
  | table results => table { results with latch := change results.latch }
  | slots map => slots (map.modify place fun slot => { slot with latch := change slot.latch })

/-- The result that a place holds for an argument. -/
def find? (storage : Storage) (place : Nat) (key : Value) : Option Result :=
  match storage with
  | table results => results.find? key
  | slots map => (map.slot place).content

/-- Store the result of an argument at its place. -/
def insert (storage : Storage) (place : Nat) (key : Value) (result : Result) : Storage :=
  match storage with
  | table results => table (results.insert key result)
  | slots map => slots (map.modify place fun slot => { slot with content := some result })

/-- The number of entries that storing a result reports, which only a table counts. -/
def reported : Storage → Option Nat
  | table results => some results.entries.length
  | slots _ => none

/-- The number of stored results. -/
def size : Storage → Nat
  | table results => results.entries.length
  | slots map => map.stored

end Storage

/-- A cache: the function whose results it keeps, which of them, and those that it has. -/
structure Cache where
  underlying : Callable
  retention : Retention
  storage : Storage
  deriving Inhabited

end FunctionValues
