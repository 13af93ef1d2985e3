import FunctionValues.Cache.Storage
import FunctionValues.Log

/-!
# Applying a memoized function

An application of a memoized function goes through stages, each of which is one indivisible section:
a look at the owner of a latch, the time under the lock of the slot map, taking or freeing a latch,
and so on. Threads interleave between stages.

1. Find the place of the argument (`seek`).
2. Refuse a caller who computes under the latch of that place already (`check`).
3. Take the latch, and give back the stored result if there is one (`lock`, `look`).
4. Otherwise become the owner and run the underlying function (`start`).
5. Give up ownership, store the result if it is to be kept, and free the latch
   (`settle`, `keep`, `unlock`).
6. A slot that was computed for and got no result is removed under the lock of the map, unless it
   is shared (`enter`, `inspect`, `clear`, `leave`).
7. Give up the reference to the slot (`drop`).
-/

namespace FunctionValues

/-- How far an application has come. -/
inductive Stage where
  | seek
  | check (place : Nat)
  | lock (place : Nat)
  | look (place : Nat)
  | start (place : Nat)
  | settle (place : Nat) (outcome : Outcome)
  | keep (place : Nat) (outcome : Outcome)
  /-- `vacant` says whether the place was computed for and got no result. -/
  | unlock (place : Nat) (outcome : Outcome) (vacant : Bool)
  | enter (place : Nat) (outcome : Outcome)
  | inspect (place : Nat) (outcome : Outcome)
  | clear (place : Nat) (outcome : Outcome)
  | leave (place : Nat) (outcome : Outcome)
  | drop (place : Nat) (outcome : Outcome)

/-- What a stage does. -/
inductive Move where
  /-- Nothing: a lock that it asks for is held. -/
  | wait
  /-- Go on to another stage. -/
  | go (storage : Storage) (event : Option Event) (stage : Stage)
  /-- Run the underlying function. -/
  | compute (storage : Storage) (place : Nat)
  /-- End the application. -/
  | finish (storage : Storage) (outcome : Outcome)

namespace Storage

/-- Find the place of an argument. -/
def seek (key : Value) : Storage → Move
  | table results => .go (table results) none (.check 0)
  | slots map =>
    if map.holder.isSome then .wait
    else
      let (place, map) := map.obtain key
      .go (slots map) none (.check place)

/-- Refuse a thread that would wait for itself. -/
def check (storage : Storage) (thread : Thread) (place : Nat) : Move :=
  if (storage.latch place).owner = some thread then
    .go storage (some (.reentryRejected storage.policy))
      (.drop place (.error (.reentered storage.policy)))
  else .go storage none (.lock place)

/-- Take the latch of a place. -/
def lock (storage : Storage) (thread : Thread) (place : Nat) : Move :=
  if (storage.latch place).holder.isSome then .wait
  else .go (storage.modifyLatch place ({ · with holder := some thread })) none (.look place)

/-- Look for a stored result. -/
def look (storage : Storage) (key : Value) (place : Nat) : Move :=
  match storage.find? place key with
  | some result => .go storage (some (.hit storage.policy)) (.unlock place (.ok result) false)
  | none => .go storage (some (.miss storage.policy)) (.start place)

/-- Become the owner of a place and run the underlying function. -/
def start (storage : Storage) (thread : Thread) (place : Nat) : Move :=
  .compute (storage.modifyLatch place ({ · with owner := some thread })) place

/-- Give up ownership. -/
def settle (storage : Storage) (place : Nat) (outcome : Outcome) : Move :=
  .go (storage.modifyLatch place ({ · with owner := none })) none (.keep place outcome)

/-- Store the result if it is to be kept. -/
def keep (storage : Storage) (retention : Retention) (key : Value) (place : Nat) :
    Outcome → Move
  | .ok result =>
    if retention.keeps result then
      let storage := storage.insert place key result
      .go storage (some (.stored storage.reported)) (.unlock place (.ok result) false)
    else .go storage (some .notRetained) (.unlock place (.ok result) true)
  | .error failure => .go storage none (.unlock place (.error failure) true)

/-- Free the latch of a place. -/
def unlock (storage : Storage) (place : Nat) (outcome : Outcome) (vacant : Bool) : Move :=
  .go (storage.modifyLatch place ({ · with holder := none })) none
    (if vacant then .enter place outcome else .drop place outcome)

/-- Take the lock of the slot map. A table has no slots to remove. -/
def enter (thread : Thread) (place : Nat) (outcome : Outcome) : Storage → Move
  | table results => .go (table results) none (.drop place outcome)
  | slots map =>
    if map.holder.isSome then .wait
    else .go (slots { map with holder := some thread }) none (.inspect place outcome)

/-- See whether the slot may be removed. -/
def inspect (key : Value) (place : Nat) (outcome : Outcome) : Storage → Move
  | table results => .go (table results) none (.drop place outcome)
  | slots map =>
    .go (slots map) none
      (if map.isUnshared key place then .clear place outcome else .leave place outcome)

/-- Remove the slot if it is empty, which is seen with its latch taken. -/
def clear (key : Value) (place : Nat) (outcome : Outcome) : Storage → Move
  | table results => .go (table results) none (.drop place outcome)
  | slots map =>
    if (map.slot place).latch.holder.isSome then .wait
    else if (map.slot place).content.isNone then
      let map := map.remove key
      .go (slots map) (some (.slotRemoved map.index.length)) (.leave place outcome)
    else .go (slots map) none (.leave place outcome)

/-- Free the lock of the slot map. -/
def leave (place : Nat) (outcome : Outcome) : Storage → Move
  | table results => .go (table results) none (.drop place outcome)
  | slots map => .go (slots { map with holder := none }) none (.drop place outcome)

/-- Give up the reference to the slot. -/
def drop (place : Nat) (outcome : Outcome) : Storage → Move
  | table results => .finish (table results) outcome
  | slots map => .finish (slots (map.release place)) outcome

/-- What the stage of an application does in a thread. -/
def advance (storage : Storage) (retention : Retention) (thread : Thread) (key : Value) :
    Stage → Move
  | .seek => storage.seek key
  | .check place => storage.check thread place
  | .lock place => storage.lock thread place
  | .look place => storage.look key place
  | .start place => storage.start thread place
  | .settle place outcome => storage.settle place outcome
  | .keep place outcome => storage.keep retention key place outcome
  | .unlock place outcome vacant => storage.unlock place outcome vacant
  | .enter place outcome => storage.enter thread place outcome
  | .inspect place outcome => storage.inspect key place outcome
  | .clear place outcome => storage.clear key place outcome
  | .leave place outcome => storage.leave place outcome
  | .drop place outcome => storage.drop place outcome

end Storage

end FunctionValues
