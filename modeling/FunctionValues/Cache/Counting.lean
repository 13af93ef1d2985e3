import FunctionValues.Cache.Storage

/-!
# Counting results

How a thread counts the results of a cache while others apply its function. A table is counted under
its latch at once. The slots of a map are collected under its lock, with a reference to each, and
then visited one by one, so that the count is put together over many moments. A map has no order, so
every count comes with one of its own.
-/

namespace FunctionValues

/-- An order in which the slots of a map are visited: by default, the one in which the map got
them. -/
structure Traversal where
  arrange : List Nat → List Nat := id
  /-- Every slot is visited, and none twice. -/
  perm (places : List Nat) : (arrange places).Perm places := by simp

/-- How far counting has come. -/
inductive Counting where
  | collect (traversal : Traversal)
  /-- Slots yet to be visited, slots that were, and how many of those held a result. -/
  | visit (ahead behind : List Nat) (count : Nat)
  /-- Slots to which a reference is still held. -/
  | drop (held : List Nat) (count : Nat)

/-- What a step of counting does: wait, go on, or end with the number. -/
inductive CountMove where
  | wait
  | go (storage : Storage) (counting : Counting)
  | finish (count : Nat)

namespace Storage

/-- The step of counting results. -/
def count (storage : Storage) : Counting → CountMove
  | .collect traversal =>
    match storage with
    | table results =>
      if results.latch.holder.isSome then .wait else .finish results.entries.length
    | slots map =>
      if map.holder.isSome then .wait
      else
        let numbers := traversal.arrange (map.index.map (·.2))
        .go (slots (numbers.foldl SlotMap.refer map)) (.visit numbers [] 0)
  | .visit [] behind count => .go storage (.drop behind.reverse count)
  | .visit (place :: ahead) behind count =>
    if (storage.latch place).holder.isSome then .wait
    else
      let found :=
        match storage with
        | table _ => false
        | slots map => (map.slot place).content.isSome
      .go storage (.visit ahead (place :: behind) (if found then count + 1 else count))
  | .drop [] count => .finish count
  | .drop (place :: held) count =>
    match storage with
    | table _ => .finish count
    | slots map => .go (slots (map.release place)) (.drop held count)

end Storage

end FunctionValues
