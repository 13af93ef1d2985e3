/-!
# Latches

A lock that remembers, beside the thread that holds it, the thread that computes under it. The two
differ while the holder only looks something up.
-/

namespace FunctionValues

/-- The number of a thread. -/
abbrev Thread := Nat

/-- A lock, together with a record of who computes under it. -/
structure Latch where
  /-- The thread that holds the lock. -/
  holder : Option Thread := none
  /-- The thread that computes while it holds the lock. -/
  owner : Option Thread := none
  deriving DecidableEq, Inhabited

end FunctionValues
