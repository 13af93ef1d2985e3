/-!
# Memoization policies

How a memoized function guards its cache, and which results it keeps.
-/

namespace FunctionValues

/-- How a memoized function serialises the applications of it. -/
inductive Policy where
  /-- One lock for the whole cache, held while a result is looked up, computed and stored. -/
  | global
  /-- One lock for each argument, so that different arguments are computed independently. -/
  | perKey
  deriving DecidableEq, Inhabited

namespace Policy

/-- The name a policy is reported by. -/
def name : Policy → String
  | global => "Global"
  | perKey => "PerKey"

/-- The policy of a function that is memoized without naming one. -/
def default : Policy := global

/-- What a caller is told who would wait for a computation of its own. -/
def reentryMessage : Policy → String
  | global =>
      "memoized function re-entered while computing; use MemoizationPolicy::PerKey for recursion"
  | perKey => "memoized function re-entered for the argument it is computing"

end Policy

/-- Which results a cache keeps. -/
inductive Retention where
  /-- Every result. -/
  | all
  /-- Only results that report success. -/
  | successes
  deriving DecidableEq, Inhabited

end FunctionValues
