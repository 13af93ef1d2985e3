import FunctionValues.Computation

/-!
# The log

What running functions leaves behind to be read: the calls of functions that carry a label, and the
events of caches. An entry of a cache also says which cache it is about and for which argument, and
the log holds when the function behind a cache starts and ends; neither is shown.
-/

namespace FunctionValues

/-- How much an event matters. -/
inductive Level where
  | trace
  | debug
  deriving DecidableEq

/-- The name a level is reported by. -/
def Level.name : Level → String
  | trace => "TRACE"
  | debug => "DEBUG"

/-- What happens at a cache. -/
inductive Event where
  | created (policy : Policy)
  | hit (policy : Policy)
  | miss (policy : Policy)
  /-- A result was stored. A cache with a single lock says how many it holds now. -/
  | stored (entries : Option Nat)
  | notRetained
  /-- The slot of a failed computation was removed, which leaves so many. -/
  | slotRemoved (slots : Nat)
  | reentryRejected (policy : Policy)
  deriving DecidableEq

namespace Event

/-- The level of an event. -/
def level : Event → Level
  | notRetained | reentryRejected _ => .debug
  | _ => .trace

/-- The text of an event. -/
def message : Event → String
  | created _ => "creating memoization cache"
  | hit _ => "memoization cache hit"
  | miss _ => "memoization cache miss"
  | stored _ => "memoization result stored"
  | notRetained => "memoization result not retained"
  | slotRemoved _ => "empty memoization slot removed"
  | reentryRejected _ => "memoization re-entry rejected"

/-- The fields that an event has beside its text. -/
def details : Event → List (String × String)
  | created policy | hit policy | miss policy => [("policy", policy.name)]
  | stored (some entries) => [("entries", toString entries)]
  | stored none | notRetained => []
  | slotRemoved slots => [("slots", toString slots)]
  | reentryRejected policy => [("message", policy.reentryMessage)]

/-- All the fields of an event in order, its text first. -/
def fields (event : Event) : List (String × String) :=
  ("message", event.message) :: event.details

/-- The text under which an event is counted: its last field that is a message. -/
def headline : Event → String
  | reentryRejected policy => policy.reentryMessage
  | event => event.message

end Event

/-- One thing that happened. -/
inductive Entry where
  /-- A function with a label was called. -/
  | call (label : String) (arguments : List Value)
  /-- Something happened at a cache, in an application to `key` if there is one. -/
  | event (cache : Nat) (key : Option Value) (event : Event)
  /-- The function behind a cache started to run for an argument. -/
  | started (cache : Nat) (key : Value)
  /-- The function behind a cache came to its end for an argument. -/
  | ended (cache : Nat) (key : Value) (outcome : Outcome)

namespace Entry

/-- Whether an entry is shown to a reader of the log. -/
def isShown : Entry → Bool
  | call .. | event .. => true
  | started .. | ended .. => false

/-- How often each entry occurs, by a text that identifies it; entries without one do not count. -/
def tally (label : Entry → Option String) (entries : List Entry) : List (String × Nat) :=
  let count (counts : List (String × Nat)) (text : String) :=
    match counts.lookup text with
    | none => counts ++ [(text, 1)]
    | some _ => counts.map fun (other, times) =>
      (other, if other == text then times + 1 else times)
  (entries.filterMap label).foldl count []

end Entry

end FunctionValues
