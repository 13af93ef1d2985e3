import FunctionValues.Proofs.Purity
import FunctionValues.Proofs.Stored
import Mathlib.Algebra.Order.Group.Multiset

/-!
# Courses of pure code

What pure code comes to by itself, as a relation between where a thread is and where it gets. An
application of the memoized function is one move of it: the function is refused inside of itself if
there is one lock for all arguments, gives back what was stored at the beginning, and otherwise what
its own course for the argument ends with. A course leaves deeds behind, whose order does not matter:
entries of the log and applications of the memoized function. It is determined by where it begins, so
the interleaving of threads has no part in it.
-/

namespace FunctionValues

/-- What an entry of the log says if the order of the entries is left out, and with it what depends
on the order: how many results were stored already, and which slots were removed. -/
def Entry.unordered? : Entry → Option Entry
  | event _ _ (.slotRemoved _) => none
  | event cache key (.stored _) => some (.event cache key (.stored none))
  | ended cache key outcome => some (.ended cache key outcome.anonymous)
  | entry => some entry

/-- Something that pure code does. -/
inductive Deed where
  | noted (entry : Entry)
  /-- The memoized function is applied and not refused. -/
  | applied (key : Value)

namespace Deed

/-- The deeds that entries of the log stand for. -/
def ofLog (entries : List Entry) : Multiset Deed :=
  (entries.filterMap Entry.unordered?).map noted

@[simp]
theorem ofLog_nil : ofLog [] = 0 :=
  rfl

theorem ofLog_append (later earlier : List Entry) :
    ofLog (later ++ earlier) = ofLog later + ofLog earlier := by
  simp [ofLog]

/-- The argument that the memoized function is applied to. -/
def key? : Deed → Option Value
  | noted _ => none
  | applied key => some key

theorem key?_of_mem_ofLog {entries : List Entry} {deed : Deed} (member : deed ∈ ofLog entries) :
    deed.key? = none := by
  simp only [ofLog, Multiset.mem_coe, List.mem_map] at member
  obtain ⟨entry, -, rfl⟩ := member
  rfl

end Deed

/-- A memoized function that pure code applies: the functions of names, the names that are called,
and the cache with its number as it was at the beginning. -/
structure Setting where
  functions : List (String × FunctionValue)
  names : Set String
  number : Nat
  cache : Cache

namespace Setting

variable (setting : Setting)

def policy : Policy :=
  setting.cache.storage.policy

/-- What was stored at the beginning. -/
def held? (key : Value) : Option Result :=
  (setting.cache.storage.stored? key).map Result.anonymous

/-- Whether applications inside of the function itself are refused. -/
def refuses (inside : Bool) : Bool :=
  inside && setting.policy == .global

/-- The functions with these names, the function behind the cache and what was stored are pure. -/
structure IsPure : Prop where
  named {name : String} {function : FunctionValue} (known : name ∈ setting.names)
    (found : setting.functions.lookup name = some function) :
    function.callable.IsPure setting.number setting.names
  underlying : setting.cache.underlying.IsPure setting.number setting.names
  held {key : Value} {result : Result} (stored : setting.held? key = some result) :
    result.IsPure setting.number setting.names

/-- A pure function is as pure when it has just been memoized, with nothing stored. -/
theorem isPure_empty {functions : List (String × FunctionValue)} {names : Set String} {number : Nat}
    {underlying : Callable} {retention : Retention} {policy : Policy}
    (named : ∀ name ∈ names, ∀ function, functions.lookup name = some function →
      function.callable.IsPure number names)
    (pure : underlying.IsPure number names) :
    IsPure ⟨functions, names, number, ⟨underlying, retention, .empty policy⟩⟩ where
  named known found := named _ known _ found
  underlying := pure
  held stored := by cases policy <;> cases stored

/-- The next move of a thread, unless it is an application that something must be computed for. -/
def pace (inside : Bool) : Activity → Option (Multiset Deed × Activity)
  | ⟨.run (.apply (.memoized _) key), frames⟩ =>
    if setting.refuses inside then
      some ({.noted (.event setting.number (some key) (.reentryRejected setting.policy))},
        ⟨.answer (.error (.reentered setting.policy)), frames⟩)
    else (setting.held? key).map fun result => ({.applied key}, ⟨.answer (.ok result), frames⟩)
  | ⟨.run computation, frames⟩ =>
    let (world, next) := computation.next { functions := setting.functions } frames
    some (Deed.ofLog world.log, next.anonymous)
  | ⟨.answer _, .computing .. :: _⟩ => none
  | ⟨.answer outcome, frame :: frames⟩ =>
    some (0, (outcome.next {} frames frame).2.anonymous)
  | _ => none

/-- The computation of the function behind the cache for an argument. -/
def start (key : Value) : Computation :=
  .apply setting.cache.underlying.anonymous key

/-- The course of a thread from one activity to another, with its deeds on the way. -/
inductive Leads : Bool → Activity → Multiset Deed → Activity → Prop
  | refl {inside : Bool} (activity : Activity) : Leads inside activity 0 activity
  | pace {inside : Bool} {activity next last : Activity} {deeds more : Multiset Deed}
      (paced : setting.pace inside activity = some (deeds, next)) (rest : Leads inside next more last) :
      Leads inside activity (deeds + more) last
  | compute {inside : Bool} {key : Value} {frames : List Frame} {outcome : Outcome}
      {within more : Multiset Deed} {last : Activity} (open' : setting.refuses inside = false)
      (missing : setting.held? key = none)
      (run : Leads true ⟨.run (setting.start key), []⟩ within ⟨.answer outcome, []⟩)
      (rest : Leads inside ⟨.answer outcome, frames⟩ more last) :
      Leads inside ⟨.run (.apply (.memoized setting.number) key), frames⟩ ({.applied key} + more) last

/-- The function behind the cache ends with this outcome for an argument. -/
abbrev Yields (key : Value) (outcome : Outcome) (deeds : Multiset Deed) : Prop :=
  setting.Leads true ⟨.run (setting.start key), []⟩ deeds ⟨.answer outcome, []⟩

variable {setting}

namespace Leads

variable {inside : Bool} {activity next last : Activity} {deeds more : Multiset Deed}

theorem trans (first : setting.Leads inside activity deeds next)
    (second : setting.Leads inside next more last) :
    setting.Leads inside activity (deeds + more) last := by
  induction first with
  | refl => rwa [zero_add]
  | pace paced _ induction =>
      rw [add_assoc]
      exact .pace paced (induction second)
  | compute open' missing run _ _ induction =>
      rw [add_assoc]
      exact .compute open' missing run (induction second)

theorem single (paced : setting.pace inside activity = some (deeds, next)) :
    setting.Leads inside activity deeds next := by
  rw [← add_zero deeds]
  exact .pace paced (.refl next)

/-- A course to the end is determined by its beginning. -/
theorem unique {outcome outcome' : Outcome}
    (first : setting.Leads inside activity deeds ⟨.answer outcome, []⟩)
    (second : setting.Leads inside activity more ⟨.answer outcome', []⟩) :
    deeds = more ∧ outcome = outcome' := by
  generalize ended : (⟨.answer outcome, []⟩ : Activity) = last at first
  induction first generalizing outcome more outcome' with
  | refl activity =>
      subst ended
      cases second with
      | refl => exact ⟨rfl, rfl⟩
      | pace paced _ => cases paced
  | pace paced _ induction =>
      cases second with
      | refl => cases paced
      | pace paced' rest =>
          obtain ⟨rfl, rfl⟩ : _ ∧ _ := by simpa using paced.symm.trans paced'
          obtain ⟨rfl, rfl⟩ := induction rest ended
          exact ⟨rfl, rfl⟩
      | compute open' missing _ _ => simp [Setting.pace, open', missing] at paced
  | compute open' missing _ _ within onward =>
      cases second with
      | pace paced _ => simp [Setting.pace, open', missing] at paced
      | compute _ _ run rest =>
          obtain ⟨-, rfl⟩ := within run rfl
          obtain ⟨rfl, rfl⟩ := onward rest ended
          exact ⟨rfl, rfl⟩

end Leads

/-! ## Steps of threads -/

theorem IsPure.resolve (pure : setting.IsPure) {world : World}
    (named : world.functions = setting.functions) {name : String} {arguments : List Value}
    (known : name ∈ setting.names) (exact : Value.allExact arguments = true) :
    (world.resolve name arguments).IsPure setting.number setting.names := by
  simp only [World.resolve, World.function?, named]
  split
  next missing => exact .finish rfl
  next function found =>
    cases invoked : function.invoke? arguments with
    | none => exact .finish rfl
    | some computation =>
        exact FunctionValue.isPure_invoke? (pure.named known found) exact invoked

/-- Where a step of pure code leads, it leads whatever waits for its outcome. -/
structure Passes (setting : Setting) (thread : Thread) (world : World) (activity : Activity)
    (outer : List Frame) (after : World) (next : Activity) (entries : List Entry) : Prop where
  stepped : Activity.next thread world ⟨activity.focus, activity.frames ++ outer⟩ =
    .step after ⟨next.focus, next.frames ++ outer⟩
  caches : after.caches = world.caches
  functions : after.functions = world.functions
  log : after.log = entries ++ world.log
  pure : next.IsPure setting.number setting.names
  paced (inside : Bool) :
    setting.pace inside activity.anonymous = some (Deed.ofLog entries, next.anonymous)

/-- A step of pure code is a move of its course, unless it is an application of the memoized
function. -/
theorem IsPure.passes_run (pure : setting.IsPure) {computation : Computation} {own : List Frame}
    (given : Activity.IsPure setting.number setting.names ⟨.run computation, own⟩)
    (elsewhere : ∀ key, computation ≠ .apply (.memoized setting.number) key) (thread : Thread)
    {world : World} (named : world.functions = setting.functions) (outer : List Frame) :
    ∃ after next entries,
      setting.Passes thread world ⟨.run computation, own⟩ outer after next entries := by
  obtain ⟨runs, waits⟩ := given
  cases runs with
  | @finish reply exact =>
      refine ⟨world, ⟨.answer (reply.map Result.value), own⟩, [], rfl, rfl, rfl, rfl,
        ⟨Outcome.isPure_reply exact, waits⟩, fun inside => ?_⟩
      cases reply <;> rfl
  | @plain identity code run =>
      exact ⟨world, ⟨.answer (.ok (.callable (.plain identity code))), own⟩, [], rfl, rfl, rfl, rfl,
        ⟨.plain run, waits⟩, fun inside => rfl⟩
  | memoized =>
      exact ⟨world, ⟨.answer (.ok (.callable (.memoized setting.number))), own⟩, [], rfl, rfl, rfl,
        rfl, ⟨.memoized, waits⟩, fun inside => rfl⟩
  | @apply callable argument given exact =>
      cases given with
      | @plain identity code run =>
          exact ⟨world, ⟨.run (code argument), own⟩, [], rfl, rfl, rfl, rfl,
            ⟨run argument exact, waits⟩, fun inside => rfl⟩
      | memoized => exact absurd rfl (elsewhere argument)
  | @bind first next before onward =>
      refine ⟨world, ⟨.run first, .bind next :: own⟩, [], rfl, rfl, rfl, rfl, ⟨before, ?_⟩,
        fun inside => rfl⟩
      simp only [List.forall_mem_cons]
      exact ⟨onward, waits⟩
  | @feed first argument before exact =>
      refine ⟨world, ⟨.run first, .feed argument :: own⟩, [], rfl, rfl, rfl, rfl, ⟨before, ?_⟩,
        fun inside => rfl⟩
      simp only [List.forall_mem_cons]
      exact ⟨exact, waits⟩
  | @call name arguments known exact =>
      refine ⟨world, ⟨.run (world.resolve name arguments), own⟩, [], rfl, rfl, rfl, rfl,
        ⟨pure.resolve named known exact, waits⟩, fun inside => ?_⟩
      simp only [Activity.anonymous, Computation.anonymous, Setting.pace, Computation.next,
        World.resolve, World.function?, named]
  | @note rest label arguments onward =>
      exact ⟨world.record (.call label arguments), ⟨.run rest, own⟩, [.call label arguments], rfl,
        rfl, rfl, rfl, ⟨onward, waits⟩, fun inside => rfl⟩
  | @fresh code run =>
      exact ⟨{ world with identities := world.identities + 1 },
        ⟨.run (.give (.plain world.identities code)), own⟩, [], rfl, rfl, rfl, rfl,
        ⟨.plain run, waits⟩, fun inside => rfl⟩

theorem passes_answer {outcome : Outcome} {frame : Frame} {own : List Frame}
    (given : Activity.IsPure setting.number setting.names ⟨.answer outcome, frame :: own⟩)
    (thread : Thread) (world : World) (outer : List Frame) :
    ∃ next, setting.Passes thread world ⟨.answer outcome, frame :: own⟩ outer world next [] := by
  obtain ⟨pure, waits⟩ := given
  obtain ⟨first, rest⟩ := List.forall_mem_cons.mp waits
  cases frame with
  | bind continue' =>
      rcases outcome with failure | value | callable
      · exact ⟨⟨.run (continue' (.error failure)), own⟩, rfl, rfl, rfl, rfl, ⟨first _ pure, rest⟩,
          fun inside => rfl⟩
      · exact ⟨⟨.run (continue' (.ok value)), own⟩, rfl, rfl, rfl, rfl, ⟨first _ pure, rest⟩,
          fun inside => rfl⟩
      · exact ⟨⟨.answer (.ok (.callable callable)), own⟩, rfl, rfl, rfl, rfl, ⟨pure, rest⟩,
          fun inside => by cases callable <;> rfl⟩
  | feed argument =>
      rcases outcome with failure | value | callable
      · exact ⟨⟨.answer (.error failure), own⟩, rfl, rfl, rfl, rfl, ⟨pure, rest⟩, fun inside => rfl⟩
      · exact ⟨⟨.answer (.ok (.value value)), own⟩, rfl, rfl, rfl, rfl, ⟨pure, rest⟩,
          fun inside => rfl⟩
      · exact ⟨⟨.run (.apply callable argument), own⟩, rfl, rfl, rfl, rfl,
          ⟨.apply pure first, rest⟩, fun inside => by cases callable <;> rfl⟩
  | computing number key place => exact first.elim

/-! ## Courses of pure code -/

theorem pace_anonymous (inside : Bool) (activity : Activity) :
    setting.pace inside activity.anonymous = setting.pace inside activity := by
  obtain ⟨computation | outcome | _ | _, frames⟩ := activity
  · rcases computation with _ | ⟨_ | _⟩ | ⟨_ | _, _⟩ | _ | _ | _ | _ | _ | _ <;> rfl
  · rcases frames with _ | ⟨_ | _ | _, frames⟩
    · rfl
    all_goals rcases outcome with _ | _ | ⟨_ | _⟩ <;> rfl
  · rfl
  · rfl

theorem IsPure.start (pure : setting.IsPure) {key : Value} (exact : key.isExact = true) :
    Activity.IsPure setting.number setting.names ⟨.run (setting.start key), []⟩ :=
  ⟨.apply (Callable.isPure_anonymous.mpr pure.underlying) exact, List.forall_mem_nil _⟩

/-- An application of the memoized function is refused, gives back what was stored, or must be
computed for. Every other move of pure code is a step of the thread. -/
theorem IsPure.cases_pace (pure : setting.IsPure) {inside : Bool} {activity next : Activity}
    {deeds : Multiset Deed} (given : activity.IsPure setting.number setting.names)
    (paced : setting.pace inside activity = some (deeds, next)) :
    next.IsPure setting.number setting.names ∧
      ∀ key, .applied key ∈ deeds → setting.refuses inside = false ∧
        ∃ frames, activity = ⟨.run (.apply (.memoized setting.number) key), frames⟩ := by
  have quiet : ∀ entries key, Deed.applied key ∉ Deed.ofLog entries := by
    intro entries key member
    cases Deed.key?_of_mem_ofLog member
  obtain ⟨computation | outcome | _ | _, frames⟩ := activity
  · by_cases applies : ∃ key, computation = .apply (.memoized setting.number) key
    · obtain ⟨key, rfl⟩ := applies
      simp only [Setting.pace] at paced
      split at paced
      next refused =>
        cases paced
        exact ⟨⟨rfl, given.2⟩, by simp⟩
      next open' =>
        obtain ⟨result, held, same⟩ := Option.map_eq_some_iff.mp paced
        cases same
        exact ⟨⟨pure.held held, given.2⟩, by simp_all⟩
    · have named : ({ functions := setting.functions } : World).functions = setting.functions := rfl
      obtain ⟨after, last, entries, passes⟩ :=
        pure.passes_run given (not_exists.mp applies) 0 named []
      rw [← pace_anonymous, passes.paced] at paced
      cases paced
      exact ⟨Activity.isPure_anonymous.mpr passes.pure, fun key member => (quiet _ _ member).elim⟩
  · cases frames with
    | nil => cases paced
    | cons frame frames =>
        obtain ⟨last, passes⟩ := passes_answer given 0 {} []
        rw [← pace_anonymous, passes.paced] at paced
        cases paced
        exact ⟨Activity.isPure_anonymous.mpr passes.pure, fun key member => (quiet _ _ member).elim⟩
  · exact given.elim
  · exact given.elim

namespace Leads

variable {inside : Bool} {activity last : Activity} {deeds : Multiset Deed}

/-- Pure code stays pure. -/
theorem isPure (leads : setting.Leads inside activity deeds last) (pure : setting.IsPure)
    (given : activity.IsPure setting.number setting.names) :
    last.IsPure setting.number setting.names := by
  induction leads with
  | refl => exact given
  | pace paced _ induction => exact induction (pure.cases_pace given paced).1
  | @compute inside key _ _ _ _ _ _ _ _ _ within onward =>
      exact onward ⟨(within (pure.start given.isExact)).1, given.2⟩

/-- An application that is among the deeds of a course is one that it came to. -/
theorem exists_of_applied (leads : setting.Leads inside activity deeds last) (pure : setting.IsPure)
    (given : activity.IsPure setting.number setting.names) {key : Value}
    (member : .applied key ∈ deeds) : setting.refuses inside = false ∧ ∃ frames before,
      setting.Leads inside activity before ⟨.run (.apply (.memoized setting.number) key), frames⟩ := by
  induction leads with
  | refl => simp at member
  | pace paced _ induction =>
      obtain ⟨pure', applies⟩ := pure.cases_pace given paced
      rcases Multiset.mem_add.mp member with member | member
      · obtain ⟨open', frames, rfl⟩ := applies key member
        exact ⟨open', frames, 0, .refl _⟩
      · obtain ⟨open', frames, before, leads⟩ := induction pure' member
        exact ⟨open', frames, _, .pace paced leads⟩
  | @compute inside argument frames outcome within more last open' missing run _ _ onward =>
      rcases Multiset.mem_add.mp member with member | member
      · obtain rfl : key = argument := by simpa using member
        exact ⟨open', frames, 0, .refl _⟩
      · obtain ⟨open'', frames', before, leads⟩ :=
          onward ⟨(run.isPure pure (pure.start given.isExact)).1, given.2⟩ member
        exact ⟨open'', frames', _, .compute open' missing run leads⟩

end Leads

end Setting

end FunctionValues
