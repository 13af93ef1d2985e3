import FunctionValues.Proofs.Effects
import FunctionValues.Proofs.Rememoizing
import FunctionValues.Proofs.Reports
import FunctionValues.Proofs.Supplying
import Mathlib.Logic.Function.Iterate

/-!
# Origins of memoized functions

The origin of a memoized function is the step of a session that turned a plain function into it.
Cloning a memoized function, or memoizing it again, keeps its origin. `Origins` follows the names of
a session from step to step and looks at nothing but the steps and whether they made a function. Two
names share a cache just where they have the same origin, and the step that it was has settled
everything about that cache.
-/

namespace FunctionValues

/-- A step of a session that turned a plain function into a memoized one: how many steps there were
before it, and what it asked for. -/
structure Origin where
  position : Nat
  policy : Policy
  retention : Retention
  deriving DecidableEq

/-- The origin of what a transformation makes of a function, at a position of a session. -/
def Transformation.origin? (position : Nat) (transformation : Transformation)
    (source : Option Origin) : Option Origin :=
  match transformation with
  | clone => source
  | memoize policy retention => some (source.getD ⟨position, policy, retention⟩)
  | _ => none

/-- The origin of the function that a step makes, from those of the functions that names stand
for. -/
def Step.origin? (position : Nat) (named : String → Option Origin) : Step → Option Origin
  | derive _ source transformation times => (transformation.origin? position)^[times] (named source)
  | _ => none

/-- The origins of a session. -/
structure Origins where
  /-- The origin of the function that a name stands for. -/
  named : String → Option Origin := fun _ => none
  /-- All origins, in order. -/
  all : List Origin := []
  /-- The number of steps. -/
  position : Nat := 0

/-- The origins after a step that has an answer. -/
def Origins.next (origins : Origins) (step : Step) : Answer → Origins
  | .made _ =>
    let origin := step.origin? origins.position origins.named
    { named := fun name => if step.target? = some name then origin else origins.named name
      all := origins.all ++ origin.toList.filter (·.position == origins.position)
      position := origins.position + 1 }
  | _ => { origins with position := origins.position + 1 }

/-- The origins of the steps of a session with their reports. -/
def Origins.ofSession (steps : List Step) (reports : List Report) : Origins :=
  (steps.zip reports).foldl (fun origins (step, report) => origins.next step report.answer) {}

theorem Origins.ofSession_concat {steps : List Step} {reports : List Report}
    (same : reports.length = steps.length) (step : Step) (report : Report) :
    ofSession (steps ++ [step]) (reports ++ [report]) =
      (ofSession steps reports).next step report.answer := by
  simp [ofSession, List.zip_append same.symm]

/-- A callable is plain and has no origin, or its cache is the one that its origin made. -/
inductive Callable.Stems (all : List Origin) : Callable → Option Origin → Prop
  | plain (identity : Nat) (code : Code) : Stems all (.plain identity code) none
  | memoized {number : Nat} {origin : Origin} (present : all[number]? = some origin) :
      Stems all (.memoized number) (some origin)

namespace Callable.Stems

variable {all : List Origin} {callable left right : Callable} {origin origin' : Option Origin}

theorem append (stems : callable.Stems all origin) (more : List Origin) :
    callable.Stems (all ++ more) origin := by
  cases stems with
  | plain identity code => exact .plain identity code
  | memoized present =>
      have inside := (List.getElem?_eq_some_iff.mp present).1
      exact .memoized ((List.getElem?_append_left inside).trans present)

theorem isMemoized (stems : callable.Stems all origin) : callable.isMemoized = origin.isSome := by
  cases stems <;> rfl

theorem mem {first : Origin} (stems : callable.Stems all (some first)) : first ∈ all := by
  cases stems with
  | memoized present => exact List.mem_of_getElem? present

/-- Memoized callables share their cache when they have the same origin. -/
theorem shares (stems : left.Stems all origin) (stems' : right.Stems all origin')
    (memoized : left.isMemoized = true) (distinct : all.Nodup) :
    left.shares right = decide (origin = origin') := by
  cases stems with
  | plain identity code => cases memoized
  | @memoized number first present =>
      cases stems' with
      | plain identity code => rfl
      | @memoized number' second present' =>
          have inside := (List.getElem?_eq_some_iff.mp present).1
          have same : number = number' ↔ first = second := by
            constructor
            · rintro rfl
              exact Option.some.inj (present.symm.trans present')
            · rintro rfl
              exact (List.getElem?_inj inside distinct).mp (present.trans present'.symm)
          simp [Callable.shares, Bool.beq_eq_decide_eq, same]

/-- Functions of the same origin have the same number of results. -/
theorem size {world : World} {function other : FunctionValue}
    (stems : function.callable.Stems all origin) (stems' : other.callable.Stems all origin)
    (distinct : all.Nodup) : world.size? function = world.size? other := by
  simp only [World.size?]
  generalize function.callable = left, other.callable = right at stems stems'
  cases stems with
  | plain identity code =>
      cases stems'
      rfl
  | memoized present =>
      cases stems' with
      | memoized present' =>
          have inside := (List.getElem?_eq_some_iff.mp present).1
          rw [(List.getElem?_inj inside distinct).mp (present.trans present'.symm)]

end Callable.Stems

/-! ## Transformations -/

/-- What was memoized is given back by memoizing it again. -/
theorem World.memoize_again {policy : Policy} {retention : Retention} (world : World)
    (callable : Callable) (policy' : Policy) (retention' : Retention) :
    (world.memoize policy retention callable).2.memoize policy' retention'
        (world.memoize policy retention callable).1 =
      world.memoize policy retention callable := by
  cases callable <;> rfl

namespace Transformation

variable {world after : World} {function result : FunctionValue} {transformation : Transformation}
  {times : Nat} {policy : Policy} {retention : Retention} {all : List Origin}
  {origin : Option Origin}

/-- Memoizing repeatedly is memoizing once. -/
theorem repeated_memoize
    (repeated : (memoize policy retention).repeated times world function = some (result, after)) :
    times = 0 ∧ result = function ∧ after = world ∨
      0 < times ∧ result.callable = (world.memoize policy retention function.callable).1 ∧
        after = (world.memoize policy retention function.callable).2 := by
  induction times generalizing world function with
  | zero =>
      cases repeated
      exact .inl ⟨rfl, rfl, rfl⟩
  | succ times induction =>
      simp only [Transformation.repeated, Option.bind_eq_bind, Option.bind_eq_some_iff,
        Prod.exists] at repeated
      obtain ⟨next, middle, performed, rest⟩ := repeated
      obtain ⟨callable, rfl⟩ := perform_memoize performed
      refine .inr ⟨Nat.succ_pos times, ?_⟩
      rcases induction rest with ⟨-, rfl, rfl⟩ | ⟨-, again, rfl⟩
      · exact ⟨callable, rfl⟩
      · rw [callable, World.memoize_again] at again ⊢
        exact ⟨again, rfl⟩

/-- What is not memoized here has the origin of the function that it is a clone of, or none. -/
theorem stems_of_perform (position : Nat)
    (other : ∀ policy retention, transformation ≠ .memoize policy retention)
    (stems : function.callable.Stems all origin)
    (performed : transformation.perform world function = some (result, after)) :
    result.callable.Stems all (transformation.origin? position origin) ∧
      after.caches = world.caches ∧ after.functions = world.functions := by
  cases transformation with
  | memoize policy retention => exact absurd rfl (other policy retention)
  | clone =>
      obtain ⟨same, rfl⟩ := perform_clone performed
      exact ⟨same ▸ stems, rfl, rfl⟩
  | rewrap | tuple | fixFirst first | curry | reverse | coerce kind | andThen later
  | compose before =>
      simp only [perform, callable, Option.bind_eq_bind, Option.bind_eq_some_iff, Option.some.injEq,
        Prod.mk.injEq] at performed
      obtain ⟨_, -, rfl, rfl⟩ := performed
      exact ⟨.plain .., rfl, rfl⟩

theorem stems_of_unmemoized (position : Nat)
    (other : ∀ policy retention, transformation ≠ .memoize policy retention)
    (stems : function.callable.Stems all origin)
    (repeated : transformation.repeated times world function = some (result, after)) :
    result.callable.Stems all ((transformation.origin? position)^[times] origin) ∧
      after.caches = world.caches ∧ after.functions = world.functions := by
  induction times generalizing world function origin with
  | zero =>
      cases repeated
      exact ⟨stems, rfl, rfl⟩
  | succ times induction =>
      simp only [Transformation.repeated, Option.bind_eq_bind, Option.bind_eq_some_iff,
        Prod.exists] at repeated
      obtain ⟨next, middle, performed, rest⟩ := repeated
      obtain ⟨stems, caches, functions⟩ := stems_of_perform position other stems performed
      obtain ⟨stems, caches', functions'⟩ := induction stems rest
      exact ⟨stems, caches'.trans caches, functions'.trans functions⟩

/-- The first time that a function is memoized is its origin. -/
theorem iterate_origin?_memoize (position : Nat) (policy : Policy) (retention : Retention)
    (origin : Option Origin) (some' : 0 < times) :
    ((memoize policy retention).origin? position)^[times] origin =
      some (origin.getD ⟨position, policy, retention⟩) := by
  obtain ⟨times, rfl⟩ := Nat.exists_eq_add_of_lt some'
  rw [Nat.zero_add, Function.iterate_succ_apply]
  exact Function.iterate_fixed rfl times

/-- What is derived has its origin among those that there were, or a plain function was memoized. -/
theorem stems_of_repeated (position : Nat) (stems : function.callable.Stems all origin)
    (repeated : transformation.repeated times world function = some (result, after)) :
    result.callable.Stems all ((transformation.origin? position)^[times] origin) ∧
        after.caches = world.caches ∧ after.functions = world.functions ∨
      ∃ policy retention identity code, transformation = .memoize policy retention ∧
        function.callable = .plain identity code ∧
        result.callable = .memoized world.caches.length ∧
        after = (world.memoize policy retention (.plain identity code)).2 ∧
        (transformation.origin? position)^[times] origin = some ⟨position, policy, retention⟩ := by
  by_cases memoizes : ∃ policy retention, transformation = .memoize policy retention
  · obtain ⟨policy, retention, rfl⟩ := memoizes
    rcases repeated_memoize repeated with ⟨rfl, rfl, rfl⟩ | ⟨some', callable, rfl⟩
    · exact .inl ⟨stems, rfl, rfl⟩
    · rw [iterate_origin?_memoize position policy retention origin some', callable]
      generalize function.callable = source at stems
      cases stems with
      | plain identity code =>
          exact .inr ⟨policy, retention, identity, code, rfl, rfl, rfl, rfl, rfl⟩
      | memoized present => exact .inl ⟨.memoized present, rfl, rfl⟩
  · simp only [not_exists] at memoizes
    exact .inl (stems_of_unmemoized position memoizes stems repeated)

end Transformation

/-! ## Steps -/

/-- A step of a session turns a plain function into a memoized one. It makes a cache with nothing in
it, which the log tells of, and the name of the new function is reported with no results. -/
def World.Founds (world : World) (policy : Policy) (retention : Retention) (step : Step)
    (report : Report) (after : World) : Prop :=
  ∃ target source times function made,
    step = .derive target source (.memoize policy retention) times ∧
    world.function? source = some function ∧ function.isMemoized = false ∧
    report.answer = .made made ∧ made.callable = .memoized world.caches.length ∧
    report.trace = [.event world.caches.length none (.created policy)] ∧
    after.caches = world.caches ++ [⟨function.callable, retention, .empty policy⟩] ∧
    (target, 0) ∈ report.sizes

theorem World.founds_of_memoize {world : World} {policy : Policy} {retention : Retention}
    {target source : String} {times : Nat} {function made : FunctionValue} {identity : Nat}
    {code : Code} (found : world.function? source = some function)
    (plain : function.callable = .plain identity code)
    (memoized : made.callable = .memoized world.caches.length) :
    world.Founds policy retention (.derive target source (.memoize policy retention) times)
      (world.seen (.made made)
        ((world.memoize policy retention (.plain identity code)).2.define target made))
      ((world.memoize policy retention (.plain identity code)).2.define target made) := by
  have cache : ((world.memoize policy retention (.plain identity code)).2.define target
      made).cache? made.callable = some ⟨.plain identity code, retention, .empty policy⟩ := by
    simp [cache?, memoized, memoize, record, define]
  have size : ((world.memoize policy retention (.plain identity code)).2.define target
      made).size? made = some 0 := by
    rw [size?, cache]
    cases policy <;> rfl
  refine ⟨target, source, times, function, made, rfl, found, ?_, rfl, memoized, ?_, ?_, ?_⟩
  · rw [FunctionValue.isMemoized, plain, Callable.isMemoized]
  · simp [seen, entriesSince, memoize, record, define, Entry.isShown]
  · rw [plain]
    rfl
  · exact List.mem_filterMap.mpr
      ⟨(target, made), List.mem_cons_self, congrArg (Option.map (target, ·)) size⟩

/-- The origins of a session fit its world: the functions that names stand for, and the caches. -/
structure Origins.Describes (origins : Origins) (world : World) : Prop where
  functions {name : String} {function : FunctionValue}
    (found : world.function? name = some function) :
    function.callable.Stems origins.all (origins.named name)
  length : world.caches.length = origins.all.length
  fits {number : Nat} {origin : Origin} {cache : Cache}
    (present : origins.all[number]? = some origin) (found : world.caches[number]? = some cache) :
    cache.storage.policy = origin.policy ∧ cache.retention = origin.retention
  increasing : origins.all.Pairwise (·.position < ·.position)
  earlier {origin : Origin} (member : origin ∈ origins.all) : origin.position < origins.position

namespace Origins

variable {origins : Origins} {world middle after : World} {step : Step} {answer : Answer}
  {limit threads : Nat} {function : FunctionValue} {target : String} {known : Nat → Prop}

theorem Describes.empty : Describes {} {} where
  functions found := by cases found
  length := rfl
  fits present := by cases present
  increasing := .nil
  earlier member := by cases member

theorem Describes.distinct (describes : origins.Describes world) : origins.all.Nodup :=
  describes.increasing.imp fun {first second} less same => by
    rw [same] at less
    exact Nat.lt_irrefl _ less

/-- A step that makes no cache. -/
theorem Describes.keep (describes : origins.Describes world)
    (reaches : System.Reaches threads ⟨world, []⟩ ⟨after, []⟩)
    (same : after.caches.length = world.caches.length) {named : String → Option Origin}
    (functions : ∀ {name function}, after.function? name = some function →
      function.callable.Stems origins.all (named name)) :
    Describes ⟨named, origins.all, origins.position + 1⟩ after where
  functions := functions
  length := same.trans describes.length
  fits {number origin cache} present found := by
    have inside : number < world.caches.length :=
      same ▸ (List.getElem?_eq_some_iff.mp found).1
    obtain ⟨storage, kept, policy⟩ := System.Reaches.caches reaches (List.getElem?_eq_getElem inside)
    obtain rfl := Option.some.inj (found.symm.trans kept)
    have fits := describes.fits present (List.getElem?_eq_getElem inside)
    exact ⟨policy.trans fits.1, fits.2⟩
  increasing := describes.increasing
  earlier member := Nat.lt_succ_of_lt (describes.earlier member)

/-- An origin that there was is not added again. -/
theorem next_of_stems (describes : origins.Describes world)
    (stems : function.callable.Stems origins.all (step.origin? origins.position origins.named)) :
    origins.next step (.made function) =
      ⟨fun name => if step.target? = some name then step.origin? origins.position origins.named
          else origins.named name, origins.all, origins.position + 1⟩ := by
  have old : (step.origin? origins.position origins.named).toList.filter
      (·.position == origins.position) = [] := by
    generalize step.origin? origins.position origins.named = origin at stems
    cases origin with
    | none => rfl
    | some origin => simp [(describes.earlier stems.mem).ne]
  simp only [next, old, List.append_nil]

/-- A step that makes a function of an origin that there was, or of none. -/
theorem Describes.of_old (describes : origins.Describes world)
    (reaches : System.Reaches threads ⟨world, []⟩ ⟨middle.define target function, []⟩)
    (same : middle.caches.length = world.caches.length)
    (functions : middle.functions = world.functions) (named : step.target? = some target)
    (stems : function.callable.Stems origins.all (step.origin? origins.position origins.named)) :
    (origins.next step (.made function)).Describes (middle.define target function) ∧
      (origins.next step (.made function)).all = origins.all := by
  rw [next_of_stems describes stems]
  refine ⟨describes.keep reaches same fun {name other} found => ?_, rfl⟩
  rw [World.function?_define] at found
  split at found
  next here =>
    cases found
    simpa [named, here] using stems
  next elsewhere =>
    rw [World.function?, functions] at found
    simpa [named, Ne.symm elsewhere] using describes.functions found

/-- A cache is made, and a function with it. -/
theorem Describes.extend (describes : origins.Describes world) {policy : Policy}
    {retention : Retention} {identity : Nat} {code : Code}
    (callable : function.callable = .memoized world.caches.length) :
    Describes ⟨fun name => if target = name then some ⟨origins.position, policy, retention⟩
          else origins.named name,
        origins.all ++ [⟨origins.position, policy, retention⟩], origins.position + 1⟩
      ((world.memoize policy retention (.plain identity code)).2.define target function) where
  functions {name other} found := by
    dsimp only
    rw [World.function?_define] at found
    split at found
    next here =>
      cases found
      rw [if_pos here.symm, callable]
      exact .memoized (by simp [describes.length])
    next elsewhere =>
      rw [if_neg (Ne.symm elsewhere)]
      exact (describes.functions found).append _
  length := by simp [World.memoize, World.record, World.define, describes.length]
  fits {number origin cache} present found := by
    have here := (List.getElem?_eq_some_iff.mp found).1
    simp only [World.memoize, World.record, World.define] at found here
    rw [List.length_append, List.length_singleton, Nat.lt_succ_iff_lt_or_eq] at here
    rcases here with inside | rfl
    · rw [List.getElem?_append_left inside] at found
      rw [List.getElem?_append_left (describes.length ▸ inside)] at present
      exact describes.fits present found
    · rw [List.getElem?_concat_length] at found
      rw [describes.length, List.getElem?_concat_length] at present
      cases found
      cases present
      cases policy <;> exact ⟨rfl, rfl⟩
  increasing := by
    refine List.pairwise_append.mpr ⟨describes.increasing, List.pairwise_singleton .., ?_⟩
    intro origin member later same
    obtain rfl := List.mem_singleton.mp same
    exact describes.earlier member
  earlier {origin} member := by
    rcases List.mem_append.mp member with member | same
    · exact Nat.lt_succ_of_lt (describes.earlier member)
    · obtain rfl := List.mem_singleton.mp same
      exact Nat.lt_succ_self _

/-- A step that makes a function of a new origin. -/
theorem Describes.of_new (describes : origins.Describes world) {policy : Policy}
    {retention : Retention} {identity : Nat} {code : Code} (named : step.target? = some target)
    (callable : function.callable = .memoized world.caches.length)
    (origin : step.origin? origins.position origins.named =
      some ⟨origins.position, policy, retention⟩) :
    (origins.next step (.made function)).Describes
        ((world.memoize policy retention (.plain identity code)).2.define target function) ∧
      (origins.next step (.made function)).all =
        origins.all ++ [⟨origins.position, policy, retention⟩] := by
  have next : origins.next step (.made function) =
      ⟨fun name => if target = name then some ⟨origins.position, policy, retention⟩
          else origins.named name,
        origins.all ++ [⟨origins.position, policy, retention⟩], origins.position + 1⟩ := by
    simp [Origins.next, origin, named]
  rw [next]
  exact ⟨describes.extend callable, rfl⟩

/-- Every step of a session keeps its origins in order. A new one is that of a plain function which
the step memoizes. -/
theorem Describes.of_perform (describes : origins.Describes world) (curried : world.Curried known)
    (reached : System.Reached threads ⟨world, []⟩) (busy : 0 < threads) (few : step.width ≤ threads)
    (performed : world.perform limit step = .ok (answer, after)) :
    (origins.next step answer).Describes after ∧
      ((origins.next step answer).all = origins.all ∨
        ∃ policy retention, (origins.next step answer).all =
            origins.all ++ [⟨origins.position, policy, retention⟩] ∧
          world.Founds policy retention step (world.seen answer after) after) := by
  have reaches := World.reaches_of_perform few performed
  rcases World.makings_of_perform performed with
    ⟨function, middle, target, rfl, named, rfl, makings⟩ | ⟨other, nothing⟩
  · cases makings with
    | code kind code uncurried other =>
        have without : step.origin? origins.position origins.named = none := by
          cases step with
          | derive target source transformation times => exact (other _ _ _ _ rfl).elim
          | _ => rfl
        have stems : (world.create code).1.Stems origins.all
            (step.origin? origins.position origins.named) := without ▸ .plain ..
        exact (describes.of_old reaches rfl rfl named stems).imp_right .inl
    | @derived _ source transformation times origin' _ _ found repeated =>
        rcases Transformation.stems_of_repeated origins.position (describes.functions found)
            repeated with
          ⟨stems, caches, functions⟩ | ⟨policy, retention, identity, code, rfl, plain, callable, rfl,
            origin⟩
        · exact (describes.of_old reaches (congrArg List.length caches) functions named
            stems).imp_right .inl
        · obtain ⟨describes, all⟩ := describes.of_new named callable origin
          cases named
          exact ⟨describes, .inr ⟨policy, retention, all,
            World.founds_of_memoize found plain callable⟩⟩
    | @supplied _ _ function argument _ callable found shape ends =>
        have plain := curried.plain_of_ends reached busy found shape ends
        have nothing := Activity.Comes.makesNothing ends
        have stems : callable.Stems origins.all none := by
          cases callable with
          | plain identity code => exact .plain identity code
          | memoized number => cases plain
        exact (describes.of_old reaches nothing.caches nothing.functions named stems).imp_right .inl
  · have next : origins.next step answer = ⟨origins.named, origins.all, origins.position + 1⟩ := by
      cases answer with
      | made function => exact absurd rfl (other function)
      | _ => rfl
    rw [next]
    refine ⟨describes.keep reaches nothing.caches fun {name function} found => ?_, .inl rfl⟩
    rw [World.function?, nothing.functions] at found
    exact describes.functions found

end Origins

/-! ## Sessions -/

/-- The cache of a number was made by the step that an origin is, from a function that was plain. -/
def Origin.Founds (origin : Origin) (limit : Nat) (steps : List Step) (reports : List Report)
    (number : Nat) : Prop :=
  ∃ before step later earlier report rest world after,
    steps = before ++ step :: later ∧ before.length = origin.position ∧
    reports = earlier ++ report :: rest ∧
    World.session {} limit before = .ok (earlier, world) ∧
    world.report limit step = .ok (report, after) ∧ world.caches.length = number ∧
    world.Founds origin.policy origin.retention step report after

theorem Origin.Founds.concat {origin : Origin} {limit number : Nat} {steps : List Step}
    {reports : List Report} (founds : origin.Founds limit steps reports number) (step : Step)
    (report : Report) : origin.Founds limit (steps ++ [step]) (reports ++ [report]) number := by
  obtain ⟨before, founding, later, earlier, reported, rest, world, after, rfl, position, rfl,
    founds⟩ := founds
  exact ⟨before, founding, later ++ [step], earlier, reported, rest ++ [report], world, after,
    by simp, position, by simp, founds⟩

namespace Origins

variable {limit threads : Nat} {steps : List Step} {reports : List Report} {world : World}

/-- Through every session its origins stay in order. -/
theorem describes_of_session (busy : 0 < threads) (few : ∀ step ∈ steps, step.width ≤ threads)
    (performed : World.session {} limit steps = .ok (reports, world)) :
    (ofSession steps reports).Describes world ∧
      (ofSession steps reports).position = steps.length ∧ (∃ known, world.Curried known) ∧
      ∀ (number : Nat) (origin : Origin), (ofSession steps reports).all[number]? = some origin →
        origin.Founds limit steps reports number := by
  induction steps using List.reverseRecOn generalizing reports world with
  | nil =>
      cases performed
      exact ⟨.empty, rfl, ⟨_, .empty⟩, fun _ _ present => by simp [ofSession] at present⟩
  | append_singleton steps step induction =>
      obtain ⟨middle, earlier, answer, before, last, rfl⟩ := World.session_concat performed
      rw [List.forall_mem_append, List.forall_mem_singleton] at few
      obtain ⟨describes, position, ⟨known, curried⟩, founded⟩ := induction few.1 before
      have reached := World.reached_of_session few.1 before
      obtain ⟨describes', all⟩ := describes.of_perform curried reached busy few.2 last
      have next : ofSession (steps ++ [step]) (earlier ++ [middle.seen answer world]) =
          (ofSession steps earlier).next step answer :=
        ofSession_concat (World.length_of_session before) ..
      rw [next]
      refine ⟨describes', ?_, curried.of_perform reached few.2 last, fun number origin present => ?_⟩
      · rw [List.length_append, List.length_singleton, ← position]
        cases answer <;> rfl
      · rcases all with all | ⟨policy, retention, all, founds⟩
        · rw [all] at present
          exact (founded number origin present).concat ..
        · rw [all] at present
          rcases Nat.lt_or_ge number (ofSession steps earlier).all.length with inside | outside
          · rw [List.getElem?_append_left inside] at present
            exact (founded number origin present).concat ..
          · rw [List.getElem?_append_right outside] at present
            obtain ⟨inside, rfl⟩ := List.getElem?_eq_some_iff.mp present
            have here : number = middle.caches.length := by
              rw [describes.length]
              simp at inside
              omega
            refine ⟨steps, step, [], earlier, _, [], middle, world, rfl, ?_, rfl, before,
              World.report_eq_ok.mpr ⟨answer, last, rfl⟩, here.symm, ?_⟩
            · simp [position]
            · simpa using founds

/-- The cache of a function is the one that its origin made, with what the origin asked for. -/
theorem Describes.settled {origins : Origins} {name : String} {function : FunctionValue}
    {origin : Origin} (describes : origins.Describes world)
    (found : world.function? name = some function) (named : origins.named name = some origin) :
    ∃ number cache, function.callable = .memoized number ∧
      origins.all[number]? = some origin ∧ world.caches[number]? = some cache ∧
      (world.description function).policy = some origin.policy ∧
      cache.retention = origin.retention := by
  have stems := describes.functions found
  rw [named] at stems
  generalize same : function.callable = callable at stems
  cases stems with
  | @memoized number _ present =>
      have inside := describes.length ▸ (List.getElem?_eq_some_iff.mp present).1
      have cached := List.getElem?_eq_getElem inside
      have fits := describes.fits present cached
      refine ⟨number, _, rfl, present, cached, ?_, fits.2⟩
      simp [World.description, World.cache?, same, cached, fits.1]

/-- What the origins of a session decide: which functions are memoized, which of them share a cache,
and all that is kept there. -/
structure Decide (origins : Origins) (limit : Nat) (steps : List Step) (reports : List Report)
    (world : World) : Prop where
  /-- The functions with an origin are those that are memoized. -/
  memoized {name : String} {function : FunctionValue}
    (found : world.function? name = some function) :
    function.isMemoized = (origins.named name).isSome
  /-- Every origin is a step that made a cache with nothing in it, from a plain function. -/
  founds {number : Nat} {origin : Origin} (present : origins.all[number]? = some origin) :
    origin.Founds limit steps reports number
  /-- No step is two origins. -/
  increasing : origins.all.Pairwise (·.position < ·.position)
  /-- There are as many caches as origins, and the session has told of as many. -/
  caches : world.caches.length = origins.all.length ∧
    (reports.flatMap Report.entries).countP Entry.isCreation = origins.all.length
  /-- The cache of a function is the one that its origin made, with what the origin asked for. -/
  settled {name : String} {function : FunctionValue} {origin : Origin}
    (found : world.function? name = some function) (named : origins.named name = some origin) :
    ∃ number cache, function.callable = .memoized number ∧
      origins.all[number]? = some origin ∧ world.caches[number]? = some cache ∧
      (world.description function).policy = some origin.policy ∧ cache.retention = origin.retention
  /-- What a cache holds are results of runs behind that very cache: all that its origin keeps. -/
  kept {number : Nat} {origin : Origin} {cache : Cache} {key : Value} {result : Result}
    (present : origins.all[number]? = some origin) (found : world.caches[number]? = some cache) :
    cache.storage.stored? key = some result ↔ ∃ argument, argument.same key = true ∧
      .ended number argument (.ok result) ∈ world.log ∧ origin.retention.keeps result = true
  /-- Memoized functions of the same type share their cache just when they have the same origin. -/
  compare {left right : String} {function other : FunctionValue}
    (found : world.function? left = some function) (found' : world.function? right = some other)
    (memoized : function.isMemoized = true) (memoized' : other.isMemoized = true)
    (shape : function.shape = other.shape) (kind : function.kind = other.kind) (limit' : Nat) :
    world.perform limit' (.compare left right) =
      .ok (.shared (decide (origins.named left = origins.named right)), world)
  /-- Functions of the same origin have the same number of results. -/
  size {left right : String} {function other : FunctionValue}
    (found : world.function? left = some function) (found' : world.function? right = some other)
    (same : origins.named left = origins.named right) : world.size? function = world.size? other
  /-- A step that changes what is stored in a cache has told of storing a result there. -/
  stores {limit' number : Nat} {step : Step} {answer : Answer} {after : World}
    {before now : Cache} {key : Value} (performed : world.perform limit' step = .ok (answer, after))
    (found : world.caches[number]? = some before) (found' : after.caches[number]? = some now)
    (changed : now.storage.stored? key ≠ before.storage.stored? key) :
    ∃ argument count, argument.same key = true ∧
      .event number (some argument) (.stored count) ∈ after.entriesSince world
  /-- Whatever any threads go on to do: what a thread changes in a cache during an evaluation is
  stored by an application of the function of that cache, which the thread begins during the
  evaluation. -/
  applied {threads number : Nat} {thread : Thread} {computation : Computation}
    {frames : List Frame} {system middle after : System} {before now : Cache} {key : Value}
    (few : ∀ step ∈ steps, step.width ≤ threads)
    (reaches : System.Reaches threads ⟨world, []⟩ system)
    (begun : system.At thread ⟨.run computation, frames⟩)
    (during : System.During threads thread frames system middle)
    (stepped : middle.step thread = some after)
    (found : middle.world.caches[number]? = some before)
    (found' : after.world.caches[number]? = some now)
    (changed : now.storage.stored? key ≠ before.storage.stored? key) :
    ∃ argument inner applied, argument.same key = true ∧
      System.During threads thread frames system applied ∧
      applied.At thread ⟨.run (.apply (.memoized number) argument), inner ++ frames⟩ ∧
      System.During threads thread (inner ++ frames) applied middle
  /-- Whatever any threads go on to do: what an application finds in its cache is the result of a
  run behind that very cache. -/
  hits {threads number place : Nat} {thread : Thread} {frames : List Frame} {system : System}
    {cache : Cache} {key : Value} {result : Result} (few : ∀ step ∈ steps, step.width ≤ threads)
    (reaches : System.Reaches threads ⟨world, []⟩ system)
    (at' : system.At thread ⟨.applying number key (.look place), frames⟩)
    (found : system.world.caches[number]? = some cache)
    (held : cache.storage.find? place key = some result) :
    ∃ argument, argument.same key = true ∧ .ended number argument (.ok result) ∈ system.world.log

end Origins

namespace World

variable {limit number : Nat} {steps : List Step} {reports : List Report} {world : World}

/-- The reports of a session tell of every cache that was made. -/
theorem creations_of_session (performed : World.session {} limit steps = .ok (reports, world)) :
    (reports.flatMap Report.entries).countP Entry.isCreation = world.creations := by
  have told : world.entriesSince {} = (world.log.filter (·.isShown)).reverse :=
    entriesSince_of_log (List.append_nil _).symm
  rw [entries_of_session performed, told, List.countP_reverse, List.countP_filter, creations]
  refine List.countP_congr fun entry _ => ?_
  cases entry with
  | event number key event => cases event <;> simp [Entry.isCreation, Entry.isShown]
  | _ => simp [Entry.isCreation]

/-- While nothing runs, a cache holds the results of all runs that are to be kept. -/
theorem stored?_eq_some_iff {threads : Nat} {cache : Cache} {key : Value} {result : Result}
    (reached : System.Reached threads ⟨world, []⟩) (found : world.caches[number]? = some cache) :
    cache.storage.stored? key = some result ↔ ∃ argument, argument.same key = true ∧
      .ended number argument (.ok result) ∈ world.log ∧ cache.retention.keeps result = true := by
  constructor
  · intro stored
    have backed : Cache.Backed cache (System.phases ⟨world, []⟩ number) (world.marks number) :=
      Cache.backed_invariant.of_reached reached cache found
    obtain ⟨argument, equal, ended, keeps⟩ := backed.stored stored
    exact ⟨argument, equal, System.ended_mem_marks.mp ended, keeps⟩
  · rintro ⟨argument, equal, ended, keeps⟩
    rw [← cache.storage.stored?_congr equal]
    exact (reached.sound.present found).stored_of_ended (by simp [System.phases])
      (System.ended_mem_marks.mpr ended) keeps

/-- A step of a session that changes what is stored in a cache tells of a result that was stored. -/
theorem stored_of_perform {threads : Nat} {step : Step} {answer : Answer} {after : World}
    {before now : Cache} {key : Value} (reached : System.Reached threads ⟨world, []⟩)
    (few : step.width ≤ threads) (performed : world.perform limit step = .ok (answer, after))
    (found : world.caches[number]? = some before) (found' : after.caches[number]? = some now)
    (changed : now.storage.stored? key ≠ before.storage.stored? key) :
    ∃ argument count, argument.same key = true ∧
      .event number (some argument) (.stored count) ∈ after.entriesSince world := by
  obtain ⟨argument, count, added, equal, log, stored⟩ := System.Reaches.stored_of_changed reached
    (reaches_of_perform few performed) found found' changed
  refine ⟨argument, count, equal, ?_⟩
  rw [entriesSince_of_log log]
  exact List.mem_reverse.mpr (List.mem_filter.mpr ⟨stored, rfl⟩)

/-- In every session, whatever it makes and applies and in however many threads: each memoized
function has one origin, the step that turned a plain function into it, which cloning and memoizing
again keep. Two memoized functions of the same type share their cache just when they have the same
origin. The session has told of every cache that there is, and each had nothing in it at first. The
policy of a memoized function, the results that it keeps and how many it has are a matter of its
origin. A cache changes only where its own function is applied, and what an application finds in it
are results of its own function, so that functions of different origins have nothing to do with one
another. -/
theorem decided_by_origin (performed : World.session {} limit steps = .ok (reports, world)) :
    (Origins.ofSession steps reports).Decide limit steps reports world := by
  obtain ⟨threads, busy, few⟩ := Step.exists_width steps
  obtain ⟨describes, -, -, founded⟩ := Origins.describes_of_session busy few performed
  have reached := reached_of_session few performed
  refine
    { memoized := fun found => (describes.functions found).isMemoized
      founds := founded _ _
      increasing := describes.increasing
      caches := ⟨describes.length, ?caches⟩
      settled := describes.settled
      kept := fun present found => ?kept
      compare := fun found found' memoized _ shape kind limit => ?compare
      size := fun found found' same =>
        (same ▸ describes.functions found).size (describes.functions found') describes.distinct
      stores := fun {_ _ step _ _ _ _ _} performed' found found' changed => ?stores
      applied := fun few reaches => System.During.applied
        (Relation.ReflTransGen.trans (reached_of_session few performed) reaches)
      hits := fun few reaches => System.Reached.ended_of_hit
        (Relation.ReflTransGen.trans (reached_of_session few performed) reaches) }
  case caches =>
    rw [creations_of_session performed, System.Reached.creations reached, describes.length]
  case kept =>
    rw [stored?_eq_some_iff reached found, (describes.fits present found).2]
  case compare =>
    have shares := (describes.functions found).shares (describes.functions found') memoized
      describes.distinct
    simp [perform, require, found, found', Refusal.unlessSome, shape, kind, shares, bind,
      Except.bind]
  case stores =>
    obtain ⟨threads, -, few⟩ := Step.exists_width (steps ++ [step])
    rw [List.forall_mem_append, List.forall_mem_singleton] at few
    exact stored_of_perform (reached_of_session few.1 performed) few.2 performed' found found'
      changed

/-- A session that memoizes the identity, memoizes a clone of that again by the other policy, and
memoizes the identity a second time. -/
def memoizingApart : List Step :=
  [.identity "identity", .derive "memoized" "identity" (.memoize .global .all) 2,
    .derive "copy" "memoized" .clone 1, .derive "again" "copy" (.memoize .perKey .all) 1,
    .derive "apart" "identity" (.memoize .perKey .all) 1, .apply "again" [.int 1] none]

/-- What was memoized again shares its cache, and the result in it, with what was memoized first. The
function that was memoized apart has a cache of its own, by its own policy and with nothing in it. -/
theorem decided_by_origin_memoizingApart :
    ∃ reports world memoized again apart,
      World.session {} 100 memoizingApart = .ok (reports, world) ∧
      world.function? "memoized" = some memoized ∧ world.function? "again" = some again ∧
      world.function? "apart" = some apart ∧
      world.perform 0 (.compare "again" "memoized") = .ok (.shared true, world) ∧
      world.perform 0 (.compare "again" "apart") = .ok (.shared false, world) ∧
      (world.description again).policy = some .global ∧ world.size? again = some 1 ∧
      (world.description apart).policy = some .perKey ∧ world.size? apart = some 0 := by
  have performed : ∃ reports world memoized again apart,
      World.session {} 100 memoizingApart = .ok (reports, world) ∧
      world.function? "memoized" = some memoized ∧ world.function? "again" = some again ∧
      world.function? "apart" = some apart ∧
      (Origins.ofSession memoizingApart reports).named "memoized" = some ⟨1, .global, .all⟩ ∧
      (Origins.ofSession memoizingApart reports).named "again" = some ⟨1, .global, .all⟩ ∧
      (Origins.ofSession memoizingApart reports).named "apart" = some ⟨4, .perKey, .all⟩ ∧
      (again.shape = memoized.shape ∧ again.kind = memoized.kind) ∧
      (again.shape = apart.shape ∧ again.kind = apart.kind) ∧
      world.size? memoized = some 1 ∧ world.size? apart = some 0 :=
    ⟨_, _, _, _, _, rfl, rfl, rfl, rfl, rfl, rfl, rfl, ⟨rfl, rfl⟩, ⟨rfl, rfl⟩, rfl, rfl⟩
  obtain ⟨reports, world, memoized, again, apart, performed, found, found', found'', origin,
    origin', origin'', same, same', size, size'⟩ := performed
  have decided := decided_by_origin performed
  have isMemoized : memoized.isMemoized = true := by rw [decided.memoized found, origin]; rfl
  have isMemoized' : again.isMemoized = true := by rw [decided.memoized found', origin']; rfl
  have isMemoized'' : apart.isMemoized = true := by rw [decided.memoized found'', origin'']; rfl
  have shared := decided.compare found' found isMemoized' isMemoized same.1 same.2 0
  have unshared := decided.compare found' found'' isMemoized' isMemoized'' same'.1 same'.2 0
  rw [origin', origin] at shared
  rw [origin', origin''] at unshared
  obtain ⟨-, -, -, -, -, policy, -⟩ := decided.settled found' origin'
  obtain ⟨-, -, -, -, -, policy', -⟩ := decided.settled found'' origin''
  have kept := (decided.size found' found (origin'.trans origin.symm)).trans size
  exact ⟨reports, world, memoized, again, apart, performed, found, found', found'', shared, unshared,
    policy, kept, policy', size'⟩

end World

end FunctionValues
