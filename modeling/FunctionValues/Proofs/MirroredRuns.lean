import FunctionValues.Proofs.Evaluation
import FunctionValues.Proofs.Sessions

/-!
# Runs that mirror an evaluation

A thread runs a computation in a world with memoized functions. Where the computation that it mirrors
evaluates to an outcome, the run ends with a mirror of that outcome and is nowhere refused: an
argument that is being computed cannot be asked for again, since its evaluation would be part of
itself. A stored result mirrors what its argument evaluates to, if it evaluates to anything, whatever
the runs were that led to it.
-/

namespace FunctionValues

/-- What is related to something that is there is there too. -/
theorem exists_right_of_rel {α β : Type} {related : α → β → Prop} {item : α} {option : Option α}
    {option' : Option β} (rel : Option.Rel related option option') (found : option = some item) :
    ∃ item', option' = some item' ∧ related item item' := by
  subst found
  cases rel with
  | some same => exact ⟨_, rfl, same⟩

theorem exists_left_of_rel {α β : Type} {related : α → β → Prop} {item : β} {option : Option α}
    {option' : Option β} (rel : Option.Rel related option option') (found : option' = some item) :
    ∃ item', option = some item' ∧ related item' item := by
  subst found
  cases rel with
  | some same => exact ⟨_, rfl, same⟩

/-! ## Functions with names -/

variable {origin : List Callable} {functions functions' : List (String × FunctionValue)}

/-- Functions mirror others that have the same names. -/
abbrev FunctionValue.AllMirror (origin : List Callable) :
    List (String × FunctionValue) → List (String × FunctionValue) → Prop :=
  List.Forall₂ fun entry entry' => entry.1 = entry'.1 ∧ entry.2.Mirrors origin entry'.2

theorem FunctionValue.AllMirror.lookup (mirror : AllMirror origin functions functions')
    (name : String) :
    Option.Rel (FunctionValue.Mirrors origin) (functions.lookup name) (functions'.lookup name) := by
  induction mirror with
  | nil => exact .none
  | @cons entry entry' functions functions' first _ induction =>
      rw [List.lookup_cons, List.lookup_cons, first.1]
      split
      · exact .some first.2
      · exact induction

/-- Supplying arguments to a mirror is a mirror. -/
theorem FunctionValue.Mirrors.invoke? {function function' : FunctionValue}
    (mirrors : function.Mirrors origin function') {arguments : List Value}
    (exact : Value.allExact arguments = true) :
    Option.Rel (Computation.Mirrors origin) (function.invoke? arguments)
      (function'.invoke? arguments) := by
  obtain ⟨shape, kind, callable⟩ := function
  obtain ⟨shape', kind', callable'⟩ := function'
  obtain ⟨rfl, -, given⟩ := mirrors
  have applied : ∀ argument, argument.isExact = true →
      (Computation.apply callable argument).Mirrors origin (.apply callable' argument) :=
    fun _ exact => .apply given exact
  have paired : ∀ first second, first.isExact = true → second.isExact = true →
      (Value.pair first second).isExact = true := by
    intro first second exact exact'
    simp [Value.isExact, exact, exact']
  cases shape' <;> rcases arguments with _ | ⟨first, _ | ⟨second, rest⟩⟩ <;> try exact .none
  all_goals simp only [Value.allExact, Bool.and_eq_true] at exact
  · exact .some (applied first exact.1)
  · exact .some (applied (.pair first second) (paired first second exact.1 exact.2.1))
  · exact .some (Computation.Mirrors.feed (applied first exact.1) exact.2.1)
  · exact .some (applied (.pair first second) (paired first second exact.1 exact.2.1))

theorem World.mirrors_resolve {world : World}
    (mirror : FunctionValue.AllMirror origin world.functions functions) (name : String)
    {arguments : List Value} (exact : Value.allExact arguments = true) :
    (world.resolve name arguments).Mirrors origin (World.resolve { functions } name arguments) := by
  have found := mirror.lookup name
  simp only [World.resolve, World.function?]
  generalize world.functions.lookup name = function at found
  generalize functions.lookup name = function' at found
  cases found with
  | none => exact .finish rfl
  | some mirrors =>
      have invoked := mirrors.invoke? exact
      simp only
      generalize FunctionValue.invoke? _ arguments = computation at invoked
      generalize FunctionValue.invoke? _ arguments = computation' at invoked
      cases invoked with
      | none => exact .finish rfl
      | some same => exact same

/-! ## The log -/

/-- What was added to the log tells of no refusal. -/
def World.Quiet (world after : World) : Prop :=
  ∃ added, after.log = added ++ world.log ∧
    ∀ cache key policy, Entry.event cache key (.reentryRejected policy) ∉ added

namespace World.Quiet

variable {world middle after : World}

theorem refl (world : World) : world.Quiet world :=
  ⟨[], rfl, by simp⟩

theorem trans (first : world.Quiet middle) (second : middle.Quiet after) : world.Quiet after := by
  obtain ⟨added, grown, quiet⟩ := first
  obtain ⟨more, grown', quiet'⟩ := second
  refine ⟨more ++ added, by rw [grown', grown, List.append_assoc], ?_⟩
  intro cache key policy member
  rcases List.mem_append.mp member with member | member
  · exact quiet' cache key policy member
  · exact quiet cache key policy member

end World.Quiet

/-! ## Caches -/

/-- A cache serves different arguments independently and is made from a callable: its function
mirrors the callable, and so does every stored result of an exact argument mirror what applying the
callable evaluates to, if it evaluates to anything. -/
structure Cache.Mirrors (origin : List Callable) (functions : List (String × FunctionValue))
    (cache : Cache) (callable : Callable) : Prop where
  policy : cache.storage.policy = .perKey
  plain : ∃ identity code, cache.underlying = .plain identity code
  underlying : cache.underlying.Mirrors origin callable
  stored {key : Value} {result : Result} (exact : key.isExact = true)
    (found : cache.storage.stored? key = some result) :
    (∃ outcome, Outcome.Mirrors origin (.ok result) outcome) ∧
      ∀ steps outcome, Computation.Evaluates functions steps (.apply callable key) outcome →
        Outcome.Mirrors origin (.ok result) outcome

/-- The functions of a world mirror others, and its caches are made from the callables of `origin`. -/
structure World.Mirrors (origin : List Callable) (functions : List (String × FunctionValue))
    (world : World) : Prop where
  named : FunctionValue.AllMirror origin world.functions functions
  made : List.Forall₂ (Cache.Mirrors origin functions) world.caches origin

namespace World.Mirrors

variable {world : World} {number : Nat} {cache : Cache} {callable : Callable}

theorem found (mirrors : world.Mirrors origin functions) (made : origin[number]? = some callable) :
    ∃ cache, world.caches[number]? = some cache ∧ cache.Mirrors origin functions callable := by
  obtain ⟨length, pointwise⟩ := List.forall₂_iff_get.mp mirrors.made
  obtain ⟨inside, rfl⟩ := List.getElem?_eq_some_iff.mp made
  exact ⟨_, List.getElem?_eq_getElem (length ▸ inside), pointwise number (length ▸ inside) inside⟩

theorem function? (mirrors : world.Mirrors origin functions) {name : String}
    {function : FunctionValue} (found : world.function? name = some function) :
    ∃ function', functions.lookup name = some function' ∧ function.Mirrors origin function' :=
  exists_right_of_rel (mirrors.named.lookup name) found

theorem record (mirrors : world.Mirrors origin functions) (entry : Entry) :
    (world.record entry).Mirrors origin functions :=
  ⟨mirrors.named, mirrors.made⟩

theorem amend (mirrors : world.Mirrors origin functions) {storage : Storage} {entries : List Entry}
    (made : origin[number]? = some callable)
    (kept : Cache.Mirrors origin functions { cache with storage } callable)
    (found : world.caches[number]? = some cache) :
    (world.amend number storage entries).Mirrors origin functions := by
  have same : origin.modify number id = origin := List.modify_id ..
  refine ⟨mirrors.named, ?_⟩
  conv => arg 3; rw [← same]
  refine forall₂_modify mirrors.made fun found' callable' present present' => ?_
  obtain rfl : cache = found' := Option.some.inj (found.symm.trans present)
  obtain rfl : callable = callable' := Option.some.inj (made.symm.trans present')
  exact kept

end World.Mirrors

/-! ## Outcomes -/

namespace Outcome

theorem Mirrors.of_reply {reply : Reply} (exact : reply.isExact = true) :
    Outcome.Mirrors origin (reply.map .value) (reply.map .value) := by
  cases reply with
  | ok value => exact .value exact
  | error failure => exact .error exact

theorem Mirrors.reply? {outcome outcome' : Outcome} (mirrors : Outcome.Mirrors origin outcome outcome')
    {reply : Reply} (replied : outcome'.reply? = some reply) :
    outcome.reply? = some reply ∧ reply.isExact = true := by
  cases mirrors with
  | value exact | error exact =>
      cases replied
      exact ⟨rfl, exact⟩
  | callable given => cases replied

theorem Mirrors.cases {outcome outcome' : Outcome} (mirrors : Outcome.Mirrors origin outcome outcome') :
    (∃ reply, outcome.reply? = some reply ∧ outcome'.reply? = some reply ∧ reply.isExact = true) ∨
      ∃ callable callable', outcome = .ok (.callable callable) ∧
        outcome' = .ok (.callable callable') ∧ callable.Mirrors origin callable' := by
  cases mirrors with
  | value exact | error exact => exact .inl ⟨_, rfl, rfl, exact⟩
  | callable given => exact .inr ⟨_, _, rfl, rfl, given⟩

theorem next_bind {outcome : Outcome} {reply : Reply} (replied : outcome.reply? = some reply)
    (world : World) (next : Reply → Computation) (frames : List Frame) :
    Activity.Comes 0 world ⟨.answer outcome, .bind next :: frames⟩ world
      ⟨.run (next reply), frames⟩ := by
  match outcome with
  | .ok (.value value) | .error failure =>
      cases replied
      exact .single rfl
  | .ok (.callable callable) => cases replied

theorem next_feed {outcome : Outcome} {reply : Reply} (replied : outcome.reply? = some reply)
    (world : World) (argument : Value) (frames : List Frame) :
    Activity.Comes 0 world ⟨.answer outcome, .feed argument :: frames⟩ world
      ⟨.answer outcome, frames⟩ := by
  match outcome with
  | .ok (.value value) | .error failure => exact .single rfl
  | .ok (.callable callable) => cases replied

end Outcome

/-! ## Frames -/

/-- Frames compute exact arguments only, and none that evaluates in so few steps. -/
def Frame.Outlast (origin : List Callable) (functions : List (String × FunctionValue))
    (frames : List Frame) (steps : Nat) : Prop :=
  ∀ number, ∀ key ∈ Frame.keys number frames, key.isExact = true ∧
    ∀ callable count outcome, origin[number]? = some callable →
      Computation.Evaluates functions count (.apply callable key) outcome → steps < count

namespace Frame.Outlast

variable {frames : List Frame} {steps number : Nat} {key : Value} {callable : Callable}

theorem nil : Frame.Outlast origin functions [] steps := by
  intro number key member
  cases member

theorem mono (outlast : Frame.Outlast origin functions frames steps) {fewer : Nat}
    (few : fewer ≤ steps) : Frame.Outlast origin functions frames fewer := by
  intro number key member
  obtain ⟨exact, longer⟩ := outlast number key member
  refine ⟨exact, fun callable count outcome made evaluates => ?_⟩
  have := longer callable count outcome made evaluates
  omega

theorem bind (outlast : Frame.Outlast origin functions frames steps) (next : Reply → Computation)
    {fewer : Nat} (few : fewer ≤ steps) :
    Frame.Outlast origin functions (.bind next :: frames) fewer :=
  outlast.mono few

theorem feed (outlast : Frame.Outlast origin functions frames steps) (argument : Value)
    {fewer : Nat} (few : fewer ≤ steps) :
    Frame.Outlast origin functions (.feed argument :: frames) fewer :=
  outlast.mono few

theorem computing (outlast : Frame.Outlast origin functions frames steps)
    (made : origin[number]? = some callable) (exact : key.isExact = true)
    (longer : ∀ count outcome,
      Computation.Evaluates functions count (.apply callable key) outcome → steps < count)
    (place : Nat) :
    Frame.Outlast origin functions (.computing number key place :: frames) steps := by
  intro other argument member
  simp only [Frame.keys, Frame.phases] at member
  split at member
  next same =>
    subst same
    rcases List.mem_cons.mp member with rfl | member
    · refine ⟨exact, fun callable' count outcome made' evaluates => ?_⟩
      obtain rfl : callable = callable' := Option.some.inj (made.symm.trans made')
      exact longer count outcome evaluates
    · exact outlast number argument member
  next => exact outlast other argument member

/-- An argument that evaluates in so many steps is not computed already. -/
theorem blocks_eq_false {outcome : Outcome} (outlast : Frame.Outlast origin functions frames steps)
    (made : origin[number]? = some callable) (exact : key.isExact = true)
    (evaluates : Computation.Evaluates functions steps (.apply callable key) outcome) :
    Policy.perKey.blocks (Frame.keys number frames) key = false := by
  rw [Bool.eq_false_iff]
  intro blocked
  obtain ⟨other, member, contradiction | equal⟩ := (Policy.blocks_iff ..).mp blocked
  · cases contradiction
  · obtain ⟨exact', longer⟩ := outlast number other member
    obtain rfl := (Value.same_iff_eq exact' exact).mp equal
    exact Nat.lt_irrefl _ (longer callable steps outcome made evaluates)

end Frame.Outlast

/-! ## Applications -/

namespace World.Mirrors

variable {world : World} {number place : Nat} {callable : Callable} {key : Value}
  {frames : List Frame}

/-- An application that is not refused comes back with a stored result, which mirrors what the
argument evaluates to, or it runs code that mirrors what the function is made from. -/
theorem apply (mirrors : world.Mirrors origin functions)
    (sound : world.SoundAt ⟨.run (.apply (.memoized number) key), frames⟩)
    (made : origin[number]? = some callable) (exact : key.isExact = true)
    (free : Policy.perKey.blocks (Frame.keys number frames) key = false) :
    (∃ result after, Activity.Comes 0 world ⟨.run (.apply (.memoized number) key), frames⟩ after
        ⟨.answer (.ok result), frames⟩ ∧ after.Mirrors origin functions ∧ world.Quiet after ∧
        (∃ outcome, Outcome.Mirrors origin (.ok result) outcome) ∧
        ∀ steps outcome, Computation.Evaluates functions steps (.apply callable key) outcome →
          Outcome.Mirrors origin (.ok result) outcome) ∨
      ∃ (identity : Nat) (code code' : Code) (place : Nat) (after : World),
        callable = .plain identity code' ∧
        code.Mirrors origin code' ∧
        Activity.Comes 0 world ⟨.run (.apply (.memoized number) key), frames⟩ after
          ⟨.run (code key), .computing number key place :: frames⟩ ∧
        after.Mirrors origin functions ∧ world.Quiet after := by
  obtain ⟨cache, found, kept⟩ := mirrors.found made
  have begun := Activity.Comes.run 0 world (.apply (.memoized number) key) frames
  have cached := (sound.of_comes begun).seeking found
  rw [← kept.policy] at free
  cases stored : cache.storage.stored? key with
  | some result =>
      left
      refine ⟨result, _, begun.trans (Activity.comes_of_stored frames found cached free stored),
        mirrors.record _, ⟨[_], rfl, by simp⟩, kept.stored exact stored⟩
  | none =>
      right
      obtain ⟨storage, place, comes, agrees, policy⟩ :=
        Activity.comes_of_missing frames found cached free stored
      obtain ⟨identity, code, underlying⟩ := kept.plain
      have given := kept.underlying
      rw [underlying] at given comes
      cases given with
      | @plain _ identity' _ code' run =>
          refine ⟨identity', code, code', place, _, rfl, run,
            (begun.trans comes).trans (.single rfl), ?_, ⟨_, rfl, by simp⟩⟩
          refine mirrors.amend made ⟨policy.trans kept.policy, kept.plain, kept.underlying, ?_⟩ found
          intro key result exact found'
          exact kept.stored exact ((agrees.stored key).symm.trans found')

/-- The end of a run is stored or given up, and what is stored is what it ought to be. -/
theorem settle {outcome : Outcome} (mirrors : world.Mirrors origin functions)
    (sound : world.SoundAt ⟨.answer outcome, .computing number key place :: frames⟩)
    (made : origin[number]? = some callable) (exact : key.isExact = true)
    (mirrored : ∃ last, Outcome.Mirrors origin outcome last)
    (evaluated : ∀ steps last,
      Computation.Evaluates functions steps (.apply callable key) last →
        Outcome.Mirrors origin outcome last) :
    ∃ after, Activity.Comes 0 world ⟨.answer outcome, .computing number key place :: frames⟩ after
        ⟨.answer outcome, frames⟩ ∧ after.Mirrors origin functions ∧ world.Quiet after := by
  obtain ⟨cache, found, kept⟩ := mirrors.found made
  have cached := sound.computing found
  cases retains : cache.retention.retains outcome with
  | true =>
      obtain ⟨result, rfl⟩ : ∃ result, outcome = .ok result := by
        cases outcome with
        | ok result => exact ⟨result, rfl⟩
        | error failure => cases retains
      obtain ⟨storage, comes, policy, -, stored⟩ :=
        Activity.comes_of_kept frames found cached retains
      refine ⟨_, comes, ?_, ⟨_, rfl, by simp⟩⟩
      refine mirrors.amend made ⟨policy.trans kept.policy, kept.plain, kept.underlying, ?_⟩ found
      intro other result' exact' found'
      rw [stored] at found'
      split at found'
      next equal =>
        cases found'
        obtain rfl := (Value.same_iff_eq exact exact').mp equal
        exact ⟨mirrored, evaluated⟩
      next => exact kept.stored exact' found'
  | false =>
      obtain ⟨storage, removals, comes, agrees, policy, cleared⟩ :=
        Activity.comes_of_vain frames found cached retains
      refine ⟨_, comes, ?_, ⟨_, rfl, ?_⟩⟩
      · refine mirrors.amend made ⟨policy.trans kept.policy, kept.plain, kept.underlying, ?_⟩ found
        intro other result exact' found'
        exact kept.stored exact' ((agrees.stored other).symm.trans found')
      · intro other argument policy' member
        simp only [List.mem_append, List.mem_map, List.mem_singleton, reduceCtorEq, or_false,
          Entry.event.injEq] at member
        obtain ⟨event, removed | told, -, -, rfl⟩ := member
        · obtain ⟨slots, contradiction⟩ := cleared _ removed
          cases contradiction
        · cases outcome <;> simp [Outcome.verdict] at told

end World.Mirrors

/-! ## Runs of what evaluates -/

/-- A thread comes back to its frames with a mirror of an outcome, and nothing is refused. -/
def World.Yields (origin : List Callable) (functions : List (String × FunctionValue))
    (world : World) (activity : Activity) (frames : List Frame) (last : Outcome) : Prop :=
  ∃ after outcome, Activity.Comes 0 world activity after ⟨.answer outcome, frames⟩ ∧
    after.Mirrors origin functions ∧ Outcome.Mirrors origin outcome last ∧ world.Quiet after

namespace World.Yields

variable {world middle : World} {activity next : Activity} {frames : List Frame} {last : Outcome}

theorem of_outcome {outcome : Outcome}
    (comes : Activity.Comes 0 world activity world ⟨.answer outcome, frames⟩)
    (mirrors : world.Mirrors origin functions) (same : Outcome.Mirrors origin outcome last) :
    world.Yields origin functions activity frames last :=
  ⟨world, outcome, comes, mirrors, same, .refl world⟩

theorem head (comes : Activity.Comes 0 world activity middle next) (quiet : world.Quiet middle)
    (yields : middle.Yields origin functions next frames last) :
    world.Yields origin functions activity frames last := by
  obtain ⟨after, outcome, onward, mirrors, same, quiet'⟩ := yields
  exact ⟨after, outcome, comes.trans onward, mirrors, same, quiet.trans quiet'⟩

end World.Yields

namespace World.Mirrors

variable {world : World} {frames : List Frame} {last : Outcome}

/-- An application that is not refused yields what its argument evaluates to, if a run of the function
does. -/
theorem yields_of_memoized {number count : Nat} {callable : Callable} {key : Value}
    (mirrors : world.Mirrors origin functions)
    (sound : world.SoundAt ⟨.run (.apply (.memoized number) key), frames⟩)
    (made : origin[number]? = some callable) (exact : key.isExact = true)
    (free : Policy.perKey.blocks (Frame.keys number frames) key = false)
    (evaluates : Computation.Evaluates functions count (.apply callable key) last)
    (run : ∀ (identity : Nat) (code code' : Code) (place : Nat) (middle : World),
      callable = .plain identity code' → code.Mirrors origin code' →
      middle.Mirrors origin functions →
      middle.SoundAt ⟨.run (code key), .computing number key place :: frames⟩ →
      middle.Yields origin functions ⟨.run (code key), .computing number key place :: frames⟩
        (.computing number key place :: frames) last) :
    world.Yields origin functions ⟨.run (.apply (.memoized number) key), frames⟩ frames last := by
  rcases mirrors.apply sound made exact free with
    ⟨result, after, comes, mirrors', quiet, -, same⟩ |
    ⟨identity, code, code', place, middle, made', coded, comes, mirrors', quiet⟩
  · exact ⟨after, _, comes, mirrors', same count last evaluates, quiet⟩
  · obtain ⟨final, outcome, comes', mirrors'', same, quiet'⟩ :=
      run identity code code' place middle made' coded mirrors' (sound.of_comes comes)
    have evaluated : ∀ steps last', Computation.Evaluates functions steps (.apply callable key) last' →
        Outcome.Mirrors origin outcome last' := by
      intro steps last' evaluates'
      obtain ⟨-, rfl⟩ := evaluates.unique evaluates'
      exact same
    have ran := comes.trans comes'
    obtain ⟨after, settled, kept, quiet''⟩ :=
      mirrors''.settle (sound.of_comes ran) made exact ⟨last, same⟩ evaluated
    exact ⟨after, outcome, ran.trans settled, kept, same, (quiet.trans quiet').trans quiet''⟩

/-- Where the mirrored computation evaluates to an outcome, a run yields a mirror of it. -/
theorem yields {steps : Nat} {computation computation' : Computation}
    (mirrors : world.Mirrors origin functions) (sound : world.SoundAt ⟨.run computation, frames⟩)
    (mirrored : computation.Mirrors origin computation')
    (outlast : Frame.Outlast origin functions frames steps)
    (evaluates : computation'.Evaluates functions steps last) :
    world.Yields origin functions ⟨.run computation, frames⟩ frames last := by
  induction evaluates generalizing world frames computation with
  | finish reply =>
      cases mirrored with
      | finish exact => exact .of_outcome (.single rfl) mirrors (.of_reply exact)
  | give callable' =>
      cases mirrored with
      | plain run => exact .of_outcome (.single rfl) mirrors (.callable (.plain run))
      | memoized made => exact .of_outcome (.single rfl) mirrors (.callable (.memoized made))
  | @apply steps _ code' key last evaluates induction =>
      have shorter := outlast.mono (Nat.le_succ steps)
      cases mirrored with
      | apply given exact =>
          cases given with
          | @plain identity _ code _ run =>
              have stepped := Activity.Comes.run 0 world (.apply (.plain identity code) key) frames
              exact .head stepped (.refl world)
                (induction mirrors (sound.of_comes stepped) (run key exact) shorter)
          | memoized made =>
              have free := outlast.blocks_eq_false made exact (.apply evaluates)
              refine mirrors.yields_of_memoized sound made exact free (.apply evaluates) ?_
              intro identity code code'' place middle same coded mirrors' sound'
              cases same
              refine induction mirrors' sound' (coded key exact) (shorter.computing made exact ?_ place)
              intro count outcome evaluates'
              obtain ⟨rfl, -⟩ := evaluates'.unique (.apply evaluates)
              exact Nat.lt_succ_self steps
  | @bind steps more _ _ middle last reply _ replied _ first rest =>
      cases mirrored with
      | @bind first' _ next _ before onward =>
          have stepped := Activity.Comes.run 0 world (.bind first' next) frames
          obtain ⟨middle, outcome, comes, mirrors', same, quiet⟩ :=
            first mirrors (sound.of_comes stepped) before (outlast.bind next (by omega))
          obtain ⟨replied', exact⟩ := same.reply? replied
          have ran := (stepped.trans comes).trans (Outcome.next_bind replied' middle next frames)
          exact .head ran quiet
            (rest mirrors' (sound.of_comes ran) (onward reply exact) (outlast.mono (by omega)))
  | @pass steps _ _ _ _ induction =>
      cases mirrored with
      | @bind first' _ next _ before onward =>
          have stepped := Activity.Comes.run 0 world (.bind first' next) frames
          obtain ⟨middle, outcome, comes, mirrors', same, quiet⟩ :=
            induction mirrors (sound.of_comes stepped) before (outlast.bind next (Nat.le_succ steps))
          cases same with
          | callable given =>
              exact .head (stepped.trans comes) quiet
                (.of_outcome (.single rfl) mirrors' (.callable given))
  | @feed steps more _ argument _ last _ _ first rest =>
      cases mirrored with
      | @feed first' _ _ before exact =>
          have stepped := Activity.Comes.run 0 world (.feed first' argument) frames
          obtain ⟨middle, outcome, comes, mirrors', same, quiet⟩ :=
            first mirrors (sound.of_comes stepped) before (outlast.feed argument (by omega))
          cases same with
          | @callable callable _ given =>
              have fed : Activity.Comes 0 middle
                  ⟨.answer (.ok (.callable callable)), .feed argument :: frames⟩ middle
                  ⟨.run (.apply callable argument), frames⟩ := .single rfl
              have ran := (stepped.trans comes).trans fed
              exact .head ran quiet
                (rest mirrors' (sound.of_comes ran) (.apply given exact) (outlast.mono (by omega)))
  | @unfed steps _ argument _ reply _ replied induction =>
      cases mirrored with
      | @feed first' _ _ before exact =>
          have stepped := Activity.Comes.run 0 world (.feed first' argument) frames
          obtain ⟨middle, outcome, comes, mirrors', same, quiet⟩ :=
            induction mirrors (sound.of_comes stepped) before
              (outlast.feed argument (Nat.le_succ steps))
          have passed := Outcome.next_feed (same.reply? replied).1 middle argument frames
          exact .head (stepped.trans comes) quiet (.of_outcome passed mirrors' same)
  | @call steps name arguments _ _ induction =>
      cases mirrored with
      | call _ exact =>
          have stepped := Activity.Comes.run 0 world (.call name arguments) frames
          exact .head stepped (.refl world) (induction mirrors (sound.of_comes stepped)
            (mirrors_resolve mirrors.named name exact) (outlast.mono (Nat.le_succ steps)))
  | @note steps _ _ label arguments _ induction =>
      cases mirrored with
      | @note rest _ _ _ onward =>
          have stepped := Activity.Comes.run 0 world (.note label arguments rest) frames
          exact .head stepped ⟨[_], rfl, by simp⟩ (induction (mirrors.record _)
            (sound.of_comes stepped) onward (outlast.mono (Nat.le_succ steps)))
  | @fresh steps _ _ _ induction =>
      cases mirrored with
      | @fresh rest _ onward =>
          have stepped := Activity.Comes.run 0 world (.fresh rest) frames
          exact .head stepped ⟨[], rfl, by simp⟩ (induction ⟨mirrors.named, mirrors.made⟩
            (sound.of_comes stepped) (onward _ 0) (outlast.mono (Nat.le_succ steps)))

end World.Mirrors

/-! ## Runs that end -/

/-- A thread that comes to its end comes back to its frames before, with a mirror of an outcome, in
less than so many steps before the end. Where there are no caches the mirrored computation evaluates
to that outcome. -/
def World.Passes (origin : List Callable) (functions : List (String × FunctionValue))
    (world : World) (activity : Activity) (frames : List Frame) (mirrored : Computation)
    (steps : Nat) (after : World) (final : Outcome) : Prop :=
  ∃ rest middle outcome last, rest < steps ∧
    Activity.Comes 0 world activity middle ⟨.answer outcome, frames⟩ ∧
    Activity.proceed 0 rest middle ⟨.answer outcome, frames⟩ = some (after, ⟨.answer final, []⟩) ∧
    middle.Mirrors origin functions ∧ Outcome.Mirrors origin outcome last ∧
    (origin = [] → ∃ count, mirrored.Evaluates functions count last)

theorem World.Passes.head {world middle after : World} {activity next : Activity}
    {frames : List Frame} {mirrored mirrored' : Computation} {steps rest : Nat} {final : Outcome}
    (passes : middle.Passes origin functions next frames mirrored rest after final)
    (comes : Activity.Comes 0 world activity middle next) (fewer : rest < steps)
    (evaluates : origin = [] → ∀ count last, mirrored.Evaluates functions count last →
      ∃ more, mirrored'.Evaluates functions more last) :
    world.Passes origin functions activity frames mirrored' steps after final := by
  obtain ⟨rest', last, outcome, last', fewer', comes', onward, mirrors, same, evaluated⟩ := passes
  refine ⟨rest', last, outcome, last', by omega, comes.trans comes', onward, mirrors, same, ?_⟩
  intro empty
  obtain ⟨count, evaluates'⟩ := evaluated empty
  exact evaluates empty count last' evaluates'

namespace World.Mirrors

variable {world after : World} {frames : List Frame} {final : Outcome}

/-- An application of a memoized function comes back. If its argument does not evaluate, what is
stored for it is of no account. -/
theorem passes_of_memoized {number steps : Nat} {callable : Callable} {key : Value}
    (mirrors : world.Mirrors origin functions)
    (sound : world.SoundAt ⟨.run (.apply (.memoized number) key), frames⟩)
    (made : origin[number]? = some callable) (exact : key.isExact = true)
    (idle : ∀ count, Frame.Outlast origin functions frames count)
    (ended : Activity.proceed 0 steps world ⟨.run (.apply (.memoized number) key), frames⟩ =
      some (after, ⟨.answer final, []⟩))
    (run : ∀ (code code' : Code) (place rest : Nat) (middle : World), code.Mirrors origin code' →
      rest < steps → middle.Mirrors origin functions →
      middle.SoundAt ⟨.run (code key), .computing number key place :: frames⟩ →
      (∀ count, Frame.Outlast origin functions (.computing number key place :: frames) count) →
      Activity.proceed 0 rest middle ⟨.run (code key), .computing number key place :: frames⟩ =
        some (after, ⟨.answer final, []⟩) →
      middle.Passes origin functions ⟨.run (code key), .computing number key place :: frames⟩
        (.computing number key place :: frames) (code' key) rest after final) :
    world.Passes origin functions ⟨.run (.apply (.memoized number) key), frames⟩ frames
      (.apply callable key) steps after final := by
  have cached : origin ≠ [] := by
    rintro rfl
    cases made
  by_cases evaluates : ∃ count last,
      Computation.Evaluates functions count (.apply callable key) last
  · obtain ⟨count, last, evaluates⟩ := evaluates
    obtain ⟨middle, outcome, comes, mirrors', same, -⟩ :=
      mirrors.yields sound (.apply (.memoized made) exact) (idle count) evaluates
    obtain ⟨rest, fewer, onward⟩ := Activity.proceed_of_moved comes (by simp) ended
    exact ⟨rest, middle, outcome, last, fewer, comes, onward, mirrors', same,
      fun _ => ⟨count, evaluates⟩⟩
  · cases blocked : Policy.perKey.blocks (Frame.keys number frames) key with
    | true =>
        obtain ⟨cache, found, kept⟩ := mirrors.found made
        have begun := Activity.Comes.run 0 world (.apply (.memoized number) key) frames
        rw [← kept.policy] at blocked
        have comes := begun.trans
          (Activity.comes_of_blocked frames found ((sound.of_comes begun).seeking found) blocked)
        obtain ⟨rest, fewer, onward⟩ := Activity.proceed_of_moved comes (by simp) ended
        exact ⟨rest, _, _, _, fewer, comes, onward, mirrors.record _, .error rfl,
          fun empty => absurd empty cached⟩
    | false =>
        rcases mirrors.apply sound made exact blocked with
          ⟨result, middle, comes, mirrors', -, ⟨last, same⟩, -⟩ |
          ⟨identity, code, code', place, middle, -, coded, comes, mirrors', -⟩
        · obtain ⟨rest, fewer, onward⟩ := Activity.proceed_of_moved comes (by simp) ended
          exact ⟨rest, middle, _, last, fewer, comes, onward, mirrors', same,
            fun empty => absurd empty cached⟩
        · obtain ⟨rest, fewer, onward⟩ := Activity.proceed_of_moved comes (by simp) ended
          have idle' : ∀ count, Frame.Outlast origin functions
              (.computing number key place :: frames) count := by
            refine fun count => (idle count).computing made exact ?_ place
            exact fun count' outcome evaluates' => absurd ⟨count', outcome, evaluates'⟩ evaluates
          obtain ⟨rest', last, outcome, last', fewer', comes', onward', mirrors'', same, -⟩ :=
            run code code' place rest middle coded fewer mirrors' (sound.of_comes comes) idle' onward
          have ran := comes.trans comes'
          obtain ⟨last'', settled, kept, -⟩ :=
            mirrors''.settle (sound.of_comes ran) made exact ⟨last', same⟩
              fun count outcome evaluates' => absurd ⟨count, outcome, evaluates'⟩ evaluates
          obtain ⟨rest'', fewer'', onward''⟩ := Activity.proceed_of_moved settled (by simp) onward'
          exact ⟨rest'', last'', outcome, last', by omega, ran.trans settled, onward'', kept, same,
            fun empty => absurd empty cached⟩

/-- What comes first is passed and its reply is handed on. A callable is no reply and ends both. -/
theorem passes_of_bind {steps : Nat} {first first' : Computation} {next next' : Reply → Computation}
    (sound : world.SoundAt ⟨.run first, .bind next :: frames⟩)
    (before : world.Passes origin functions ⟨.run first, .bind next :: frames⟩
      (.bind next :: frames) first' steps after final)
    (run : ∀ (reply : Reply) (rest : Nat) (middle : World), reply.isExact = true → rest < steps →
      middle.Mirrors origin functions → middle.SoundAt ⟨.run (next reply), frames⟩ →
      Activity.proceed 0 rest middle ⟨.run (next reply), frames⟩ =
        some (after, ⟨.answer final, []⟩) →
      middle.Passes origin functions ⟨.run (next reply), frames⟩ frames (next' reply) rest after
        final) :
    world.Passes origin functions ⟨.run (.bind first next), frames⟩ frames (.bind first' next')
      (steps + 1) after final := by
  have stepped := Activity.Comes.run 0 world (.bind first next) frames
  obtain ⟨rest, middle, outcome, last, fewer, comes, onward, mirrors, same, evaluated⟩ := before
  rcases same.cases with ⟨reply, replied, replied', exact⟩ | ⟨callable, callable', rfl, rfl, given⟩
  · have handed := Outcome.next_bind replied middle next frames
    obtain ⟨rest', fewer', onward'⟩ := Activity.proceed_of_moved handed (by simp) onward
    have passes := run reply rest' middle exact (by omega) mirrors
      (sound.of_comes (comes.trans handed)) onward'
    refine passes.head ((stepped.trans comes).trans handed) (by omega) ?_
    intro empty count last' evaluates
    obtain ⟨count', evaluates'⟩ := evaluated empty
    exact ⟨_, .bind evaluates' replied' evaluates⟩
  · obtain ⟨rest', count, onward'⟩ := Activity.proceed_of_next rfl onward
    refine ⟨rest', middle, _, _, by omega, (stepped.trans comes).trans (.single rfl), onward',
      mirrors, .callable given, fun empty => ?_⟩
    obtain ⟨count', evaluates⟩ := evaluated empty
    exact ⟨_, .pass evaluates⟩

/-- What comes first is passed and its callable is applied. A reply is no callable and ends both. -/
theorem passes_of_feed {steps : Nat} {first first' : Computation} {argument : Value}
    (sound : world.SoundAt ⟨.run first, .feed argument :: frames⟩)
    (before : world.Passes origin functions ⟨.run first, .feed argument :: frames⟩
      (.feed argument :: frames) first' steps after final)
    (run : ∀ (callable callable' : Callable) (rest : Nat) (middle : World),
      callable.Mirrors origin callable' → rest < steps → middle.Mirrors origin functions →
      middle.SoundAt ⟨.run (.apply callable argument), frames⟩ →
      Activity.proceed 0 rest middle ⟨.run (.apply callable argument), frames⟩ =
        some (after, ⟨.answer final, []⟩) →
      middle.Passes origin functions ⟨.run (.apply callable argument), frames⟩ frames
        (.apply callable' argument) rest after final) :
    world.Passes origin functions ⟨.run (.feed first argument), frames⟩ frames
      (.feed first' argument) (steps + 1) after final := by
  have stepped := Activity.Comes.run 0 world (.feed first argument) frames
  obtain ⟨rest, middle, outcome, last, fewer, comes, onward, mirrors, same, evaluated⟩ := before
  rcases same.cases with ⟨reply, replied, replied', -⟩ | ⟨callable, callable', rfl, rfl, given⟩
  · have handed := Outcome.next_feed replied middle argument frames
    obtain ⟨rest', fewer', onward'⟩ := Activity.proceed_of_moved handed (by simp) onward
    refine ⟨rest', middle, outcome, last, by omega, (stepped.trans comes).trans handed, onward',
      mirrors, same, fun empty => ?_⟩
    obtain ⟨count, evaluates⟩ := evaluated empty
    exact ⟨_, .unfed evaluates replied'⟩
  · have fed : Activity.Comes 0 middle
        ⟨.answer (.ok (.callable callable)), .feed argument :: frames⟩ middle
        ⟨.run (.apply callable argument), frames⟩ := .single rfl
    obtain ⟨rest', count, onward'⟩ := Activity.proceed_of_next rfl onward
    have passes := run callable callable' rest' middle given (by omega) mirrors
      (sound.of_comes (comes.trans fed)) onward'
    refine passes.head ((stepped.trans comes).trans fed) (by omega) ?_
    intro empty count last' evaluates
    obtain ⟨count', evaluates'⟩ := evaluated empty
    exact ⟨_, .feed evaluates' evaluates⟩

/-- A run that ends comes back to its frames. -/
theorem passes {steps : Nat} {computation computation' : Computation}
    (mirrors : world.Mirrors origin functions) (sound : world.SoundAt ⟨.run computation, frames⟩)
    (mirrored : computation.Mirrors origin computation')
    (idle : ∀ count, Frame.Outlast origin functions frames count)
    (ended : Activity.proceed 0 steps world ⟨.run computation, frames⟩ =
      some (after, ⟨.answer final, []⟩)) :
    world.Passes origin functions ⟨.run computation, frames⟩ frames computation' steps after final := by
  induction steps using Nat.strongRecOn generalizing world frames computation computation' with
  | _ steps induction =>
      cases mirrored with
      | @finish reply exact =>
          obtain ⟨rest, count, onward⟩ := Activity.proceed_of_next rfl ended
          exact ⟨rest, world, _, _, by omega, .single rfl, onward, mirrors, .of_reply exact,
            fun _ => ⟨0, .finish reply⟩⟩
      | plain run =>
          obtain ⟨rest, count, onward⟩ := Activity.proceed_of_next rfl ended
          exact ⟨rest, world, _, _, by omega, .single rfl, onward, mirrors, .callable (.plain run),
            fun _ => ⟨0, .give _⟩⟩
      | memoized made =>
          obtain ⟨rest, count, onward⟩ := Activity.proceed_of_next rfl ended
          exact ⟨rest, world, _, _, by omega, .single rfl, onward, mirrors,
            .callable (.memoized made), fun _ => ⟨0, .give _⟩⟩
      | @apply _ _ key given exact =>
          cases given with
          | @plain identity _ code _ run =>
              obtain ⟨rest, count, onward⟩ := Activity.proceed_of_next rfl ended
              have stepped := Activity.Comes.run 0 world (.apply (.plain identity code) key) frames
              exact (induction rest (by omega) mirrors (sound.of_comes stepped) (run key exact) idle
                onward).head stepped (by omega)
                fun _ _ _ evaluates => ⟨_, .apply evaluates⟩
          | memoized made =>
              refine mirrors.passes_of_memoized sound made exact idle ended ?_
              intro code code' place rest middle coded fewer mirrors' sound' idle' onward
              exact induction rest fewer mirrors' sound' (coded key exact) idle' onward
      | @bind first first' next next' before mirrored' =>
          obtain ⟨rest, rfl, onward⟩ := Activity.proceed_of_next rfl ended
          have sound' := sound.of_comes (.run 0 world (.bind first next) frames)
          refine passes_of_bind sound'
            (induction rest (Nat.lt_succ_self rest) mirrors sound' before idle onward) ?_
          intro reply rest' middle exact fewer mirrors' sound'' onward'
          exact induction rest' (by omega) mirrors' sound'' (mirrored' reply exact) idle onward'
      | @feed first first' argument before exact =>
          obtain ⟨rest, rfl, onward⟩ := Activity.proceed_of_next rfl ended
          have sound' := sound.of_comes (.run 0 world (.feed first argument) frames)
          refine passes_of_feed sound'
            (induction rest (Nat.lt_succ_self rest) mirrors sound' before idle onward) ?_
          intro callable callable' rest' middle given fewer mirrors' sound'' onward'
          exact induction rest' (by omega) mirrors' sound'' (.apply given exact) idle onward'
      | @call arguments name exact =>
          obtain ⟨rest, count, onward⟩ := Activity.proceed_of_next rfl ended
          have stepped := Activity.Comes.run 0 world (.call name arguments) frames
          exact (induction rest (by omega) mirrors (sound.of_comes stepped)
            (mirrors_resolve mirrors.named name exact) idle onward).head stepped (by omega)
            fun _ _ _ evaluates => ⟨_, .call evaluates⟩
      | @note computation _ label arguments mirrored' =>
          obtain ⟨rest, count, onward⟩ := Activity.proceed_of_next rfl ended
          have stepped := Activity.Comes.run 0 world (.note label arguments computation) frames
          exact (induction rest (by omega) (mirrors.record _) (sound.of_comes stepped) mirrored' idle
            onward).head stepped (by omega)
                fun _ _ _ evaluates => ⟨_, .note label arguments evaluates⟩
      | @fresh computation _ mirrored' =>
          obtain ⟨rest, count, onward⟩ := Activity.proceed_of_next rfl ended
          have stepped := Activity.Comes.run 0 world (.fresh computation) frames
          have mirrors' : World.Mirrors origin functions
              { world with identities := world.identities + 1 } := ⟨mirrors.named, mirrors.made⟩
          exact (induction rest (by omega) mirrors' (sound.of_comes stepped) (mirrored' _ 0) idle
            onward).head stepped (by omega)
                fun _ _ _ evaluates => ⟨_, .fresh evaluates⟩

end World.Mirrors

end FunctionValues
