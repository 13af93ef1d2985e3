import FunctionValues.Proofs.Lockstep

/-!
# The two policies agree

A session of a single thread under two assignments of policies to its caches. If the run under the
first never applies a cache while the function behind it runs, the run under the second has the same
answers, the same calls, starts and ends, the same sizes of its caches and the same events, up to
what only tells which policy serves a cache.
-/

namespace FunctionValues

/-- An answer without what tells of the policy. -/
def Answer.erased : Answer → Answer
  | description known => .description { known with policy := known.policy.map fun _ => .default }
  | threads results entries => .threads results (entries.filterMap Entry.erased)
  | answer => answer

/-- Whether an answer has the log of its step in it. -/
def Answer.isThreads : Answer → Bool
  | threads .. => true
  | _ => false

/-- A report without what tells of the policy. -/
def Report.erased (report : Report) : Report where
  answer := report.answer.erased
  trace := report.trace.filterMap Entry.erased
  sizes := report.sizes

/-- Two transformations are the same, up to the policy of a cache. -/
inductive Transformation.Reassigned : Transformation → Transformation → Prop
  | same (transformation : Transformation) : Reassigned transformation transformation
  | memoize (policy policy' : Policy) (retention : Retention) :
      Reassigned (.memoize policy retention) (.memoize policy' retention)

theorem Transformation.Reassigned.type? {transformation transformation' : Transformation}
    (reassigned : transformation.Reassigned transformation') (shape : Shape) (kind : Kind) :
    transformation'.type? shape kind = transformation.type? shape kind := by
  cases reassigned with
  | same => rfl
  | memoize policy policy' retention => cases retention <;> cases kind <;> rfl

/-- Two steps are the same, up to the policy of a cache. -/
inductive Step.Reassigned : Step → Step → Prop
  | same (step : Step) : Reassigned step step
  | derive (target source : String) {transformation transformation' : Transformation}
      (reassigned : transformation.Reassigned transformation') (times : Nat) :
      Reassigned (.derive target source transformation times)
        (.derive target source transformation' times)

/-! ## Making functions -/

namespace World.Alike

variable {world other after : World}

theorem size? (alike : world.Alike other) (function : FunctionValue) :
    other.size? function = world.size? function := by
  obtain ⟨shape, kind, ⟨identity, code⟩ | number⟩ := function
  · rfl
  · simp only [World.size?, World.cache?]
    cases found : world.caches[number]? with
    | some cache =>
        obtain ⟨cache', found', same⟩ := alike.found found
        rw [found', Option.map_some, Option.map_some, same.agrees.size]
    | none =>
        have beyond := List.getElem?_eq_none_iff.mp found
        rw [alike.caches.length_eq] at beyond
        rw [List.getElem?_eq_none beyond]

theorem sizes (alike : world.Alike other) : other.sizes = world.sizes := by
  simp only [World.sizes, alike.functions, alike.size?]

theorem description (alike : world.Alike other) (function : FunctionValue) :
    (Answer.description (other.description function)).erased =
      (Answer.description (world.description function)).erased := by
  have known : ((other.cache? function.callable).map (·.storage.policy)).map (fun _ => Policy.default) =
      ((world.cache? function.callable).map (·.storage.policy)).map fun _ => Policy.default := by
    have size := alike.size? function
    simp only [World.size?] at size
    cases here : world.cache? function.callable <;> cases there : other.cache? function.callable <;>
      simp_all
  simp only [Answer.erased, World.description, alike.size?, known]

theorem create (alike : world.Alike other) (code : Code) :
    (other.create code).1 = (world.create code).1 ∧
      (world.create code).2.Alike (other.create code).2 := by
  refine ⟨by rw [World.create, World.create, alike.identities], ?_⟩
  exact ⟨alike.functions, alike.caches, congrArg (· + 1) alike.identities, alike.ticks, alike.log⟩

theorem define (alike : world.Alike other) (name : String) (function : FunctionValue) :
    (world.define name function).Alike (other.define name function) :=
  ⟨by rw [World.define, World.define, alike.functions], alike.caches, alike.identities, alike.ticks,
    alike.log⟩

theorem memoize (alike : world.Alike other) (policy policy' : Policy) (retention : Retention)
    (callable : Callable) :
    (other.memoize policy' retention callable).1 = (world.memoize policy retention callable).1 ∧
      (world.memoize policy retention callable).2.Alike
        (other.memoize policy' retention callable).2 := by
  cases callable with
  | memoized cache => exact ⟨rfl, alike⟩
  | plain identity code =>
      have length := alike.caches.length_eq
      refine ⟨by simp only [World.memoize, length], alike.functions, ?_, alike.identities,
        alike.ticks, ?_⟩
      · refine List.rel_append alike.caches (.cons ⟨rfl, rfl, ?_⟩ .nil)
        cases policy <;> cases policy' <;> exact ⟨fun _ => rfl, rfl⟩
      · simp [World.memoize, World.record, Entry.erased, Event.erased, alike.log, length]

theorem callable (alike : world.Alike other) {transformation transformation' : Transformation}
    (reassigned : transformation.Reassigned transformation') (source : Callable) :
    (transformation'.callable other source).1 = (transformation.callable world source).1 ∧
      (transformation.callable world source).2.Alike
        (transformation'.callable other source).2 := by
  cases reassigned with
  | memoize policy policy' retention => exact alike.memoize policy policy' retention source
  | same =>
      cases transformation with
      | clone => exact ⟨rfl, alike⟩
      | memoize policy retention => exact alike.memoize policy policy retention source
      | rewrap | tuple | fixFirst first | curry | reverse | coerce kind | andThen later
      | compose before => exact alike.create _

theorem repeated (alike : world.Alike other) {transformation transformation' : Transformation}
    (reassigned : transformation.Reassigned transformation') {times : Nat}
    {function result : FunctionValue}
    (performed : transformation.repeated times world function = some (result, after)) :
    ∃ after', transformation'.repeated times other function = some (result, after') ∧
      after.Alike after' := by
  induction times generalizing world other function with
  | zero =>
      obtain ⟨rfl, rfl⟩ : function = result ∧ world = after := by
        simpa [Transformation.repeated] using performed
      exact ⟨other, rfl, alike⟩
  | succ times induction =>
      simp only [Transformation.repeated, Transformation.perform, Option.bind_eq_bind,
        Option.bind_eq_some_iff, Option.some.injEq, Prod.exists] at performed ⊢
      obtain ⟨middle, world', ⟨shape, kind, type, made⟩, rest⟩ := performed
      cases made
      obtain ⟨same, alike'⟩ := alike.callable reassigned function.callable
      obtain ⟨after', rest', last⟩ := induction alike' rest
      refine ⟨after', ⟨_, _, ⟨shape, kind, ?_, rfl⟩, ?_⟩, last⟩
      · rw [reassigned.type?, type]
      · rw [same, rest']

theorem function? (alike : world.Alike other) (name : String) :
    other.function? name = world.function? name := by
  simp only [World.function?, alike.functions]

theorem require (alike : world.Alike other) (name : String) :
    other.require name = world.require name := by
  rw [World.require, World.require, alike.function?]

theorem derive (alike : world.Alike other) {transformation transformation' : Transformation}
    (reassigned : transformation.Reassigned transformation') {target source : String} {times : Nat}
    {answer : Answer}
    (derived : world.derive target source transformation times = .ok (answer, after)) :
    ∃ after', other.derive target source transformation' times = .ok (answer, after') ∧
      after.Alike after' := by
  simp only [World.derive, Refusal.bind_eq_ok, Refusal.unlessSome_eq_ok, Except.ok.injEq,
    Prod.exists, alike.require] at derived ⊢
  obtain ⟨function, found, result, middle, performed, made⟩ := derived
  cases made
  obtain ⟨middle', performed', alike'⟩ := alike.repeated reassigned performed
  exact ⟨_, ⟨function, found, result, middle', performed', rfl⟩, alike'.define target result⟩

theorem introduceCode (alike : world.Alike other) (target : String) (shape : Shape) (kind : Kind)
    (code : Code) :
    (other.introduceCode target shape kind code).1 = (world.introduceCode target shape kind code).1 ∧
      (world.introduceCode target shape kind code).2.Alike
        (other.introduceCode target shape kind code).2 := by
  obtain ⟨same, alike'⟩ := alike.create code
  refine ⟨by simp only [World.introduceCode, World.introduce, same], ?_⟩
  simp only [World.introduceCode, World.introduce, same]
  exact alike'.define ..

/-- A step that runs nothing has the same answer, up to the policy. -/
theorem perform (alike : world.Alike other) {step step' : Step} (reassigned : step.Reassigned step')
    (still : step.runs = false) {limit : Nat} {answer : Answer}
    (performed : world.perform limit step = .ok (answer, after)) :
    ∃ answer' after', (∀ limit, other.perform limit step' = .ok (answer', after')) ∧
      answer'.erased = answer.erased ∧ after.Alike after' := by
  cases reassigned with
  | derive target source reassigned times =>
      obtain ⟨after', derived, alike'⟩ := alike.derive reassigned performed
      exact ⟨answer, after', fun _ => derived, rfl, alike'⟩
  | same =>
      cases step with
      | apply source arguments target | map source arguments | threads source arguments =>
          cases still
      | define target definition =>
          obtain ⟨same, alike'⟩ := alike.introduceCode target definition.shape definition.kind
            definition.code
          cases performed
          exact ⟨_, _, fun _ => rfl, congrArg Answer.erased same, alike'⟩
      | identity target =>
          obtain ⟨same, alike'⟩ := alike.introduceCode target .one .plain Code.identity
          cases performed
          exact ⟨_, _, fun _ => rfl, congrArg Answer.erased same, alike'⟩
      | constant target kind value =>
          obtain ⟨same, alike'⟩ := alike.introduceCode target .one kind
            (Code.constant (kind.coerce value))
          cases performed
          exact ⟨_, _, fun _ => rfl, congrArg Answer.erased same, alike'⟩
      | derive target source transformation times =>
          obtain ⟨after', derived, alike'⟩ := alike.derive (.same _) performed
          exact ⟨answer, after', fun _ => derived, rfl, alike'⟩
      | andThen target source later | compose target source before =>
          simp only [World.perform, Refusal.bind_eq_ok, alike.require] at performed ⊢
          obtain ⟨function, found, derived⟩ := performed
          obtain ⟨after', derived', alike'⟩ := alike.derive (.same _) derived
          exact ⟨answer, after', fun _ => ⟨function, found, derived'⟩, rfl, alike'⟩
      | tryAndThen target source later =>
          cases later with
          | some later =>
              simp only [World.perform, Refusal.bind_eq_ok, alike.require] at performed ⊢
              obtain ⟨function, found, derived⟩ := performed
              obtain ⟨after', derived', alike'⟩ := alike.derive (.same _) derived
              exact ⟨answer, after', fun _ => ⟨function, found, derived'⟩, rfl, alike'⟩
          | none =>
              simp only [World.perform, Refusal.bind_eq_ok, alike.require] at performed ⊢
              obtain ⟨function, found, answered⟩ := performed
              split at answered <;> cases answered
              next full => exact ⟨_, other, fun _ => ⟨function, found, if_neg full⟩, rfl, alike⟩
      | describe source =>
          simp only [World.perform, Refusal.bind_eq_ok, alike.require] at performed ⊢
          obtain ⟨function, found, answered⟩ := performed
          cases answered
          exact ⟨_, other, fun _ => ⟨function, found, rfl⟩, alike.description function, alike⟩
      | compare left right =>
          simp only [World.perform, Refusal.bind_eq_ok, alike.require] at performed ⊢
          obtain ⟨function, found, function', found', answered⟩ := performed
          split at answered <;> cases answered
          next comparable =>
            exact ⟨_, other, fun _ => ⟨function, found, function', found', if_pos comparable⟩, rfl,
              alike⟩

/-! ## Running functions -/

variable {function : FunctionValue} {outcome : Outcome} {answer : Answer}

theorem ends (alike : world.Alike other) (sound : world.IsSound) (sound' : other.IsSound)
    {computation : Computation} (ends : world.Ends 0 computation after outcome)
    (straight : Entry.Straight after.log) :
    ∃ after', other.Ends 0 computation after' outcome ∧ after.Alike after' := by
  obtain ⟨steps, ended⟩ := ends
  exact Activity.Alike.comes alike (.run computation .nil) (sound.soundAt computation)
    (sound'.soundAt computation) ended straight

theorem endAll (alike : world.Alike other) (sound : world.IsSound) (sound' : other.IsSound)
    {computations : List Computation} {outcomes : List Outcome}
    (endAll : world.EndAll 0 computations after outcomes) (straight : Entry.Straight after.log) :
    ∃ after', other.EndAll 0 computations after' outcomes ∧ after.Alike after' := by
  induction endAll generalizing other with
  | nil world => exact ⟨other, .nil other, alike⟩
  | @cons world middle after computation computations outcome outcomes first rest induction =>
      obtain ⟨middle', first', alike'⟩ :=
        alike.ends sound sound' first (straight.of_suffix rest.log)
      obtain ⟨after', rest', last⟩ :=
        induction alike' (first.isSound sound) (first'.isSound sound') straight
      exact ⟨after', .cons first' rest', last⟩

theorem applies (alike : world.Alike other) (sound : world.IsSound) (sound' : other.IsSound)
    {arguments : List (List Value)} {replies : List Reply}
    (applies : world.Applies function arguments after replies)
    (straight : Entry.Straight after.log) :
    ∃ after', other.Applies function arguments after' replies ∧ after.Alike after' := by
  obtain ⟨computations, outcomes, invoked, endAll, replied⟩ := applies
  obtain ⟨after', endAll', alike'⟩ := alike.endAll sound sound' endAll straight
  exact ⟨after', ⟨computations, outcomes, invoked, endAll', replied⟩, alike'⟩

/-- What was added to the logs of alike worlds is the same, up to the policy. -/
theorem entriesSince {after' : World} (alike : world.Alike other) (alike' : after.Alike after')
    (grown : world.log <:+ after.log) (grown' : other.log <:+ after'.log) :
    (after'.entriesSince other).filterMap Entry.erased =
      (after.entriesSince world).filterMap Entry.erased := by
  obtain ⟨added, split⟩ := grown
  obtain ⟨added', split'⟩ := grown'
  have same : added'.filterMap Entry.erased = added.filterMap Entry.erased := by
    have logs := alike'.log
    rw [← split, ← split', List.filterMap_append, List.filterMap_append, alike.log] at logs
    exact List.append_cancel_right logs
  simp only [World.entriesSince, ← split, ← split', List.length_append, Nat.add_sub_cancel,
    List.take_left, List.filterMap_reverse, Entry.filterMap_erased_filter, same]

theorem performs (alike : world.Alike other) (sound : world.IsSound) (sound' : other.IsSound)
    {step step' : Step} (reassigned : step.Reassigned step')
    (performs : world.Performs step answer after) (straight : Entry.Straight after.log) :
    ∃ answer' after', other.Performs step' answer' after' ∧ answer'.erased = answer.erased ∧
      after.Alike after' := by
  cases performs with
  | rest still performed =>
      obtain ⟨answer', after', performed', same, alike'⟩ :=
        alike.perform reassigned still (performed 0)
      have still' : step'.runs = false := by
        cases reassigned with
        | same => exact still
        | derive => rfl
      exact ⟨answer', after', .rest still' performed', same, alike'⟩
  | apply found full applies =>
      cases reassigned
      obtain ⟨after', applies', alike'⟩ := alike.applies sound sound' applies straight
      exact ⟨_, after', .apply (alike.function? _ ▸ found) full applies', rfl, alike'⟩
  | map found applies =>
      cases reassigned
      obtain ⟨after', applies', alike'⟩ := alike.applies sound sound' applies straight
      exact ⟨_, after', .map (alike.function? _ ▸ found) applies', rfl, alike'⟩
  | thread found applies =>
      cases reassigned
      obtain ⟨after', applies', alike'⟩ := alike.applies sound sound' applies straight
      refine ⟨_, after', .thread (alike.function? _ ▸ found) applies', ?_, alike'⟩
      simp only [Answer.erased, alike.entriesSince alike' applies.log applies'.log]
  | idle found =>
      cases reassigned
      exact ⟨_, other, .idle (alike.function? _ ▸ found), rfl, alike⟩
  | fail found curried ends =>
      cases reassigned
      obtain ⟨after', ends', alike'⟩ := alike.ends sound sound' ends straight
      exact ⟨_, after', .fail (alike.function? _ ▸ found) curried ends', rfl, alike'⟩
  | supply found curried ends =>
      cases reassigned
      obtain ⟨after', ends', alike'⟩ := alike.ends sound sound' ends straight
      exact ⟨_, _, .supply (alike.function? _ ▸ found) curried ends', rfl, alike'.define ..⟩

/-! ## Sessions -/

theorem seen {after' : World} {answer' : Answer} (alike : world.Alike other)
    (alike' : after.Alike after') (same : answer'.erased = answer.erased)
    (grown : world.log <:+ after.log) (grown' : other.log <:+ after'.log) :
    (other.seen answer' after').erased = (world.seen answer after).erased := by
  have trace : ∀ (world after : World) (answer : Answer), (world.seen answer after).trace =
      if answer.erased.isThreads then [] else after.entriesSince world := by
    intro world after answer
    cases answer <;> rfl
  simp only [Report.erased, trace, Report.mk.injEq]
  refine ⟨same, ?_, alike'.sizes⟩
  rw [same]
  split
  · rfl
  · exact alike.entriesSince alike' grown grown'

theorem performsAll (alike : world.Alike other) (sound : world.IsSound) (sound' : other.IsSound)
    {steps steps' : List Step} {reports : List Report}
    (reassigned : List.Forall₂ Step.Reassigned steps steps')
    (performs : world.PerformsAll steps reports after) (straight : Entry.Straight after.log) :
    ∃ reports' after', other.PerformsAll steps' reports' after' ∧
      reports'.map Report.erased = reports.map Report.erased ∧ after.Alike after' := by
  induction performs generalizing other steps' with
  | nil world =>
      cases reassigned
      exact ⟨[], other, .nil other, rfl, alike⟩
  | @cons world middle after step steps answer reports first rest induction =>
      cases reassigned with
      | @cons _ step' _ steps' changed reassigned =>
          obtain ⟨answer', middle', first', same, alike'⟩ :=
            alike.performs sound sound' changed first (straight.of_suffix rest.log)
          obtain ⟨reports', after', rest', others, last⟩ :=
            induction alike' (first.isSound sound) (first'.isSound sound') reassigned straight
          refine ⟨_, after', .cons first' rest', ?_, last⟩
          rw [List.map_cons, List.map_cons, others,
            alike.seen alike' same first.log first'.log]

end World.Alike

namespace World

/-- A session that applies the memoized identity twice to the same argument. -/
def identityTwice (policy : Policy) : List Step :=
  [.identity "identity", .derive "memoized" "identity" (.memoize policy .all) 1,
    .apply "memoized" [.int 1] none, .apply "memoized" [.int 1] none]

/-- Two assignments of policies to the caches of a session of a single thread. If the run under the
first never applies a cache while the function behind it runs, then under the second every step has
the same answer, up to the policy that it reports; the functions behind the caches start and end in
the same order, for the same arguments and with the same outcomes; the caches have the same sizes
after every step; and the log is the same, up to policies, numbers of entries and the removal of
slots. -/
theorem policies_agree {limit : Nat} {steps steps' : List Step} {reports : List Report}
    {world : World} (single : ∀ step ∈ steps, step.width ≤ 1)
    (reassigned : List.Forall₂ Step.Reassigned steps steps')
    (performed : World.session {} limit steps = .ok (reports, world))
    (straight : Entry.Straight world.log) :
    ∃ enough reports' world',
      (∀ limit', enough ≤ limit' → World.session {} limit' steps' = .ok (reports', world')) ∧
      reports'.map Report.erased = reports.map Report.erased ∧
      world'.log.filterMap Entry.erased = world.log.filterMap Entry.erased ∧
      world'.caches.map (·.storage.size) = world.caches.map (·.storage.size) := by
  have alike : World.Alike {} {} := ⟨rfl, .nil, rfl, rfl, rfl⟩
  obtain ⟨reports', world', performs, reported, last⟩ :=
    alike.performsAll isSound_empty isSound_empty reassigned
      (performsAll_of_session single performed) straight
  obtain ⟨enough, sufficient⟩ := session_of_performsAll performs
  refine ⟨enough, reports', world', sufficient, reported, last.log, ?_⟩
  have sizes : List.Forall₂ (fun cache other : Cache => cache.storage.size = other.storage.size)
      world'.caches world.caches := last.caches.flip.imp fun _ _ same => same.agrees.size
  exact List.forall₂_eq_eq_eq ▸ List.forall₂_map_left_iff.mpr (List.forall₂_map_right_iff.mpr sizes)

/-- The memoized identity applied twice, first under one lock and then under one for each argument. -/
theorem policies_agree_identityTwice :
    ∃ reports world, World.session {} 100 (identityTwice .global) = .ok (reports, world) ∧
      Entry.Straight world.log ∧ ∃ enough reports' world',
        (∀ limit', enough ≤ limit' →
          World.session {} limit' (identityTwice .perKey) = .ok (reports', world')) ∧
        reports'.map Report.erased = reports.map Report.erased := by
  have log : (World.session {} 100 (identityTwice .global)).map (·.2.log) =
      .ok [.event 0 (some (.int 1)) (.hit .global), .event 0 (some (.int 1)) (.stored (some 1)),
        .ended 0 (.int 1) (.ok (.value (.int 1))), .started 0 (.int 1),
        .event 0 (some (.int 1)) (.miss .global), .event 0 none (.created .global)] := rfl
  cases performed : World.session {} 100 (identityTwice .global) with
  | error refusal =>
      rw [performed] at log
      cases log
  | ok ended =>
      obtain ⟨reports, world⟩ := ended
      rw [performed] at log
      replace log := Except.ok.inj log
      have straight : Entry.Straight world.log := by
        intro cache key event earlier suffix answers argument other
        rw [show world.log = _ from log] at suffix
        simp only [List.suffix_cons_iff, List.suffix_nil, List.cons.injEq, Entry.event.injEq,
          Option.some.injEq, reduceCtorEq, false_and, and_false, false_or, or_false] at suffix
        obtain ⟨⟨rfl, rfl, rfl⟩, rfl⟩ | ⟨⟨rfl, rfl, rfl⟩, rfl⟩ | ⟨⟨rfl, rfl, rfl⟩, rfl⟩ := suffix
        · by_cases equal : (Value.int 1).same argument = true <;>
            simp [Entry.mark?, Mark.last?, Mark.key, equal]
        · cases answers
        · simp [Entry.mark?, Mark.last?]
      have single : ∀ step ∈ identityTwice .global, step.width ≤ 1 := by
        simp [identityTwice, Step.width]
      have reassigned : List.Forall₂ Step.Reassigned (identityTwice .global)
          (identityTwice .perKey) :=
        .cons (.same _) (.cons (.derive _ _ (.memoize ..) _)
          (.cons (.same _) (.cons (.same _) .nil)))
      obtain ⟨enough, reports', world', sufficient, reported, -⟩ :=
        policies_agree single reassigned performed straight
      exact ⟨reports, world, rfl, straight, enough, reports', world', sufficient, reported⟩

end World

end FunctionValues
