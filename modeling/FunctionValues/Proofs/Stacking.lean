import FunctionValues.Proofs.Routing

/-!
# Caches behind one another

A program of a single thread in which a cache keeps the results of a function that was derived from
the memoized function of another cache, by transformations that route the arguments and follow the
result. Whatever the outer cache has stored for an argument, the inner one has a result for what that
is routed to. To find a result in the outer cache is to run nothing, and to miss one is to apply the
inner function once.
-/

namespace FunctionValues

/-- On the way to the application of a memoized function, in it as long as it has stored nothing, or
failing. -/
inductive Activity.Approaches (number : Nat) (target : Value) : Activity → Prop
  | heading {legs later : List Leg} {computation : Computation} {waits : List Frame}
      (heads : computation.Heads number target legs) (relays : Frame.Relays later waits) :
      Approaches number target ⟨.run computation, waits⟩
  | applying {later : List Leg} {stage : Stage} {waits : List Frame}
      (unanswered : ∀ result, stage.ending? ≠ some (.ok result)) (relays : Frame.Relays later waits) :
      Approaches number target ⟨.applying number target stage, waits⟩
  | within {later : List Leg} (focus : Focus) (inner : List Frame) (place : Nat) {waits : List Frame}
      (relays : Frame.Relays later waits) :
      Approaches number target ⟨focus, inner ++ .computing number target place :: waits⟩
  | failed {later : List Leg} {failure : Failure} {waits : List Frame}
      (relays : Frame.Relays later waits) :
      Approaches number target ⟨.answer (.error failure), waits⟩
  | failing {later : List Leg} {failure : Failure} {waits : List Frame}
      (relays : Frame.Relays later waits) :
      Approaches number target ⟨.run (.finish (.error failure)), waits⟩

namespace System

variable {limit number : Nat} {thread : Thread} {system after : System} {world : World}
  {cache : Cache} {key target : Value} {result : Result} {frames outer : List Frame}
  {activity next : Activity}

/-! ## Applications that find a result -/

/-- A thread is at an application, and at nothing that this runs: it begins, is at a stage, or is
back. -/
def AtStages (system : System) (thread : Thread) (number : Nat) (key : Value) (frames : List Frame) :
    Prop :=
  system.At thread ⟨.run (.apply (.memoized number) key), frames⟩ ∨
    (∃ stage, system.At thread ⟨.applying number key stage, frames⟩) ∨
    ∃ outcome, system.At thread ⟨.answer outcome, frames⟩

/-- An application to an argument for which a result is stored runs nothing. -/
theorem During.atStages (reached : system.Reached limit) (stores : system.Stores number key result)
    (begun : system.At thread ⟨.run (.apply (.memoized number) key), frames⟩)
    (during : During limit thread frames system after) :
    after.AtStages thread number key frames := by
  induction during with
  | refl => exact .inl begun
  | @tail middle after before step induction =>
      obtain ⟨happens, inside⟩ := step
      have reached' : middle.Reached limit := Relation.ReflTransGen.trans reached (During.reaches before)
      obtain ⟨cache, found, stored⟩ := (stores.of_reaches reached.sound (During.reaches before)).1
      rcases induction with at' | ⟨stage, at'⟩ | ⟨outcome, at'⟩
      · rcases at'.of_happens happens with stepped | still
        · exact .inr (.inl ⟨_, (at'.eq_of_progress stepped rfl).2⟩)
        · exact .inl still
      · rcases at'.of_happens happens with stepped | still
        · rcases at'.advance found stepped with ⟨_, _, next, -, there, -⟩ | ⟨place, rfl, -⟩ |
            ⟨_, outcome, -, there, -⟩
          · exact .inr (.inl ⟨next, there⟩)
          · -- A run starts only where nothing is stored.
            have sound := reached'.sound.present found
            have missing := sound.guarded.missing at'.mem_phases rfl
            rw [sound.find?_eq_stored? at'.mem_phases rfl, stored] at missing
            cases missing
          · exact .inr (.inr ⟨outcome, there⟩)
        · exact .inr (.inl ⟨stage, still⟩)
      · rcases at'.of_happens happens with stepped | still
        · exact absurd inside (at'.leaves stepped)
        · exact .inr (.inr ⟨outcome, still⟩)

/-! ## Applications on the way -/

/-- A step of an application of the inner function. -/
private theorem approaches_of_applying {stage : Stage} {later : List Leg} {waits : List Frame}
    (reached : system.Reached 1)
    (keeps : ∀ cache, system.world.caches[number]? = some cache → cache.retention = .all)
    (at' : system.At 0 ⟨.applying number target stage, waits ++ outer⟩)
    (stepped : system.step 0 = some after)
    (progress : Activity.next 0 system.world ⟨.applying number target stage, waits⟩ =
      .step world next)
    (now : after.world = world) (unanswered : ∀ result, stage.ending? ≠ some (.ok result))
    (relays : Frame.Relays later waits) :
    (∃ result, after.Stores number target result) ∨ next.Approaches number target := by
  obtain ⟨cache, found⟩ : ∃ cache, system.world.caches[number]? = some cache := by
    cases found : system.world.caches[number]? with
    | none => simp [Activity.next, found] at progress
    | some cache => exact ⟨cache, rfl⟩
  have sound := reached.sound.present found
  simp only [Activity.next, found] at progress
  cases moved : cache.storage.advance cache.retention 0 target stage with
  | wait => simp [moved, Move.progress] at progress
  | compute storage place =>
      simp only [moved, Move.progress, Progress.step.injEq] at progress
      obtain ⟨-, rfl⟩ := progress
      exact .inr (.within _ [] place relays)
  | finish storage outcome =>
      obtain ⟨place, rfl, -⟩ := Storage.eq_drop_of_finish moved
      simp only [moved, Move.progress, Progress.step.injEq] at progress
      obtain ⟨-, rfl⟩ := progress
      cases outcome with
      | error failure => exact .inr (.failed relays)
      | ok result => exact absurd rfl (unanswered result)
  | go storage event following =>
      simp only [moved, Move.progress, Progress.step.injEq] at progress
      obtain ⟨same, rfl⟩ := progress
      cases ends : stage.ending? with
      | some outcome =>
          refine .inr (.applying (fun result => ?_) relays)
          rw [(Storage.ending?_of_go ends moved).1, ← ends]
          exact unanswered result
      | none =>
          cases Storage.goes_of_go moved with
          | @hit place result here =>
              rw [sound.find?_eq_stored? at'.mem_phases rfl] at here
              have stores : system.Stores number target result := ⟨cache, found, here⟩
              have happens : Happens 1 system after := .step 0 stepped
              exact .inl ⟨result, (stores.of_happens reached.sound happens).1⟩
          | @stored result place keeps =>
              refine .inl ⟨result, { cache with storage := cache.storage.insert place target result },
                ?_, ?_⟩
              · rw [now, ← same]
                exact World.caches_amend found _ [_]
              · change (cache.storage.insert place target result).stored? target = some result
                rw [sound.stored?_insert at'.mem_phases rfl, if_pos (Value.same_refl target)]
          | notRetained place passing =>
              rw [keeps cache found] at passing
              cases passing
          | passed place outcome flat cleans =>
              rcases cleans with rfl | rfl | rfl | rfl <;> cases ends
          | sought | refused | admitted | latched | missed | settled | failed =>
              exact .inr (.applying (fun result same => by cases same) relays)
          | unlatched | entered | unshared | shared | removed | spared | left => cases ends

/-- A step of a thread on its way to an application of the inner function, or in it. -/
private theorem approaches_of_next (reached : system.Reached 1)
    (keeps : ∀ cache, system.world.caches[number]? = some cache → cache.retention = .all)
    (at' : system.At 0 (activity.within outer)) (stepped : system.step 0 = some after)
    (progress : activity.next 0 system.world = .step world next) (now : after.world = world)
    (approaches : activity.Approaches number target) :
    (∃ result, after.Stores number target result) ∨ next.Approaches number target := by
  cases approaches with
  | heading heads relays =>
      cases heads with
      | apply =>
          cases progress
          exact .inr (.applying (fun result same => by cases same) relays)
      | code heads =>
          cases progress
          exact .inr (.heading heads relays)
      | bind heads handsOn follows =>
          cases progress
          exact .inr (.heading heads (.bind handsOn follows relays))
  | applying unanswered relays =>
      exact approaches_of_applying reached keeps at' stepped progress now unanswered relays
  | @within later focus inner place waits relays =>
      by_cases ended : ∃ outcome, (⟨focus, inner⟩ : Activity) = ⟨.answer outcome, []⟩
      · obtain ⟨outcome, same⟩ := ended
        cases same
        rw [List.nil_append, Activity.next_answer_computing] at progress
        cases progress
        exact .inr (.applying (fun result same => by cases same) relays)
      · rw [not_exists] at ended
        change Activity.next 0 system.world (Activity.within
          (.computing number target place :: waits) ⟨focus, inner⟩) = _ at progress
        rw [Activity.next_within _ ended] at progress
        cases inside : Activity.next 0 system.world ⟨focus, inner⟩ with
        | step world following =>
            rw [inside] at progress
            simp only [Progress.within, Progress.step.injEq] at progress
            obtain ⟨-, rfl⟩ := progress
            exact .inr (.within following.focus following.frames place relays)
        | wait | done outcome =>
            rw [inside] at progress
            cases progress
  | @failed _ failure _ relays =>
      cases relays with
      | nil => cases progress
      | bind handsOn follows outer =>
          rw [Activity.next_of_handsOn (handsOn failure)] at progress
          cases progress
          exact .inr (.failing outer)
  | failing relays =>
      cases progress
      exact .inr (.failed relays)

/-! ## Runs of the outer function -/

/-- The cache of a number keeps every result, if there is one. -/
def KeepsAll (world : World) (number : Nat) : Prop :=
  ∀ cache, world.caches[number]? = some cache → cache.retention = .all

theorem Happens.keepsAll (happens : Happens limit system after)
    (keeps : KeepsAll after.world number) : KeepsAll system.world number := by
  intro cache found
  obtain ⟨storage, kept, -⟩ := happens.caches found
  exact keeps { cache with storage := storage } kept

theorem Makes.keepsAll {made : World} (makes : world.Makes made) (keeps : KeepsAll made number) :
    KeepsAll world number :=
  fun cache found => keeps cache (makes.caches found)

variable {inner : Nat} {links : List Transformation} {derived : Callable}

/-- Something is stored in the inner cache for what an argument is routed to. -/
def StoresRouted (world : World) (inner : Nat) (links : List Transformation) (key : Value) : Prop :=
  ∃ result, System.Stores ⟨world, []⟩ inner (Transformation.routed links key) result

theorem Happens.storesRouted (happens : Happens limit system after) (reached : system.Reached limit)
    (stores : StoresRouted system.world inner links key) :
    StoresRouted after.world inner links key := by
  obtain ⟨result, stores⟩ := stores
  have stores : system.Stores inner (Transformation.routed links key) result := stores
  exact ⟨result, (stores.of_happens reached.sound happens).1⟩

/-- A run of the outer function is on its way to the inner one for the routed argument, or something
is stored there. -/
theorem approaches_invariant (chain : (Callable.memoized inner).Chain links derived)
    (routing : ∀ link ∈ links, link.isRouting = true) (number : Nat) :
    RunInvariant number derived fun world key activity => KeepsAll world inner →
      StoresRouted world inner links key ∨
        activity.Approaches inner (Transformation.routed links key) where
  start world key _ := .inr (.heading (chain.heads routing key) .nil)
  step {system after key _ _ activity next} reached at' stepped progress before keeps := by
    have happens : Happens 1 system after := .step 0 stepped
    rcases before (happens.keepsAll keeps) with stores | approaches
    · exact .inl (happens.storesRouted reached stores)
    · have moved := approaches_of_next reached (happens.keepsAll keeps) at' stepped progress rfl
        approaches
      exact moved
  make {world made key activity} makes before keeps := by
    refine (before (Makes.keepsAll makes keeps)).imp ?_ id
    rintro ⟨result, cache, found, stored⟩
    exact ⟨result, cache, makes.caches found, stored⟩

/-- A run of the outer function that ends with a result has left one in the inner cache. -/
def LeavesRouted (inner : Nat) (links : List Transformation) (world : World) (key : Value)
    (outcome : Outcome) : Prop :=
  KeepsAll world inner → ∀ result, outcome = .ok result → StoresRouted world inner links key

/-- Whatever the outer cache has stored, the inner one has a result for what that is routed to. -/
theorem stores_of_routed {base stacked : Cache} {number : Nat} (reached : system.Reached 1)
    (chain : (Callable.memoized inner).Chain links stacked.underlying)
    (routing : ∀ link ∈ links, link.isRouting = true)
    (found : system.world.caches[number]? = some stacked)
    (found' : system.world.caches[inner]? = some base) (keeps : base.retention = .all)
    (stored : stacked.storage.stored? key = some result) :
    ∃ result', base.storage.stored? (Transformation.routed links key) = some result' := by
  have all : KeepsAll system.world inner := by
    intro cache present
    rw [found', Option.some.injEq] at present
    exact present ▸ keeps
  have told : ∃ argument, argument.same key = true ∧
      LeavesRouted inner links system.world argument (.ok result) := by
    refine (approaches_invariant chain routing number).of_stored ?_ ?_ reached found rfl stored
    · intro system key outcome place outer _ _ holds keeps result same
      subst same
      refine (holds keeps).resolve_right fun approaches => ?_
      generalize arrived : (⟨.answer (.ok result), []⟩ : Activity) = activity at approaches
      cases approaches with
      | heading | applying | failed | failing => cases arrived
      | within focus inner place =>
          have lengths := congrArg (·.frames.length) arrived
          simp at lengths
    · intro system after key outcome reached happens told keeps result same
      exact happens.storesRouted reached (told (happens.keepsAll keeps) result same)
  obtain ⟨argument, equal, stores⟩ := told
  obtain ⟨result', cache, present, stored'⟩ := stores all result rfl
  obtain rfl : base = cache := Option.some.inj (found'.symm.trans present)
  refine ⟨result', ?_⟩
  rw [← base.storage.stored?_congr (Transformation.routed_same links equal)]
  exact stored'

/-! ## The two caches -/

/-- In a program of a single thread, whatever it applies, makes and catches: a cache keeps all results
of a function, and another cache keeps results of a function that a chain of cloning, wrapping anew,
exchanging the arguments, taking them as a pair, fixing the first and following made of the memoized
one. At every moment, for every argument that something is stored for in the outer cache, something is
stored in the inner one for what the chain routes it to. An application of the outer function to an
argument that something is stored for runs nothing at any moment until it is back, with that result
unless a cache with one lock refuses it. One that misses comes to an application of the inner function
to what the argument is routed to, and nothing else happens before that; what the inner function comes
back with is taken through the functions that follow in the chain, in turn, or handed on if it is no
value. If something is stored for what the argument is routed to, the application of the inner
function runs nothing either. -/
theorem stacked_caches_consistent {inner outer : Nat} {base stacked : Cache}
    {links : List Transformation} (reached : system.Reached 1)
    (found : system.world.caches[inner]? = some base) (keeps : base.retention = .all)
    (found' : system.world.caches[outer]? = some stacked)
    (chain : (Callable.memoized inner).Chain links stacked.underlying)
    (routing : ∀ link ∈ links, link.isRouting = true) :
    (∀ key result, stacked.storage.stored? key = some result →
      ∃ result', base.storage.stored? (Transformation.routed links key) = some result') ∧
    ∀ key frames, system.At 0 ⟨.run (.apply (.memoized outer) key), frames⟩ →
      (∀ result, stacked.storage.stored? key = some result →
        (∀ after, During 1 0 frames system after → after.AtStages 0 outer key frames) ∧
        ∃ steps after, system.follow (List.replicate steps 0) = some after ∧
          (after.At 0 ⟨.answer (.ok result), frames⟩ ∧ after.world =
              system.world.record (.event outer (some key) (.hit stacked.storage.policy)) ∨
            stacked.storage.policy = .global ∧
              after.At 0 ⟨.answer (.error (.reentered .global)), frames⟩ ∧ after.world =
              system.world.record (.event outer (some key) (.reentryRejected .global)))) ∧
      (stacked.storage.stored? key = none →
        stacked.storage.policy.blocks (Frame.keys outer frames) key = false →
        ∃ steps middle place waits, system.follow (List.replicate steps 0) = some middle ∧
          middle.At 0 ⟨.run (.apply (.memoized inner) (Transformation.routed links key)),
            waits ++ .computing outer key place :: frames⟩ ∧
          middle.world.log = .started outer key ::
            .event outer (some key) (.miss stacked.storage.policy) :: system.world.log ∧
          (∀ world value after outcome,
            Activity.Comes 0 world ⟨.answer (.ok (.value value)), waits⟩ after
                ⟨.answer outcome, []⟩ ↔
              world.InTurn 0 (links.flatMap Transformation.after) value after outcome) ∧
          (∀ world after outcome last, (∀ value, outcome ≠ .ok (.value value)) →
            (Activity.Comes 0 world ⟨.answer outcome, waits⟩ after ⟨.answer last, []⟩ ↔
              after = world ∧ last = outcome)) ∧
          ∀ result, middle.Stores inner (Transformation.routed links key) result →
            ∀ after, During 1 0 (waits ++ .computing outer key place :: frames) middle after →
              after.AtStages 0 inner (Transformation.routed links key)
                (waits ++ .computing outer key place :: frames)) := by
  refine ⟨fun key result stored => stores_of_routed reached chain routing found' found keeps stored,
    fun key frames at' => ⟨fun result stored => ⟨fun after during => ?_, ?_⟩, fun missing open' => ?_⟩⟩
  · exact during.atStages reached ⟨stacked, found', stored⟩ at'
  · obtain ⟨began, stepped, same, seeking⟩ := at'.eq_of_step
      (show Activity.next 0 system.world ⟨.run (.apply (.memoized outer) key), frames⟩ =
        .step system.world ⟨.applying outer key .seek, frames⟩ from rfl)
    have reached' : began.Reached 1 := .tail reached (.step 0 stepped)
    obtain ⟨steps, after, followed, back⟩ := seeking.comes_back reached'.sound reached'.length_le
      (same ▸ found') stored
    rw [same] at back
    refine ⟨steps + 1, after, ?_, back⟩
    simp [follow, List.replicate_succ, stepped, followed]
  · have seeks := Activity.comes_seek system.world outer key frames
    have sound := ((at'.soundAt reached).of_comes seeks).seeking found'
    obtain ⟨storage, place, misses, -, -⟩ := Activity.comes_of_missing frames found' sound open' missing
    obtain ⟨waits, relays, heads⟩ := (chain.heads routing key).comes
    obtain ⟨steps, middle, followed, world, there⟩ :=
      at'.follow ((seeks.trans misses).trans (heads 0 _ (.computing outer key place :: frames)))
    have reached' : middle.Reached 1 :=
      Relation.ReflTransGen.trans reached (Reaches.of_follow followed)
    exact ⟨steps, middle, place, waits, followed, there, by rw [world]; rfl,
      fun world value after outcome => relays.comes_iff,
      fun world after outcome last stops => relays.passes_iff stops,
      fun result stores after during => during.atStages reached' stores there⟩

/-- A memoized function whose arguments are exchanged, memoized anew with the other policy. -/
def exchanged : World :=
  ((World.memoize {} .perKey .all (.plain 0 Code.identity)).2.memoize .global .all
    (Transformation.reverse.callable {} (.memoized 0)).1).2

/-- A thread applies the outer of two memoized functions. It comes to an application of the inner one
with the arguments exchanged. -/
theorem stacked_caches_consistent_exchanged :
    ∃ system steps middle place waits,
      (ofTasks exchanged [[.run (.apply (.memoized 1) (.pair (.int 1) (.int 2)))]]).step 0 =
        some system ∧
      system.follow (List.replicate steps 0) = some middle ∧
      middle.At 0 ⟨.run (.apply (.memoized 0) (.pair (.int 2) (.int 1))),
        waits ++ [.computing 1 (.pair (.int 1) (.int 2)) place]⟩ := by
  have made : Reaches 1 ⟨{}, []⟩ ⟨exchanged, []⟩ :=
    .head (.make (.memoize ..)) (.single (.make (.memoize ..)))
  have started : Happens 1 ⟨exchanged, []⟩
      (ofTasks exchanged [[.run (.apply (.memoized 1) (.pair (.int 1) (.int 2)))]]) :=
    .start _ (by simp) (by simp)
  have stepped : ∃ system,
      (ofTasks exchanged [[.run (.apply (.memoized 1) (.pair (.int 1) (.int 2)))]]).step 0 =
        some system ∧
      system.world.caches[0]? = some ⟨.plain 0 Code.identity, .all, .slots {}⟩ ∧
      system.world.caches[1]? = some ⟨.plain 0 (Code.reversed (.memoized 0)), .all, .table {}⟩ ∧
      (system.workers[0]?).bind (·.current) =
        some ⟨.run (.apply (.memoized 1) (.pair (.int 1) (.int 2))), []⟩ :=
    ⟨_, rfl, rfl, rfl, rfl⟩
  obtain ⟨system, stepped, found, found', current⟩ := stepped
  have reached : system.Reached 1 := (made.tail started).tail (.step 0 stepped)
  have begun : (Callable.memoized 0).Chain [] (.memoized 0) := .base
  obtain ⟨-, consistent⟩ := stacked_caches_consistent reached found rfl found'
    (begun.link .reverse {}) (by simp [Transformation.isRouting])
  obtain ⟨-, misses⟩ := consistent _ [] (Option.bind_eq_some_iff.mp current)
  obtain ⟨steps, middle, place, waits, followed, there, -⟩ := misses rfl rfl
  exact ⟨system, steps, middle, place, waits, stepped, followed, there⟩

end System

end FunctionValues
