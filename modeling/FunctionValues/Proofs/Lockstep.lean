import FunctionValues.Proofs.Sessions

/-!
# Runs in lockstep

A task of a single thread in two worlds whose caches may serve different policies. As long as no
cache is applied while the function behind it runs, neither policy refuses anything, and the two runs
go from one application to the next in lockstep: their caches hold the same results, in a table here
and in slots there, and what they leave in the log differs only in what tells of the policy.
-/

namespace FunctionValues

/-! ## What both policies have in common -/

/-- Every run has come to its end. -/
def Mark.Settled (marks : List Mark) : Prop :=
  ∀ key other, last? marks key ≠ some (.started other)

namespace Event

/-- Whether an event says what becomes of an application, as one does for every application. -/
def answers : Event → Bool
  | hit _ | miss _ | reentryRejected _ => true
  | _ => false

/-- An event without its policy and the number of entries. The removal of a slot disappears. -/
def erased : Event → Option Event
  | created _ => some (created .default)
  | hit _ => some (hit .default)
  | miss _ => some (miss .default)
  | stored _ => some (stored none)
  | notRetained => some notRetained
  | slotRemoved _ => none
  | reentryRejected _ => some (reentryRejected .default)

end Event

namespace Entry

/-- An entry without what tells of the policy. Calls, starts and ends stay as they are. -/
def erased : Entry → Option Entry
  | event cache key what => what.erased.map (.event cache key)
  | entry => some entry

/-- No cache is applied while the function behind it runs. The latest entry is the first. -/
def Straight (log : List Entry) : Prop :=
  ∀ cache key event earlier, .event cache (some key) event :: earlier <:+ log →
    event.answers = true → Mark.Settled (earlier.filterMap (mark? cache))

theorem Straight.of_suffix {log earlier : List Entry} (straight : Straight log)
    (grown : earlier <:+ log) : Straight earlier :=
  fun cache key event before suffix => straight cache key event before (suffix.trans grown)

theorem isShown_of_erased {entry rest : Entry} (erased : entry.erased = some rest) :
    rest.isShown = entry.isShown := by
  cases entry with
  | event cache key what =>
      obtain ⟨what', -, rfl⟩ := Option.map_eq_some_iff.mp erased
      rfl
  | call label arguments | started cache key | ended cache key outcome =>
      cases erased
      rfl

theorem filterMap_erased_filter (entries : List Entry) :
    (entries.filter (·.isShown)).filterMap Entry.erased =
      (entries.filterMap Entry.erased).filter (·.isShown) := by
  induction entries with
  | nil => rfl
  | cons entry entries induction =>
      cases erased : entry.erased with
      | none =>
          rw [List.filterMap_cons_none erased, ← induction]
          cases shown : entry.isShown with
          | true => rw [List.filter_cons_of_pos shown, List.filterMap_cons_none erased]
          | false => rw [List.filter_cons_of_neg (by simp [shown])]
      | some rest =>
          have same := isShown_of_erased erased
          rw [List.filterMap_cons_some erased]
          cases shown : entry.isShown with
          | true =>
              rw [List.filter_cons_of_pos shown, List.filterMap_cons_some erased,
                List.filter_cons_of_pos (same.trans shown), induction]
          | false =>
              rw [List.filter_cons_of_neg (by simp [shown]),
                List.filter_cons_of_neg (by simp [same, shown]), induction]

theorem filterMap_erased_removals {removals : List Event}
    (cleared : ∀ event ∈ removals, ∃ slots, event = .slotRemoved slots) (cache : Nat)
    (key : Option Value) : (removals.map (.event cache key)).filterMap Entry.erased = [] := by
  rw [List.filterMap_eq_nil_iff]
  intro entry member
  obtain ⟨event, inside, rfl⟩ := List.mem_map.mp member
  obtain ⟨slots, rfl⟩ := cleared event inside
  rfl

end Entry

/-! ## Worlds that hold the same -/

/-- Two caches keep the same results of the same function. -/
structure Cache.Alike (cache other : Cache) : Prop where
  underlying : other.underlying = cache.underlying
  retention : other.retention = cache.retention
  agrees : cache.storage.Agrees other.storage

/-- Two worlds differ only in the policies of their caches and in what tells of them. -/
structure World.Alike (world other : World) : Prop where
  functions : other.functions = world.functions
  caches : List.Forall₂ Cache.Alike world.caches other.caches
  identities : other.identities = world.identities
  ticks : other.ticks = world.ticks
  log : other.log.filterMap Entry.erased = world.log.filterMap Entry.erased

/-- Two frames wait for the same, at whatever places of a cache. -/
inductive Frame.Alike : Frame → Frame → Prop
  | bind (next : Reply → Computation) : Alike (.bind next) (.bind next)
  | feed (argument : Value) : Alike (.feed argument) (.feed argument)
  | computing (cache : Nat) (key : Value) (place place' : Nat) :
      Alike (.computing cache key place) (.computing cache key place')

/-- Two threads are about to do the same, and not in the middle of an application. -/
inductive Activity.Alike : Activity → Activity → Prop
  | run (computation : Computation) {frames frames' : List Frame}
      (around : List.Forall₂ Frame.Alike frames frames') :
      Alike ⟨.run computation, frames⟩ ⟨.run computation, frames'⟩
  | answer (outcome : Outcome) {frames frames' : List Frame}
      (around : List.Forall₂ Frame.Alike frames frames') :
      Alike ⟨.answer outcome, frames⟩ ⟨.answer outcome, frames'⟩
  | seek (number : Nat) (key : Value) {frames frames' : List Frame}
      (around : List.Forall₂ Frame.Alike frames frames') :
      Alike ⟨.applying number key .seek, frames⟩ ⟨.applying number key .seek, frames'⟩

theorem Frame.Alike.keys {frames frames' : List Frame}
    (around : List.Forall₂ Frame.Alike frames frames') (number : Nat) :
    Frame.keys number frames' = Frame.keys number frames := by
  induction around with
  | nil => rfl
  | @cons frame frame' frames frames' first _ induction =>
      cases first with
      | bind next | feed argument => exact induction
      | computing cache key place place' =>
          simp only [Frame.keys, Frame.phases] at induction ⊢
          split
          · simp only [List.filterMap_cons, Phase.computed?, induction]
          · exact induction

namespace World.Alike

variable {world other : World} {number : Nat}

theorem found (alike : world.Alike other) {cache : Cache}
    (found : world.caches[number]? = some cache) :
    ∃ cache', other.caches[number]? = some cache' ∧ cache.Alike cache' := by
  obtain ⟨length, pointwise⟩ := List.forall₂_iff_get.mp alike.caches
  obtain ⟨inside, rfl⟩ := List.getElem?_eq_some_iff.mp found
  exact ⟨_, List.getElem?_eq_getElem (length ▸ inside), pointwise number inside (length ▸ inside)⟩

theorem record (alike : world.Alike other) {entry entry' : Entry}
    (same : entry'.erased = entry.erased) : (world.record entry).Alike (other.record entry') where
  functions := alike.functions
  caches := alike.caches
  identities := alike.identities
  ticks := alike.ticks
  log := by simp [World.record, List.filterMap_cons, same, alike.log]

theorem amend (alike : world.Alike other) {cache cache' : Cache} {storage storage' : Storage}
    {entries entries' : List Entry} (here : world.caches[number]? = some cache)
    (there : other.caches[number]? = some cache') (same : cache.Alike cache')
    (agrees : storage.Agrees storage')
    (erased : entries'.filterMap Entry.erased = entries.filterMap Entry.erased) :
    (world.amend number storage entries).Alike (other.amend number storage' entries') where
  functions := alike.functions
  caches := by
    refine forall₂_modify alike.caches fun found found' present present' => ?_
    obtain rfl : cache = found := Option.some.inj (here.symm.trans present)
    obtain rfl : cache' = found' := Option.some.inj (there.symm.trans present')
    exact ⟨same.underlying, same.retention, agrees⟩
  identities := alike.identities
  ticks := alike.ticks
  log := by simp only [World.amend, List.filterMap_append, erased, alike.log]

/-! ## Steps outside applications -/

theorem next_run (alike : world.Alike other) {frames frames' : List Frame}
    (around : List.Forall₂ Frame.Alike frames frames') (computation : Computation) :
    (computation.next world frames).1.Alike (computation.next other frames').1 ∧
      Activity.Alike (computation.next world frames).2 (computation.next other frames').2 := by
  cases computation with
  | finish reply | give callable => exact ⟨alike, .answer _ around⟩
  | apply callable argument =>
      cases callable with
      | plain identity code => exact ⟨alike, .run _ around⟩
      | memoized cache => exact ⟨alike, .seek cache argument around⟩
  | bind first next => exact ⟨alike, .run first (.cons (.bind next) around)⟩
  | feed first argument => exact ⟨alike, .run first (.cons (.feed argument) around)⟩
  | call name arguments =>
      refine ⟨alike, ?_⟩
      simp only [Computation.next, resolve, function?, alike.functions]
      exact .run _ around
  | tick =>
      refine ⟨⟨alike.functions, alike.caches, alike.identities, congrArg (· + 1) alike.ticks,
        alike.log⟩, ?_⟩
      simp only [Computation.next, alike.ticks]
      exact .run _ around
  | note label arguments rest => exact ⟨alike.record rfl, .run rest around⟩
  | fresh rest =>
      refine ⟨⟨alike.functions, alike.caches, congrArg (· + 1) alike.identities, alike.ticks,
        alike.log⟩, ?_⟩
      simp only [Computation.next, alike.identities]
      exact .run _ around

theorem next_bind (alike : world.Alike other) {frames frames' : List Frame}
    (around : List.Forall₂ Frame.Alike frames frames') (outcome : Outcome)
    (next : Reply → Computation) :
    (outcome.next world frames (.bind next)).1.Alike (outcome.next other frames' (.bind next)).1 ∧
      Activity.Alike (outcome.next world frames (.bind next)).2
        (outcome.next other frames' (.bind next)).2 := by
  match outcome with
  | .ok (.value value) | .error failure => exact ⟨alike, .run _ around⟩
  | .ok (.callable callable) => exact ⟨alike, .answer _ around⟩

theorem next_feed (alike : world.Alike other) {frames frames' : List Frame}
    (around : List.Forall₂ Frame.Alike frames frames') (outcome : Outcome) (argument : Value) :
    (outcome.next world frames (.feed argument)).1.Alike
        (outcome.next other frames' (.feed argument)).1 ∧
      Activity.Alike (outcome.next world frames (.feed argument)).2
        (outcome.next other frames' (.feed argument)).2 := by
  match outcome with
  | .ok (.value value) | .error failure => exact ⟨alike, .answer _ around⟩
  | .ok (.callable callable) => exact ⟨alike, .run _ around⟩

end World.Alike

/-! ## Strides in step -/

namespace World.SoundAt

variable {world : World} {number : Nat} {cache : Cache} {key : Value} {frames : List Frame}

/-- A cache is applied while its function does not run. -/
theorem keys_eq_nil (sound : world.SoundAt ⟨.applying number key .seek, frames⟩)
    (found : world.caches[number]? = some cache) (settled : Mark.Settled (world.marks number)) :
    Frame.keys number frames = [] := by
  rw [Frame.keys, List.filterMap_eq_nil_iff]
  intro phase member
  obtain ⟨argument, place, rfl⟩ := Frame.inward_phases number frames phase member
  have inside : Phase.computing argument place ∈
      [.applying key .seek :: Frame.phases number frames].getD 0 [] := List.mem_cons_of_mem _ member
  exact absurd ((sound.seeking found).begun inside) (settled argument argument)

end World.SoundAt

namespace Activity

variable {world other after : World} {number : Nat} {key : Value} {place place' : Nat}
  {cache cache' : Cache} {frames frames' : List Frame} {outcome : Outcome}

/-- The log says what becomes of every application. -/
theorem exists_answer (sound : world.SoundAt ⟨.applying number key .seek, frames⟩)
    (found : world.caches[number]? = some cache) :
    ∃ middle next event, Comes 0 world ⟨.applying number key .seek, frames⟩ middle next ∧
      event.answers = true ∧ .event number (some key) event :: world.log <:+ middle.log := by
  have cached := sound.seeking found
  cases blocked : cache.storage.policy.blocks (Frame.keys number frames) key with
  | true => exact ⟨_, _, _, comes_of_blocked frames found cached blocked, rfl, List.suffix_refl _⟩
  | false =>
      cases stored : cache.storage.stored? key with
      | some result =>
          exact ⟨_, _, _, comes_of_stored frames found cached blocked stored, rfl,
            List.suffix_refl _⟩
      | none =>
          obtain ⟨storage, place, comes, -⟩ := comes_of_missing frames found cached blocked stored
          exact ⟨_, _, _, comes, rfl, List.suffix_cons _ _⟩

/-- What two threads come to from alike points that are not the end of their tasks. -/
def Strides (world other : World) (activity activity' : Activity) : Prop :=
  ∃ steps middle next middle' next', 0 < steps ∧
    proceed 0 steps world activity = some (middle, next) ∧
    Comes 0 other activity' middle' next' ∧ middle.Alike middle' ∧ next.Alike next'

theorem strides_seek (alike : world.Alike other) (around : List.Forall₂ Frame.Alike frames frames')
    (sound : world.SoundAt ⟨.applying number key .seek, frames⟩)
    (sound' : other.SoundAt ⟨.applying number key .seek, frames'⟩)
    (found : world.caches[number]? = some cache) (settled : Mark.Settled (world.marks number)) :
    Strides world other ⟨.applying number key .seek, frames⟩
      ⟨.applying number key .seek, frames'⟩ := by
  obtain ⟨cache', found', same⟩ := alike.found found
  have keys := sound.keys_eq_nil found settled
  have keys' : Frame.keys number frames' = [] := (Frame.Alike.keys around number).trans keys
  have free : ∀ policy : Policy, policy.blocks [] key = false := by
    intro policy
    cases policy <;> rfl
  have open' := free cache.storage.policy
  have open'' := free cache'.storage.policy
  rw [← keys] at open'
  rw [← keys'] at open''
  cases stored : cache.storage.stored? key with
  | some result =>
      have stored' := (same.agrees.stored key).trans stored
      obtain ⟨steps, positive, proceeded⟩ :=
        (comes_of_stored frames found (sound.seeking found) open' stored).exists_pos (by simp)
      exact ⟨steps, _, _, _, _, positive, proceeded,
        comes_of_stored frames' found' (sound'.seeking found') open'' stored', alike.record rfl,
        .answer _ around⟩
  | none =>
      have stored' := (same.agrees.stored key).trans stored
      obtain ⟨storage, place, comes, agrees, -⟩ :=
        comes_of_missing frames found (sound.seeking found) open' stored
      obtain ⟨storage', place', comes', agrees', -⟩ :=
        comes_of_missing frames' found' (sound'.seeking found') open'' stored'
      obtain ⟨steps, positive, proceeded⟩ := comes.exists_pos (by simp)
      rw [same.underlying] at comes'
      refine ⟨steps, _, _, _, _, positive, proceeded, comes', ?_,
        .run _ (.cons (.computing number key place place') around)⟩
      exact alike.amend found found' same
        ((agrees.symm.trans same.agrees).trans agrees') rfl

theorem strides_computing (alike : world.Alike other)
    (around : List.Forall₂ Frame.Alike frames frames')
    (sound : world.SoundAt ⟨.answer outcome, .computing number key place :: frames⟩)
    (sound' : other.SoundAt ⟨.answer outcome, .computing number key place' :: frames'⟩) :
    Strides world other ⟨.answer outcome, .computing number key place :: frames⟩
      ⟨.answer outcome, .computing number key place' :: frames'⟩ := by
  obtain ⟨cache, found⟩ := sound.exists_cache
  obtain ⟨cache', found', same⟩ := alike.found found
  have moved : (⟨.answer outcome, .computing number key place :: frames⟩ : Activity) ≠
      ⟨.answer outcome, frames⟩ := by simp
  cases retains : cache.retention.retains outcome with
  | true =>
      obtain ⟨result, rfl⟩ : ∃ result, outcome = .ok result := by
        cases outcome with
        | ok result => exact ⟨result, rfl⟩
        | error failure => cases retains
      obtain ⟨storage, comes, -, size, stored⟩ :=
        comes_of_kept frames found (sound.computing found) retains
      rw [← same.retention] at retains
      obtain ⟨storage', comes', -, size', stored'⟩ :=
        comes_of_kept frames' found' (sound'.computing found') retains
      obtain ⟨steps, positive, proceeded⟩ := comes.exists_pos moved
      refine ⟨steps, _, _, _, _, positive, proceeded, comes', ?_, .answer _ around⟩
      refine alike.amend found found' same ⟨fun other => ?_, ?_⟩ rfl
      · rw [stored', stored, same.agrees.stored]
      · rw [size', size, same.agrees.size]
  | false =>
      obtain ⟨storage, removals, comes, agrees, -, cleared⟩ :=
        comes_of_vain frames found (sound.computing found) retains
      rw [← same.retention] at retains
      obtain ⟨storage', removals', comes', agrees', -, cleared'⟩ :=
        comes_of_vain frames' found' (sound'.computing found') retains
      obtain ⟨steps, positive, proceeded⟩ := comes.exists_pos moved
      refine ⟨steps, _, _, _, _, positive, proceeded, comes', ?_, .answer _ around⟩
      refine alike.amend found found' same ((agrees.symm.trans same.agrees).trans agrees') ?_
      simp only [List.map_append, List.filterMap_append,
        Entry.filterMap_erased_removals cleared, Entry.filterMap_erased_removals cleared']

/-- From alike points two threads come to alike points, as long as the first does not apply a cache
while the function behind it runs. -/
theorem Alike.strides {activity activity' : Activity} {steps : Nat} (alike : world.Alike other)
    (activities : activity.Alike activity') (sound : world.SoundAt activity)
    (sound' : other.SoundAt activity') (busy : 0 < steps)
    (ended : proceed 0 steps world activity = some (after, ⟨.answer outcome, []⟩))
    (straight : Entry.Straight after.log) : Strides world other activity activity' := by
  cases activities with
  | @run computation frames frames' around =>
      obtain ⟨worlds, threads⟩ := alike.next_run around computation
      exact ⟨1, _, _, _, _, Nat.one_pos, rfl, .single rfl, worlds, threads⟩
  | answer reply around =>
      cases around with
      | nil =>
          obtain ⟨steps, rfl⟩ := Nat.exists_eq_add_of_lt busy
          rw [Nat.zero_add] at ended
          cases ended
      | cons first around =>
          cases first with
          | bind next =>
              obtain ⟨worlds, threads⟩ := alike.next_bind around reply next
              exact ⟨1, _, _, _, _, Nat.one_pos, rfl, .single rfl, worlds, threads⟩
          | feed argument =>
              obtain ⟨worlds, threads⟩ := alike.next_feed around reply argument
              exact ⟨1, _, _, _, _, Nat.one_pos, rfl, .single rfl, worlds, threads⟩
          | computing number key place place' => exact strides_computing alike around sound sound'
  | @seek number key frames frames' around =>
      cases found : world.caches[number]? with
      | none =>
          obtain ⟨steps, rfl⟩ := Nat.exists_eq_add_of_lt busy
          simp [proceed, Activity.next, found] at ended
      | some cache =>
          obtain ⟨middle, next, event, ⟨passed, proceeded⟩, answers, told⟩ :=
            exists_answer sound found
          obtain ⟨rest, -, onward⟩ := proceed_of_passed proceeded ended
          have settled : Mark.Settled (world.marks number) :=
            straight number key event world.log (told.trans (Comes.log ⟨rest, onward⟩)) answers
          exact strides_seek alike around sound sound' found settled

/-- A task that ends in one world ends alike in the other. -/
theorem Alike.comes {activity activity' : Activity} {steps : Nat} (alike : world.Alike other)
    (activities : activity.Alike activity') (sound : world.SoundAt activity)
    (sound' : other.SoundAt activity')
    (ended : proceed 0 steps world activity = some (after, ⟨.answer outcome, []⟩))
    (straight : Entry.Straight after.log) :
    ∃ after', Comes 0 other activity' after' ⟨.answer outcome, []⟩ ∧ after.Alike after' := by
  induction steps using Nat.strongRecOn generalizing world other activity activity' with
  | _ steps induction =>
      cases steps with
      | zero =>
          obtain ⟨rfl, rfl⟩ : world = after ∧ activity = ⟨.answer outcome, []⟩ := by
            simpa [proceed] using ended
          obtain _ | ⟨_, _ | _⟩ := activities
          exact ⟨other, .refl .., alike⟩
      | succ steps =>
          obtain ⟨passed, middle, next, middle', next', positive, proceeded, comes', worlds, threads⟩ :=
            Alike.strides alike activities sound sound' (Nat.succ_pos steps) ended straight
          obtain ⟨rest, count, onward⟩ := proceed_of_passed proceeded ended
          obtain ⟨after', finished, last⟩ := induction rest (by omega) worlds threads
            (sound.of_comes ⟨passed, proceeded⟩) (sound'.of_comes comes') onward
          exact ⟨after', comes'.trans finished, last⟩

end Activity

end FunctionValues
