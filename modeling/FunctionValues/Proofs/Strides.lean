import FunctionValues.Proofs.Solo

/-!
# Strides of a thread on its own

The steps of a thread that nobody interferes with, taken together where it is at an application of a
memoized function. A stride goes from the application to its refusal, to the stored result, or to the
run of the underlying function, and from the end of that run to the end of the application.
-/

namespace FunctionValues

namespace Frame

/-- The arguments that a thread computes at a cache, the innermost first. -/
def keys (number : Nat) (frames : List Frame) : List Value :=
  (phases number frames).filterMap Phase.computed?

theorem inward_phases (number : Nat) (frames : List Frame) :
    Cache.Sound.Inward (phases number frames) := by
  induction frames with
  | nil => simp [Cache.Sound.Inward, phases]
  | cons frame frames induction =>
      cases frame with
      | bind next | feed argument => exact induction
      | computing cache key place =>
          rw [phases]
          split
          · simp only [Cache.Sound.Inward, List.forall_mem_cons]
            exact ⟨⟨key, place, rfl⟩, induction⟩
          · exact induction

end Frame

namespace World

/-- Replace the storage of a cache and add entries to the log, the latest first. -/
def amend (world : World) (number : Nat) (storage : Storage) (entries : List Entry) : World :=
  { world with
    caches := world.caches.modify number ({ · with storage := storage })
    log := entries ++ world.log }

theorem amend_amend (world : World) (number : Nat) (first second : Storage)
    (earlier later : List Entry) :
    (world.amend number first earlier).amend number second later =
      world.amend number second (later ++ earlier) := by
  simp [amend, List.modify_modify_eq, Function.comp_def]

theorem caches_amend {world : World} {number : Nat} {cache : Cache}
    (found : world.caches[number]? = some cache) (storage : Storage) (entries : List Entry) :
    (world.amend number storage entries).caches[number]? =
      some { cache with storage := storage } := by
  simp [amend, found]

/-- What leaves the storage of a cache as it is only adds to the log. -/
theorem amend_self {world : World} {number : Nat} {cache : Cache}
    (found : world.caches[number]? = some cache) (entries : List Entry) :
    world.amend number cache.storage entries = { world with log := entries ++ world.log } := by
  have same : world.caches.modify number ({ · with storage := cache.storage }) = world.caches := by
    apply List.ext_getElem?
    intro position
    rw [List.getElem?_modify]
    by_cases here : number = position
    · subst here
      simp [found]
    · simp [here]
  simp only [amend, same]

theorem record_amend (world : World) (entry : Entry) (number : Nat) (storage : Storage)
    (entries : List Entry) :
    (world.record entry).amend number storage entries =
      world.amend number storage (entries ++ [entry]) := by
  simp [amend, record]

theorem setStorage_recordEvent (world : World) (number : Nat) (storage : Storage) (key : Value)
    (event : Option Event) :
    (world.setStorage number storage).recordEvent number key event =
      world.amend number storage (event.toList.map (.event number (some key))) := by
  cases event <;> rfl

end World

namespace Activity

/-- Let a thread make so many steps. -/
def proceed (thread : Thread) : Nat → World → Activity → Option (World × Activity)
  | 0, world, activity => some (world, activity)
  | steps + 1, world, activity =>
    match activity.next thread world with
    | .step world activity => proceed thread steps world activity
    | .wait | .done _ => none

variable {thread : Thread} {world middle after : World} {activity next last : Activity}

theorem proceed_add {first second : Nat} (before : proceed thread first world activity =
    some (middle, next)) :
    proceed thread (first + second) world activity = proceed thread second middle next := by
  induction first generalizing world activity with
  | zero =>
      simp only [proceed, Option.some.injEq, Prod.mk.injEq] at before
      obtain ⟨rfl, rfl⟩ := before
      rw [Nat.zero_add]
  | succ first induction =>
      rw [Nat.succ_add]
      simp only [proceed] at before ⊢
      split at before
      · exact induction before
      · cases before
      · cases before

/-- A thread comes to another point by steps of its own. -/
def Comes (thread : Thread) (world : World) (activity : Activity) (after : World)
    (last : Activity) : Prop :=
  ∃ steps, proceed thread steps world activity = some (after, last)

theorem Comes.refl (thread : Thread) (world : World) (activity : Activity) :
    Comes thread world activity world activity :=
  ⟨0, rfl⟩

theorem Comes.trans (first : Comes thread world activity middle next)
    (second : Comes thread middle next after last) : Comes thread world activity after last := by
  obtain ⟨steps, before⟩ := first
  obtain ⟨more, onward⟩ := second
  exact ⟨steps + more, by rw [proceed_add before, onward]⟩

theorem Comes.single (stepped : activity.next thread world = .step after last) :
    Comes thread world activity after last :=
  ⟨1, by simp only [proceed, stepped]⟩

theorem Comes.run (thread : Thread) (world : World) (computation : Computation)
    (frames : List Frame) :
    Comes thread world ⟨.run computation, frames⟩ (computation.next world frames).1
      (computation.next world frames).2 :=
  .single rfl

/-- An application of a memoized function begins at its first stage. -/
theorem comes_seek (world : World) (number : Nat) (key : Value) (frames : List Frame) :
    Comes 0 world ⟨.run (.apply (.memoized number) key), frames⟩ world
      ⟨.applying number key .seek, frames⟩ :=
  .single rfl

section Applying

variable {number : Nat} {cache : Cache} {key : Value} {stage : Stage} {frames : List Frame}
  {storage : Storage} {events : List Event}

theorem comes_of_passes {last : Stage} (frames : List Frame)
    (found : world.caches[number]? = some cache)
    (passes : cache.storage.Passes cache.retention thread key stage events storage last) :
    Comes thread world ⟨.applying number key stage, frames⟩
      (world.amend number storage (events.map (.event number (some key))))
      ⟨.applying number key last, frames⟩ := by
  obtain ⟨underlying, retention, before⟩ := cache
  change before.Passes retention thread key stage events storage last at passes
  induction passes generalizing world with
  | refl before stage =>
      rw [List.map_nil, World.amend_self found]
      exact .refl ..
  | @go before middle after stage next last event events moved rest induction =>
      have stepped : Activity.next thread world ⟨.applying number key stage, frames⟩ =
          .step (world.amend number middle (event.toList.map (.event number (some key))))
            ⟨.applying number key next, frames⟩ := by
        simp only [Activity.next, found, moved, Move.progress, World.setStorage_recordEvent]
      have onward := induction
        (World.caches_amend found middle (event.toList.map (.event number (some key))))
      rw [World.amend_amend, ← List.map_append] at onward
      exact (Comes.single stepped).trans onward

theorem comes_of_comes {outcome : Outcome} (frames : List Frame)
    (found : world.caches[number]? = some cache)
    (comes : cache.storage.Comes cache.retention thread key stage events storage outcome) :
    Comes thread world ⟨.applying number key stage, frames⟩
      (world.amend number storage (events.map (.event number (some key))))
      ⟨.answer outcome, frames⟩ := by
  obtain ⟨middle, place, passes, dropped⟩ := comes
  have present := World.caches_amend found middle (events.map (.event number (some key)))
  have finished : Activity.next thread
      (world.amend number middle (events.map (.event number (some key))))
      ⟨.applying number key (.drop place outcome), frames⟩ =
      .step (world.amend number storage (events.map (.event number (some key))))
        ⟨.answer outcome, frames⟩ := by
    simp only [Activity.next, present, Storage.advance, dropped, Move.progress]
    have ended := world.amend_amend number middle storage (events.map (.event number (some key))) []
    exact congrArg (Progress.step · _) ended
  exact (comes_of_passes frames found passes).trans (.single finished)

theorem next_answer_computing (world : World) (outcome : Outcome) (number : Nat) (key : Value)
    (place : Nat) (frames : List Frame) :
    Activity.next thread world ⟨.answer outcome, .computing number key place :: frames⟩ =
      .step (world.record (.ended number key outcome))
        ⟨.applying number key (.settle place outcome), frames⟩ := by
  simp [Activity.next, Outcome.next]

/-! ## Strides

What the thread computes around the application decides how the application goes. The frames that
stay while it goes need not be those of the thread, as nothing is handed to them.
-/

variable {marks : List Mark}

/-- An application that its thread would wait for itself is refused, and nothing else happens. -/
theorem comes_of_blocked (outer : List Frame) (found : world.caches[number]? = some cache)
    (sound : cache.Sound [.applying key .seek :: Frame.phases number frames] marks)
    (blocked : cache.storage.policy.blocks (Frame.keys number frames) key = true) :
    Comes 0 world ⟨.applying number key .seek, outer⟩
      (world.record (.event number (some key) (.reentryRejected cache.storage.policy)))
      ⟨.answer (.error (.reentered cache.storage.policy)), outer⟩ := by
  have refused := comes_of_comes outer found
    (sound.refuse (Frame.inward_phases number frames) blocked)
  rw [World.amend_self found] at refused
  exact refused

/-- An application to an argument whose result is stored comes back with it, and nothing else
happens. -/
theorem comes_of_stored {result : Result} (outer : List Frame)
    (found : world.caches[number]? = some cache)
    (sound : cache.Sound [.applying key .seek :: Frame.phases number frames] marks)
    (open' : cache.storage.policy.blocks (Frame.keys number frames) key = false)
    (stored : cache.storage.stored? key = some result) :
    Comes 0 world ⟨.applying number key .seek, outer⟩
      (world.record (.event number (some key) (.hit cache.storage.policy)))
      ⟨.answer (.ok result), outer⟩ := by
  have hit := comes_of_comes outer found
    (sound.hit (Frame.inward_phases number frames) open' stored)
  rw [World.amend_self found] at hit
  exact hit

/-- An application to an argument that nothing is stored for starts a run. -/
theorem comes_of_missing (outer : List Frame) (found : world.caches[number]? = some cache)
    (sound : cache.Sound [.applying key .seek :: Frame.phases number frames] marks)
    (open' : cache.storage.policy.blocks (Frame.keys number frames) key = false)
    (missing : cache.storage.stored? key = none) :
    ∃ storage place, Comes 0 world ⟨.applying number key .seek, outer⟩
        (world.amend number storage [.started number key,
          .event number (some key) (.miss cache.storage.policy)])
        ⟨.run (.apply cache.underlying key), .computing number key place :: outer⟩ ∧
      cache.storage.Agrees storage ∧ storage.policy = cache.storage.policy := by
  obtain ⟨middle, place, passes, agrees, policy⟩ :=
    sound.miss (Frame.inward_phases number frames) open' missing
  have comes := comes_of_passes outer found passes
  let storage := middle.modifyLatch place ({ · with owner := some 0 })
  refine ⟨storage, place, comes.trans (.single ?_), agrees.trans (.of_modifyLatch ..),
    by rw [Storage.policy_modifyLatch, policy]⟩
  have present := World.caches_amend found middle
    [.event number (some key) (.miss cache.storage.policy)]
  simp only [List.map_cons, List.map_nil, Activity.next, present, Storage.advance, Storage.start,
    Move.progress]
  have started := world.amend_amend number middle storage
    [.event number (some key) (.miss cache.storage.policy)] [.started number key]
  exact congrArg (Progress.step · _) started

/-- The end of a run whose result is to be kept. -/
theorem comes_of_kept {place : Nat} {result : Result} (outer : List Frame)
    (found : world.caches[number]? = some cache)
    (sound : cache.Sound [.computing key place :: Frame.phases number frames] marks)
    (keeps : cache.retention.keeps result = true) :
    ∃ storage, Comes 0 world ⟨.answer (.ok result), .computing number key place :: outer⟩
        (world.amend number storage [.event number (some key) (.stored storage.reported),
          .ended number key (.ok result)])
        ⟨.answer (.ok result), outer⟩ ∧
      storage.policy = cache.storage.policy ∧ storage.size = cache.storage.size + 1 ∧
      ∀ other, storage.stored? other =
        if key.same other then some result else cache.storage.stored? other := by
  obtain ⟨storage, comes, policy, size, stored⟩ :=
    (sound.of_moves (.settle (.ok result))).store keeps
  refine ⟨storage, ?_, policy, size, stored⟩
  have ended : Comes 0 world ⟨.answer (.ok result), .computing number key place :: outer⟩
      (world.record (.ended number key (.ok result)))
      ⟨.applying number key (.settle place (.ok result)), outer⟩ :=
    .single (next_answer_computing ..)
  have present : (world.record (.ended number key (.ok result))).caches[number]? = some cache :=
    found
  exact ended.trans (comes_of_comes outer present comes)

/-- The end of a run with nothing to be kept. -/
theorem comes_of_vain {place : Nat} {outcome : Outcome} (outer : List Frame)
    (found : world.caches[number]? = some cache)
    (sound : cache.Sound [.computing key place :: Frame.phases number frames] marks)
    (vain : cache.retention.retains outcome = false) :
    ∃ storage removals, Comes 0 world ⟨.answer outcome, .computing number key place :: outer⟩
        (world.amend number storage ((removals ++ outcome.verdict).map (.event number (some key)) ++
          [.ended number key outcome]))
        ⟨.answer outcome, outer⟩ ∧
      cache.storage.Agrees storage ∧ storage.policy = cache.storage.policy ∧
      ∀ event ∈ removals, ∃ slots, event = .slotRemoved slots := by
  obtain ⟨storage, removals, comes, agrees, policy, cleared⟩ :=
    (sound.of_moves (.settle outcome)).forget (Frame.inward_phases number frames) vain
  refine ⟨storage, removals, ?_, agrees, policy, cleared⟩
  have ended : Comes 0 world ⟨.answer outcome, .computing number key place :: outer⟩
      (world.record (.ended number key outcome))
      ⟨.applying number key (.settle place outcome), outer⟩ :=
    .single (next_answer_computing ..)
  have present : (world.record (.ended number key outcome)).caches[number]? = some cache := found
  have onward := ended.trans (comes_of_comes outer present comes)
  rw [World.record_amend] at onward
  exact onward

end Applying

end Activity

end FunctionValues
