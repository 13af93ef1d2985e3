import FunctionValues.Proofs.Invariants

/-!
# Slots without results

A slot of a map holds a result, or some application tends it: it is on its way to store one there, or
to see whether the slot may be removed. An application that finds the slot shared leaves it to those
who share it. That is right as long as one of them tends the slot; it goes wrong when two applications
that failed both hold on to the slot, each past its own look at it or about to have one, for then
neither removes it. `SlotMap.Clashes` says that this is about to happen, and where it never does no
slot is left empty.
-/

namespace FunctionValues

/-- The place that an application is yet to store a result at, or to look at for its removal. -/
def Stage.tended? : Stage → Option Nat
  | check place | lock place | look place | start place | settle place _ | keep place _
  | unlock place _ true | enter place _ | inspect place _ | clear place _ => some place
  | seek | unlock _ _ false | leave .. | drop .. => none

namespace Phase

/-- The place that is yet to get a result, or to be looked at for its removal. -/
def tended? : Phase → Option Nat
  | applying _ stage => stage.tended?
  | computing _ place => some place
  | counting _ => none

/-- Whether a place is referred to by an application that has nothing left to do there, or by one
who counts results. -/
def lingers (place : Nat) : Phase → Bool
  | applying _ (.drop other _) => other == place
  | counting progress => (counting progress).references.contains place
  | _ => false

/-- The place whose slot is looked at, to see whether it may be removed. -/
def inspected? : Phase → Option Nat
  | applying _ (.inspect place _) => some place
  | _ => none

theorem eq_of_inspected? {phase : Phase} {place : Nat} :
    phase.inspected? = some place ↔ ∃ key outcome, phase = .applying key (.inspect place outcome) := by
  unfold inspected?
  split <;> simp_all

/-- A phase that refers to a place tends it, has a result there, has the lock of the map, or
lingers. -/
theorem tended_or_lingers {phase : Phase} {place : Nat} (refers : place ∈ phase.references) :
    phase.tended? = some place ∨
      (∃ key outcome, phase = .applying key (.unlock place outcome false)) ∨
      phase.locksMap = true ∨ phase.lingers place = true := by
  cases phase with
  | computing key other =>
      left
      simpa [references, tended?, eq_comm] using refers
  | counting progress =>
      right; right; right
      simpa [lingers] using refers
  | applying key stage =>
      have here : stage.place? = some place := by simpa [references] using refers
      cases stage with
      | seek => cases here
      | unlock other outcome vacant =>
          cases here
          cases vacant with
          | true => exact .inl rfl
          | false => exact .inr (.inl ⟨key, outcome, rfl⟩)
      | leave other outcome => exact .inr (.inr (.inl rfl))
      | drop other outcome =>
          cases here
          exact .inr (.inr (.inr (by simp [lingers])))
      | check _ | lock _ | look _ | start _ | settle _ _ | keep _ _ | enter _ _ | inspect _ _
      | clear _ _ => exact .inl here

theorem tended?_of_owned? {phase : Phase} {place : Nat} (owned : phase.owned? = some place) :
    phase.tended? = some place := by
  unfold owned? at owned
  split at owned <;> simp_all [tended?, Stage.tended?]

/-- A place that somebody refers to is referred to in some phase. -/
theorem exists_of_referrers {threads : List (List Phase)} {place : Nat}
    (positive : 0 < referrers threads place) :
    ∃ thread, ∃ phase ∈ threads.getD thread [], place ∈ phase.references := by
  by_contra nobody
  push Not at nobody
  have none : referrers threads place = 0 := by
    simp only [referrers, allRefer, List.sum_eq_zero_iff_forall_eq_nat, List.mem_map,
      forall_exists_index, and_imp, forall_apply_eq_imp_iff₂]
    intro phases inside phase member
    obtain ⟨thread, present⟩ := List.getElem?_of_mem inside
    exact List.count_eq_zero.mpr (nobody thread phase (by simpa [present] using member))
  omega

end Phase

/-- What a place holds it goes on to hold. -/
theorem Storage.Guarded.find?_of_moves {storage after : Storage} {threads : List (List Phase)}
    {retention : Retention} {thread : Thread} {phases phases' : List Phase} {added : List Mark}
    {place : Nat} {argument : Value} {result : Result} (guarded : storage.Guarded threads)
    (slots : storage.policy = .perKey) (present : threads[thread]? = some phases)
    (moves : Phase.Moves retention thread storage phases added after phases')
    (holds : storage.find? place argument = some result) :
    after.find? place argument = some result := by
  cases moves with
  | stay | apply key | count | settle outcome | counted moved => exact holds
  | @go _ key stage _ _ next moved =>
      cases stage with
      | seek | check _ | enter _ _ | inspect _ _ | clear _ _ | leave _ _ | drop _ _ =>
          rw [(Storage.alike_of_go rfl (by simp) moved).1.find, holds]
      | lock other =>
          simp only [Storage.advance, Storage.lock] at moved
          split at moved
          · cases moved
          · cases moved
            rw [Storage.find?_modifyLatch, holds]
      | look other =>
          simp only [Storage.advance, Storage.look] at moved
          split at moved <;>
          · cases moved
            exact holds
      | start other => cases moved
      | settle other outcome | unlock other outcome vacant =>
          cases moved
          rw [Storage.find?_modifyLatch, holds]
      | keep other outcome =>
          have head : Phase.applying key (.keep other outcome) ∈ threads.getD thread [] := by
            simp [present]
          have empty := guarded.missing head rfl
          have apart : ∀ stored, (storage.insert other key stored).find? place argument =
              some result := by
            intro stored
            cases storage with
            | table results => cases slots
            | slots map =>
                have different : other ≠ place := by
                  rintro rfl
                  simp only [Storage.find?] at empty holds
                  rw [empty] at holds
                  cases holds
                rw [Storage.find?_insert_of_not_joins _ _ _ _ (by
                  simpa [Storage.policy, Policy.joins] using different), holds]
          simp only [Storage.advance, Storage.keep] at moved
          split at moved
          · split at moved
            · cases moved
              exact apart _
            · cases moved
              exact holds
          · cases moved
            exact holds
  | compute moved =>
      obtain ⟨-, rfl⟩ := Storage.eq_start_of_compute moved
      rw [Storage.find?_modifyLatch, holds]
  | finish moved =>
      obtain ⟨other, -, dropped⟩ := Storage.eq_drop_of_finish moved
      rw [(Storage.alike_of_drop dropped).find, holds]
  | tally moved => rw [(Storage.alike_of_tally moved).find, holds]

/-! ## The index -/

/-- A stage of an application leaves the index as it is, unless it finds the slot of the argument or
removes it. -/
theorem Storage.index_of_go {map after : SlotMap} {retention : Retention} {thread : Thread}
    {key : Value} {stage next : Stage} {event : Option Event}
    (moved : (slots map).advance retention thread key stage = .go (slots after) event next) :
    after.index = map.index ∨ stage = .seek ∧ after = (map.obtain key).2 ∨
      ∃ place outcome, stage = .clear place outcome ∧ (map.slot place).content = none ∧
        after = map.remove key := by
  cases stage with
  | seek =>
      simp only [advance, seek] at moved
      split at moved <;> cases moved
      exact .inr (.inl ⟨rfl, rfl⟩)
  | check place =>
      simp only [advance, check] at moved
      split at moved <;> cases moved <;> exact .inl rfl
  | lock place =>
      simp only [advance, lock] at moved
      split at moved <;> cases moved
      exact .inl rfl
  | look place =>
      simp only [advance, look] at moved
      split at moved <;> cases moved <;> exact .inl rfl
  | start place => cases moved
  | keep place outcome =>
      simp only [advance, keep] at moved
      split at moved
      · split at moved <;> cases moved <;> exact .inl rfl
      · cases moved
        exact .inl rfl
  | settle place outcome | unlock place outcome vacant | inspect place outcome
  | leave place outcome =>
      cases moved
      exact .inl rfl
  | enter place outcome =>
      simp only [advance, enter] at moved
      split at moved <;> cases moved
      exact .inl rfl
  | clear place outcome =>
      simp only [advance, clear] at moved
      split at moved
      · cases moved
      · split at moved
        next empty =>
          cases moved
          exact .inr (.inr ⟨place, outcome, rfl, by simpa using empty, rfl⟩)
        next =>
          cases moved
          exact .inl rfl
  | drop place outcome => cases moved

/-- Counting leaves the index as it is. -/
theorem Storage.index_of_tally {map after : SlotMap} {counting next : Counting}
    (moved : (slots map).count counting = .go (slots after) next) : after.index = map.index := by
  cases counting with
  | collect traversal =>
      simp only [count] at moved
      split at moved <;> cases moved
      exact (map.foldl_refer _).1
  | visit ahead behind found =>
      cases ahead with
      | nil => cases moved; rfl
      | cons place ahead =>
          simp only [count] at moved
          split at moved <;> cases moved
          rfl
  | drop held found =>
      cases held with
      | nil => cases moved
      | cons place held => cases moved; rfl

/-- A slot with a result goes on to be found. -/
theorem SlotMap.Traced.find?_of_moves {map after : SlotMap} {threads : List (List Phase)}
    {retention : Retention} {thread : Thread} {phases phases' : List Phase} {added : List Mark}
    {argument : Value} {place : Nat} (traced : map.Traced threads)
    (present : threads[thread]? = some phases)
    (moves : Phase.Moves retention thread (.slots map) phases added (.slots after) phases')
    (found : map.find? argument = some place) (filled : (map.slot place).content.isSome = true) :
    after.find? argument = some place := by
  have of_index : after.index = map.index → after.find? argument = some place := by
    intro same
    rw [← found, SlotMap.find?, same, SlotMap.find?]
  cases moves with
  | stay | apply key | count | settle outcome | counted moved => exact found
  | @go _ key stage _ _ next moved =>
      rcases Storage.index_of_go moved with
        same | ⟨rfl, rfl⟩ | ⟨other, outcome, rfl, empty, rfl⟩
      · exact of_index same
      · exact map.find?_obtain_of_some key found
      · rw [map.find?_remove_of_ne, found]
        intro equal
        have head : Phase.applying key (.clear other outcome) ∈ threads.getD thread [] := by
          simp [present]
        rw [← map.find?_congr equal, traced.mapped head rfl, Option.some.injEq] at found
        subst found
        simp [empty] at filled
  | compute moved =>
      obtain ⟨rfl, modified⟩ := Storage.eq_start_of_compute moved
      cases modified
      exact of_index rfl
  | finish moved =>
      obtain ⟨other, rfl, dropped⟩ := Storage.eq_drop_of_finish moved
      cases dropped
      exact of_index rfl
  | tally moved => exact of_index (Storage.index_of_tally moved)

/-! ## Slots that are filled or tended -/

namespace SlotMap

open Phase

/-- A thread looks whether it may remove an empty slot while another, who does not tend that slot,
still refers to it. -/
def Clashes (map : SlotMap) (threads : List (List Phase)) : Prop :=
  ∃ thread other key place outcome, thread ≠ other ∧
    .applying key (.inspect place outcome) ∈ threads.getD thread [] ∧
    (∃ phase ∈ threads.getD other [], phase.lingers place = true) ∧
    (∀ phase ∈ threads.getD other [], phase.tended? ≠ some place) ∧
    (map.slot place).content = none

/-- Only threads that there are clash. -/
theorem clashes_iff {map : SlotMap} {threads : List (List Phase)} : map.Clashes threads ↔
    ∃ thread < threads.length, ∃ other < threads.length, thread ≠ other ∧
      ∃ phase ∈ threads.getD thread [], ∃ place ∈ phase.inspected?,
        (∃ phase ∈ threads.getD other [], phase.lingers place = true) ∧
        (∀ phase ∈ threads.getD other [], phase.tended? ≠ some place) ∧
        (map.slot place).content = none := by
  have present : ∀ {thread : Nat} {phase : Phase}, phase ∈ threads.getD thread [] →
      thread < threads.length := by
    intro thread phase member
    by_contra beyond
    simp [List.getElem?_eq_none (Nat.le_of_not_lt beyond)] at member
  constructor
  · rintro ⟨thread, other, key, place, outcome, different, looks, ⟨phase, member, lingers⟩, rest⟩
    exact ⟨thread, present looks, other, present member, different, _, looks, place, rfl,
      ⟨phase, member, lingers⟩, rest⟩
  · rintro ⟨thread, -, other, -, different, phase, looks, place, inspected, rest⟩
    obtain ⟨key, outcome, rfl⟩ := eq_of_inspected?.mp inspected
    exact ⟨thread, other, key, place, outcome, different, looks, rest⟩

instance (map : SlotMap) (threads : List (List Phase)) : Decidable (map.Clashes threads) :=
  decidable_of_iff _ clashes_iff.symm

/-- Every slot of the map holds a result or is tended. -/
structure Tended (map : SlotMap) (threads : List (List Phase)) : Prop where
  tended {place} (mapped : place ∈ map.places) : (map.slot place).content.isSome = true ∨
    ∃ thread, ∃ phase ∈ threads.getD thread [], phase.tended? = some place
  filled {thread key place outcome}
    (member : .applying key (.unlock place outcome false) ∈ threads.getD thread []) :
    (map.slot place).content.isSome = true

namespace Tended

variable {map after : SlotMap} {threads : List (List Phase)} {thread : Thread}
  {before now rest : List Phase} {key : Value} {place : Nat} {retention : Retention}

/-- A step that leaves what places hold. -/
private theorem update (before now : List Phase) (tended : map.Tended threads)
    (present : threads[thread]? = some (before ++ rest))
    (content : ∀ place, (map.slot place).content.isSome = true →
      (after.slot place).content.isSome = true)
    (grows : ∀ place ∈ after.places,
      place ∈ map.places ∨ ∃ phase ∈ now, phase.tended? = some place)
    (passes : ∀ phase ∈ before, ∀ place ∈ after.places, phase.tended? = some place →
      (after.slot place).content.isSome = true ∨ (∃ next ∈ now, next.tended? = some place) ∨
        ∃ other, ∃ next ∈ (threads.set thread rest).getD other [], next.tended? = some place)
    (filled : ∀ key place outcome, .applying key (.unlock place outcome false) ∈ now →
      (after.slot place).content.isSome = true) :
    after.Tended (threads.set thread (now ++ rest)) := by
  have inside : thread < threads.length := (List.getElem?_eq_some_iff.mp present).1
  have here : ∀ {place}, (∃ phase ∈ now, phase.tended? = some place) →
      ∃ other, ∃ phase ∈ (threads.set thread (now ++ rest)).getD other [],
        phase.tended? = some place := by
    rintro place ⟨phase, member, tends⟩
    exact ⟨thread, phase, by simp [inside, member], tends⟩
  have elsewhere : ∀ {other place},
      (∃ phase ∈ (threads.set thread rest).getD other [], phase.tended? = some place) →
      ∃ other, ∃ phase ∈ (threads.set thread (now ++ rest)).getD other [],
        phase.tended? = some place := by
    rintro other place ⟨phase, member, tends⟩
    exact ⟨other, phase, mem_set_of_mem now inside member, tends⟩
  constructor
  · intro place mapped
    rcases grows place mapped with already | tends
    · rcases tended.tended already with holds | ⟨other, phase, member, tends⟩
      · exact .inl (content place holds)
      · rcases mem_elsewhere_of_mem before present member with ⟨-, inward⟩ | outward
        · rcases passes phase inward place mapped tends with holds | next | ⟨other, next⟩
          · exact .inl holds
          · exact .inr (here next)
          · exact .inr (elsewhere next)
        · exact .inr (elsewhere ⟨phase, outward, tends⟩)
    · exact .inr (here tends)
  · intro other key place outcome member
    rcases mem_of_mem_set now inside member with ⟨-, inward⟩ | outward
    · exact filled key place outcome inward
    · exact content place (tended.filled (mem_of_mem_elsewhere before present outward))

/-- A step from one phase to another that tends the same place, if that is still empty. -/
private theorem turn {phase next : Phase} (tended : map.Tended threads)
    (present : threads[thread]? = some (phase :: rest))
    (content : ∀ place, (map.slot place).content.isSome = true →
      (after.slot place).content.isSome = true)
    (places : ∀ place ∈ after.places, place ∈ map.places)
    (passes : ∀ place ∈ after.places, phase.tended? = some place →
      (after.slot place).content.isSome = true ∨ next.tended? = some place)
    (filled : ∀ key place outcome, next = .applying key (.unlock place outcome false) →
      (after.slot place).content.isSome = true) :
    after.Tended (threads.set thread (next :: rest)) := by
  refine tended.update [phase] [next] present content (fun place mapped => .inl (places place mapped))
    ?_ ?_
  · simp only [List.mem_singleton, forall_eq]
    intro place mapped tends
    refine (passes place mapped tends).imp id fun still => .inl ⟨next, rfl, still⟩
  · intro key place outcome member
    exact filled key place outcome (List.mem_singleton.mp member).symm

/-- The argument of an application gets a slot, which the application tends. -/
private theorem seek (tended : map.Tended threads)
    (present : threads[thread]? = some (.applying key .seek :: rest))
    (content : ∀ place, (map.slot place).content.isSome = true →
      ((map.obtain key).2.slot place).content.isSome = true) :
    (map.obtain key).2.Tended
      (threads.set thread (.applying key (.check (map.obtain key).1) :: rest)) := by
  refine tended.update [.applying key .seek] [.applying key (.check (map.obtain key).1)] present
    content (fun place mapped => ?_) (by simp [tended?, Stage.tended?]) (by simp)
  cases found : map.find? key with
  | some number =>
      left
      rw [show (map.obtain key).2 = map.refer number by simp [obtain, found]] at mapped
      exact mapped
  | none =>
      rw [places_obtain found] at mapped
      rcases List.mem_append.mp mapped with already | new
      · exact .inl already
      · right
        rw [List.mem_singleton] at new
        simp [tended?, Stage.tended?, obtain_of_missing found, new]

/-- A thread that waits for itself tends the place where it computes. -/
private theorem refuse {outcome : Outcome} (tended : map.Tended threads)
    (guarded : (Storage.slots map).Guarded threads)
    (present : threads[thread]? = some (.applying key (.check place) :: rest))
    (owner : (map.slot place).latch.owner = some thread) :
    map.Tended (threads.set thread (.applying key (.drop place outcome) :: rest)) := by
  have inside : thread < threads.length := (List.getElem?_eq_some_iff.mp present).1
  have count := guarded.owner thread place
  rw [if_pos (show ((Storage.slots map).latch place).owner = some thread from owner),
    show threads.getD thread [] = .applying key (.check place) :: rest by simp [present],
    List.countP_cons_of_neg (by simp [Phase.owns, Phase.owned?])] at count
  have owned : 0 < rest.countP (Phase.owns (Storage.slots map).policy place) := by omega
  obtain ⟨phase, member, owns⟩ := List.countP_pos_iff.mp owned
  have tends : phase.tended? = some place := by
    obtain ⟨reached, owned, joined⟩ := (Option.any_eq_true _ _).mp owns
    have here : place = reached := by simpa [Storage.policy, Policy.joins] using joined
    exact tended?_of_owned? (here ▸ owned)
  refine tended.update [.applying key (.check place)] [.applying key (.drop place outcome)] present
    (fun _ holds => holds) (fun _ mapped => .inl mapped) ?_ (by simp)
  simp only [List.mem_singleton, forall_eq]
  rintro _ _ ⟨⟩
  exact .inr (.inr ⟨thread, phase, by simpa [inside] using member, tends⟩)

/-- A slot that is shared is tended by someone else, unless two threads give it up at once. -/
private theorem share {outcome : Outcome} (tended : map.Tended threads) (traced : map.Traced threads)
    (inward : Cache.Sound.Inward rest) (apart : ¬map.Clashes threads)
    (present : threads[thread]? = some (.applying key (.inspect place outcome) :: rest))
    (shared : ¬map.isUnshared key place = true) :
    map.Tended (threads.set thread (.applying key (.leave place outcome) :: rest)) := by
  have inside : thread < threads.length := (List.getElem?_eq_some_iff.mp present).1
  have head : Phase.applying key (.inspect place outcome) ∈ threads.getD thread [] := by
    simp [present]
  have found : map.find? key = some place := traced.mapped head rfl
  have others : 0 < referrers (threads.set thread rest) place := by
    have changed := referrers_set present rest place
    have references := traced.references place
    rw [List.count_eq_one_of_mem traced.nodup (find?_mem_places found)] at references
    have self : (Phase.applying key (.inspect place outcome)).refers place = 1 := by
      simp [refers, Phase.references, Stage.place?]
    simp only [isUnshared, found, beq_self_eq_true, Bool.and_true, beq_iff_eq] at shared
    rw [allRefer_cons, self] at changed
    omega
  obtain ⟨other, phase, member, refers⟩ := exists_of_referrers others
  have already := mem_of_mem_elsewhere [_] present member
  have tends : (map.slot place).content.isSome = true ∨
      ∃ other, ∃ next ∈ (threads.set thread rest).getD other [], next.tended? = some place := by
    rcases tended_or_lingers refers with tends | ⟨argument, result, rfl⟩ | locks | lingers
    · exact .inr ⟨other, phase, member, tends⟩
    · exact .inl (tended.filled already)
    · -- Only one thread has the lock of the map, and what that thread is inside of has not.
      exfalso
      have held : ∀ {thread phase}, phase ∈ threads.getD thread [] → phase.locksMap = true →
          map.holder = some thread := by
        intro thread phase member locks
        have positive := List.countP_pos_iff.mpr ⟨phase, member, locks⟩
        rw [traced.holder thread] at positive
        by_contra free
        rw [if_neg free] at positive
        exact Nat.lt_irrefl 0 positive
      have same : thread = other :=
        Option.some.inj ((held head rfl).symm.trans (held already locks))
      subst same
      obtain ⟨argument, reached, rfl⟩ := inward phase (by simpa [inside] using member)
      cases locks
    · by_cases same : thread = other
      · subst same
        obtain ⟨argument, reached, rfl⟩ := inward phase (by simpa [inside] using member)
        cases lingers
      · have there : (threads.set thread rest).getD other [] = threads.getD other [] := by
          simp [List.getElem?_set_ne same]
        by_contra empty
        push Not at empty
        refine apart ⟨thread, other, key, place, outcome, same, head, ⟨phase, already, lingers⟩,
          fun next inside => ?_, by simpa using empty.1⟩
        exact empty.2 other next (there ▸ inside)
  refine tended.update [.applying key (.inspect place outcome)] [.applying key (.leave place outcome)]
    present (fun _ holds => holds) (fun _ mapped => .inl mapped) ?_ (by simp)
  simp only [List.mem_singleton, forall_eq]
  rintro _ _ ⟨⟩
  exact tends.imp id .inr

/-- An application goes on to tend the place that it tended. -/
private theorem onward {stage next : Stage} (tended : map.Tended threads)
    (present : threads[thread]? = some (.applying key stage :: rest))
    (content : ∀ place, (map.slot place).content.isSome = true →
      (after.slot place).content.isSome = true)
    (places : after.places = map.places)
    (tends : ∀ place, stage.tended? = some place → next.tended? = some place)
    (unlocks : ∀ place outcome, next ≠ .unlock place outcome false) :
    after.Tended (threads.set thread (.applying key next :: rest)) := by
  refine tended.turn present content (fun _ => places ▸ id) (fun place _ => .inr ∘ tends place) ?_
  rintro _ place outcome ⟨⟩
  exact (unlocks place outcome rfl).elim

/-- An application has found or stored a result at its place. -/
private theorem fill {stage : Stage} {outcome : Outcome} (tended : map.Tended threads)
    (present : threads[thread]? = some (.applying key stage :: rest))
    (content : ∀ place, (map.slot place).content.isSome = true →
      (after.slot place).content.isSome = true)
    (places : after.places = map.places) (here : stage.tended? = some place)
    (holds : (after.slot place).content.isSome = true) :
    after.Tended (threads.set thread (.applying key (.unlock place outcome false) :: rest)) := by
  refine tended.turn present content (fun _ => places ▸ id) ?_ ?_
  · intro other _ tends
    obtain rfl : place = other := Option.some.inj (here.symm.trans tends)
    exact .inl holds
  · rintro _ _ _ ⟨⟩
    exact holds

/-- The slot that an application tended is removed. -/
private theorem remove {outcome : Outcome} (tended : map.Tended threads) (traced : map.Traced threads)
    (present : threads[thread]? = some (.applying key (.clear place outcome) :: rest))
    (content : ∀ place, (map.slot place).content.isSome = true →
      ((map.remove key).slot place).content.isSome = true) :
    (map.remove key).Tended (threads.set thread (.applying key (.leave place outcome) :: rest)) := by
  have head : Phase.applying key (.clear place outcome) ∈ threads.getD thread [] := by
    simp [present]
  obtain ⟨front, back, entries, places⟩ := places_remove (traced.mapped head rfl)
  have gone : place ∉ (map.remove key).places := by
    have nodup := traced.nodup
    rw [entries] at nodup
    rw [places]
    exact (List.nodup_cons.mp (List.nodup_middle.mp nodup)).1
  refine tended.turn present content (fun other mapped => ?_) ?_ (by simp)
  · rw [places] at mapped
    rw [entries]
    simp only [List.mem_append, List.mem_cons] at mapped ⊢
    tauto
  · rintro _ mapped ⟨⟩
    exact absurd mapped gone

/-- A step of an application from one stage to another. -/
private theorem go {stage next : Stage} {event : Option Event} (tended : map.Tended threads)
    (guarded : (Storage.slots map).Guarded threads) (traced : map.Traced threads)
    (inward : Cache.Sound.Inward rest) (apart : ¬map.Clashes threads)
    (present : threads[thread]? = some (.applying key stage :: rest))
    (content : ∀ place, (map.slot place).content.isSome = true →
      (after.slot place).content.isSome = true)
    (moved : (Storage.slots map).advance retention thread key stage =
      .go (.slots after) event next) :
    after.Tended (threads.set thread (.applying key next :: rest)) := by
  have head : Phase.applying key stage ∈ threads.getD thread [] := by simp [present]
  cases stage with
  | seek =>
      simp only [Storage.advance, Storage.seek] at moved
      split at moved
      · cases moved
      · cases moved
        exact tended.seek present content
  | check place =>
      simp only [Storage.advance, Storage.check] at moved
      split at moved
      next owner =>
        cases moved
        exact tended.refuse guarded present owner
      next =>
        cases moved
        exact tended.onward present content rfl (fun _ => id) (by simp)
  | lock place =>
      simp only [Storage.advance, Storage.lock] at moved
      split at moved
      · cases moved
      · cases moved
        exact tended.onward present content rfl (fun _ => id) (by simp)
  | look place =>
      simp only [Storage.advance, Storage.look, Storage.find?] at moved
      split at moved
      next result seen =>
        cases moved
        exact tended.fill present content rfl rfl (by simp [seen])
      next =>
        cases moved
        exact tended.onward present content rfl (fun _ => id) (by simp)
  | start place => cases moved
  | settle place outcome =>
      cases moved
      exact tended.onward present content rfl (fun _ => id) (by simp)
  | keep place outcome =>
      simp only [Storage.advance, Storage.keep] at moved
      split at moved
      next result =>
        split at moved
        · cases moved
          refine tended.fill present content rfl rfl ?_
          rw [map.slot_modify_self _ (traced.known head (by simp [Phase.references, Stage.place?]))]
          rfl
        · cases moved
          exact tended.onward present content rfl (fun _ => id) (by simp)
      next =>
        cases moved
        exact tended.onward present content rfl (fun _ => id) (by simp)
  | unlock place outcome vacant =>
      cases moved
      cases vacant with
      | true => exact tended.onward present content rfl (fun _ => id) (by simp)
      | false => exact tended.onward present content rfl (by simp [Stage.tended?]) (by simp)
  | enter place outcome =>
      simp only [Storage.advance, Storage.enter] at moved
      split at moved
      · cases moved
      · cases moved
        exact tended.onward present content rfl (fun _ => id) (by simp)
  | inspect place outcome =>
      cases moved
      by_cases unshared : map.isUnshared key place = true
      · rw [if_pos unshared]
        exact tended.onward present content rfl (fun _ => id) (by simp)
      · rw [if_neg unshared]
        exact tended.share traced inward apart present unshared
  | clear place outcome =>
      simp only [Storage.advance, Storage.clear] at moved
      split at moved
      · cases moved
      · split at moved
        next =>
          cases moved
          exact tended.remove traced present content
        next filled =>
          cases moved
          refine tended.turn present content (fun _ => id) ?_ (by simp)
          rintro _ _ ⟨⟩
          exact .inl (Option.isSome_iff_ne_none.mpr (by simpa using filled))
  | leave place outcome =>
      cases moved
      exact tended.onward present content rfl (by simp [Stage.tended?]) (by simp)
  | drop place outcome => cases moved

/-- A step of a thread keeps all slots filled or tended, unless two threads give one up at once. -/
theorem moves {phases phases' : List Phase} {added : List Mark} (tended : map.Tended threads)
    (guarded : (Storage.slots map).Guarded threads) (traced : map.Traced threads)
    (inward : Cache.Sound.Inward phases.tail) (apart : ¬map.Clashes threads)
    (present : threads[thread]? = some phases)
    (moves : Phase.Moves retention thread (.slots map) phases added (.slots after) phases') :
    after.Tended (threads.set thread phases') := by
  have content : ∀ place, (map.slot place).content.isSome = true →
      (after.slot place).content.isSome = true := by
    intro place holds
    obtain ⟨result, holds⟩ := Option.isSome_iff_exists.mp holds
    have still := guarded.find?_of_moves rfl present moves
      (show (Storage.slots map).find? place .unit = some result from holds)
    exact Option.isSome_iff_exists.mpr ⟨result, still⟩
  cases moves with
  | stay =>
      exact tended.update [] [] present content (fun _ mapped => .inl mapped) (by simp) (by simp)
  | apply key | count =>
      exact tended.update [] [_] present content (fun _ mapped => .inl mapped) (by simp) (by simp)
  | go moved => exact tended.go guarded traced inward apart present content moved
  | compute moved =>
      obtain ⟨rfl, modified⟩ := Storage.eq_start_of_compute moved
      cases modified
      exact tended.turn present content (fun _ => id) (fun _ _ => .inr) (by simp)
  | settle outcome => exact tended.turn present content (fun _ => id) (fun _ _ => .inr) (by simp)
  | finish moved =>
      obtain ⟨place, rfl, dropped⟩ := Storage.eq_drop_of_finish moved
      cases dropped
      exact tended.update [_] [] present content (fun _ mapped => .inl mapped)
        (by simp [tended?, Stage.tended?]) (by simp)
  | tally moved =>
      have places : after.places = map.places := by
        rw [SlotMap.places, Storage.index_of_tally moved, SlotMap.places]
      exact tended.turn present content (fun _ => places ▸ id) (by simp [tended?]) (by simp)
  | counted moved =>
      exact tended.update [_] [] present content (fun _ mapped => .inl mapped) (by simp [tended?])
        (by simp)

end Tended

end SlotMap

namespace Cache

/-- Two threads give up an empty slot of a cache at once. -/
def Clashes (cache : Cache) (threads : List (List Phase)) : Prop :=
  ∃ map, cache.storage = .slots map ∧ map.Clashes threads

instance (cache : Cache) (threads : List (List Phase)) : Decidable (cache.Clashes threads) :=
  match storage : cache.storage with
  | .table _ => isFalse (by simp [Clashes, storage])
  | .slots map => decidable_of_iff (map.Clashes threads) (by simp [Clashes, storage])

/-- Every slot of a cache holds a result or is tended. -/
def Tended (cache : Cache) (threads : List (List Phase)) : Prop :=
  ∀ map, cache.storage = .slots map → map.Tended threads

/-- Slots are filled or tended as long as no two threads give one up at once. -/
theorem tended_invariant : Cache.Invariant (fun cache threads => ¬cache.Clashes threads)
    (fun cache threads _ => cache.Tended threads) := by
  refine ⟨?_, ?_, ?_⟩
  · intro cache threads marks added thread phases phases' after sound before along inward present
      moves
    rintro map rfl
    obtain ⟨underlying, retention, storage⟩ := cache
    cases storage with
    | table results => cases moves.policy
    | slots earlier =>
        exact (before earlier rfl).moves sound.guarded (sound.traced earlier rfl) inward
          (fun clashes => along ⟨earlier, rfl, clashes⟩) present moves
  · intro cache threads policy empty idle map storage
    obtain rfl : map = {} := by
      rw [empty] at storage
      cases policy <;> cases storage
      rfl
    refine ⟨fun mapped => (by cases mapped), fun member => ?_⟩
    have fresh := Phase.isFresh_of_idle idle member
    cases fresh
  · intro cache threads threads' marks sound before idle idle' map storage
    refine ⟨fun mapped => ?_, fun member => ?_⟩
    · rcases (before map storage).tended mapped with holds | ⟨thread, phase, member, -⟩
      · exact .inl holds
      · rw [Phase.getD_of_idle idle] at member
        cases member
    · rw [Phase.getD_of_idle idle'] at member
      cases member

end Cache

namespace System

variable {limit number : Nat} {system : System} {cache : Cache} {map : SlotMap}

/-- Two threads give up an empty slot of a cache at once: one looks whether it may remove the slot,
and the other is done with it but has yet to give up its reference. -/
def Clashes (system : System) (number : Nat) : Prop :=
  ∃ cache, system.world.caches[number]? = some cache ∧ cache.Clashes (system.phases number)

instance (system : System) (number : Nat) : Decidable (system.Clashes number) :=
  match found : system.world.caches[number]? with
  | none => isFalse (by simp [Clashes, found])
  | some cache => decidable_of_iff (cache.Clashes (system.phases number)) (by simp [Clashes, found])

/-- A thread that is alone clashes with nobody. -/
theorem not_clashes (alone : system.workers.length ≤ 1) : ¬system.Clashes number := by
  rintro ⟨cache, -, map, -, thread, other, key, place, outcome, different, looks,
    ⟨phase, lingers, -⟩, -⟩
  have only : ∀ {thread phase}, phase ∈ (system.phases number).getD thread [] → thread = 0 := by
    intro thread phase member
    by_contra beyond
    have absent : (system.phases number)[thread]? = none := by
      rw [List.getElem?_eq_none_iff, System.phases, List.length_map]
      omega
    simp [absent] at member
  exact different ((only looks).trans (only lingers).symm)

/-- In a program of a single thread nobody clashes. -/
theorem Reached.apart (reached : system.Reached 1) (number : Nat) :
    Relation.ReflTransGen (fun middle next => Happens 1 middle next ∧ ¬middle.Clashes number)
      ⟨{}, []⟩ system := by
  induction reached with
  | refl => exact .refl
  | tail before happens induction =>
      exact .tail induction ⟨happens, not_clashes (Reached.length_le before)⟩

/-- Every slot is filled or tended where no two threads give up an empty slot at once. -/
theorem tended_of_apart
    (reached : Relation.ReflTransGen (fun middle next => Happens limit middle next ∧
      ¬middle.Clashes number) ⟨{}, []⟩ system)
    (found : system.world.caches[number]? = some cache) (storage : cache.storage = .slots map) :
    map.Tended (system.phases number) := by
  have path : ∀ {middle next : System}, Happens limit middle next ∧ ¬middle.Clashes number →
      Happens limit middle next ∧
        middle.Holds number fun cache threads _ => ¬cache.Clashes threads :=
    fun step => ⟨step.1, fun cache found clashes => step.2 ⟨cache, found, clashes⟩⟩
  obtain ⟨-, holds⟩ := Cache.tended_invariant.of_reaches sound_empty (by rintro _ ⟨⟩)
    (Relation.ReflTransGen.mono (fun _ _ => path) _ _ reached)
  exact holds cache found map storage

/-- When all threads are done, every slot of the map holds a result, provided that no two threads
gave up an empty slot at once. -/
theorem every_slot_filled
    (reached : Relation.ReflTransGen (fun middle next => Happens limit middle next ∧
      ¬middle.Clashes number) ⟨{}, []⟩ system)
    (found : system.world.caches[number]? = some cache) (storage : cache.storage = .slots map)
    (done : ∀ worker ∈ system.workers, worker.isDone = true) :
    ∀ entry ∈ map.index, (map.slot entry.2).content.isSome = true := by
  intro entry member
  have mapped : entry.2 ∈ map.places := List.mem_map_of_mem (f := (·.2)) member
  rcases (tended_of_apart reached found storage).tended mapped with filled | ⟨_, phase, member, -⟩
  · exact filled
  · rw [Phase.getD_of_idle (phases_of_done done number)] at member
    cases member

/-- A thread fails and leaves its slot to another that waits for it, which stores a result there
before the first has given up its reference. -/
theorem every_slot_filled_faltering :
    ∃ system cache map, (callers .perKey faltering [[.int 1], [.int 1]]).follow
        (List.replicate 7 0 ++ List.replicate 4 1 ++ List.replicate 13 0 ++ List.replicate 15 1 ++
          List.replicate 2 0) = some system ∧
      system.outcomes = [[.error (.raised (.text "no result"))], [.ok (.value (.int 1))]] ∧
      system.world.caches[0]? = some cache ∧ cache.storage = .slots map ∧
      map.index = [(.int 1, 0)] ∧ ∀ entry ∈ map.index, (map.slot entry.2).content.isSome = true := by
  have followed : ∃ system cache map, (callers .perKey faltering [[.int 1], [.int 1]]).follow
        (List.replicate 7 0 ++ List.replicate 4 1 ++ List.replicate 13 0 ++ List.replicate 15 1 ++
          List.replicate 2 0) = some system ∧
      system.workers.all (·.isDone) = true ∧
      system.outcomes = [[.error (.raised (.text "no result"))], [.ok (.value (.int 1))]] ∧
      system.world.caches[0]? = some cache ∧ cache.storage = .slots map ∧
      map.index = [(.int 1, 0)] :=
    ⟨_, _, _, rfl, rfl, rfl, rfl, rfl, rfl⟩
  obtain ⟨system, cache, map, followed, done, outcomes, found, storage, index⟩ := followed
  have begun : Relation.ReflTransGen (fun middle next => Happens 2 middle next ∧
      ¬next.Clashes 0) ⟨{}, []⟩ (callers .perKey faltering [[.int 1], [.int 1]]) :=
    .head ⟨.make (.memoize {} .perKey .all (.plain 0 faltering)), by decide⟩
      (.single ⟨.start _ (by simp) (by simp), by decide⟩)
  have along : Relation.ReflTransGen (fun middle next => Happens 2 middle next ∧
      ¬next.Clashes 0) (callers .perKey faltering [[.int 1], [.int 1]]) system :=
    reaches_along followed (by decide +kernel)
  exact ⟨system, cache, map, followed, outcomes, found, storage, index, every_slot_filled
    (holds_before (by decide) (begun.trans along)).1 found storage (by simpa using done)⟩

/-- Code that fails for every argument. -/
def failing : Code := fun _ => .raise "no result"

/-- Two threads apply a function that fails to the same argument, the second while the first
computes. Each finds the slot shared and leaves it to the other, the first before the second looks
at it and the second before the first gives up its reference. When both are done the map has a slot
without a result. -/
theorem empty_slot_stays :
    ∃ system cache map, (callers .perKey failing [[.int 1], [.int 1]]).Reached 2 ∧
      (callers .perKey failing [[.int 1], [.int 1]]).follow
          (List.replicate 7 0 ++ List.replicate 4 1 ++ List.replicate 9 0 ++ List.replicate 14 1 ++
            List.replicate 2 0) = some system ∧
      (∀ worker ∈ system.workers, worker.isDone = true) ∧
      system.world.caches[0]? = some cache ∧ cache.storage = .slots map ∧
      map.index = [(.int 1, 0)] ∧ (map.slot 0).content = none := by
  have followed : ∃ system cache map,
      (callers .perKey failing [[.int 1], [.int 1]]).follow
          (List.replicate 7 0 ++ List.replicate 4 1 ++ List.replicate 9 0 ++ List.replicate 14 1 ++
            List.replicate 2 0) = some system ∧
      system.workers.all (·.isDone) = true ∧ system.world.caches[0]? = some cache ∧
      cache.storage = .slots map ∧ map.index = [(.int 1, 0)] ∧ (map.slot 0).content = none :=
    ⟨_, _, _, rfl, rfl, rfl, rfl, rfl, rfl⟩
  obtain ⟨system, cache, map, followed, done, found, storage, index, empty⟩ := followed
  exact ⟨system, cache, map, reached_callers .perKey failing [[.int 1], [.int 1]], followed,
    by simpa using done, found, storage, index, empty⟩

end System

end FunctionValues
