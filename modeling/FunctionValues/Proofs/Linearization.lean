import FunctionValues.Proofs.Timelines
import Mathlib.Data.List.Perm.Subperm
import Mathlib.Tactic.IntervalCases

/-!
# Counting while results are stored

The count of the results of a slot map is put together over many instants, while other threads add
slots that were not collected, fill slots before or after they are visited, and remove empty ones.
Results are stored one at a time and stay. So a count is no less than the number of results when the
slots were collected, and no more than their number when the last slot has been visited; and the
cache has come through every number between these.
-/

namespace FunctionValues

namespace Storage

/-- Whether a slot holds a result. -/
def isFilled (storage : Storage) (place : Nat) : Bool :=
  match storage with
  | table _ => false
  | slots map => (map.slot place).content.isSome

/-- Every slot with a result is in the map. -/
def Housed (storage : Storage) : Prop :=
  ∀ map, storage = slots map → ∀ place, storage.isFilled place = true →
    ∃ key, map.find? key = some place

/-- Nothing is given up from one storage to another, and at most one result is added. -/
structure Grows (storage after : Storage) : Prop where
  policy : after.policy = storage.policy
  size_le : storage.size ≤ after.size
  le_succ : after.size ≤ storage.size + 1
  filled {place : Nat} (filled : storage.isFilled place = true) : after.isFilled place = true

theorem Grows.refl (storage : Storage) : storage.Grows storage :=
  ⟨rfl, Nat.le_refl _, Nat.le_succ _, id⟩

theorem isFilled_of_find? {storage after : Storage} (policy : after.policy = storage.policy)
    (find : ∀ place key, after.find? place key = storage.find? place key) (place : Nat) :
    after.isFilled place = storage.isFilled place := by
  cases storage with
  | table results =>
      cases after with
      | table => rfl
      | slots => cases policy
  | slots map =>
      cases after with
      | table => cases policy
      | slots map' =>
          have content : (map'.slot place).content = (map.slot place).content := find place .unit
          simp only [isFilled, content]

theorem Agrees.grows {storage after : Storage} (agrees : storage.Agrees after)
    (policy : after.policy = storage.policy)
    (find : ∀ place key, after.find? place key = storage.find? place key) :
    storage.Grows after := by
  refine ⟨policy, Nat.le_of_eq agrees.size.symm, by rw [agrees.size]; exact Nat.le_succ _, ?_⟩
  intro place filled
  rw [isFilled_of_find? policy find, filled]

/-- Counting adds no result. -/
theorem grows_of_tally {storage after : Storage} {counting next : Counting}
    (moved : storage.count counting = .go after next) : storage.Grows after :=
  (Agrees.of_tally moved).grows (alike_of_tally moved).policy (alike_of_tally moved).find

/-- Storing a result fills its slot and no other. -/
theorem isFilled_insert {map : SlotMap} {place other : Nat} (key : Value) (result : Result)
    (known : place < map.slots.length) :
    ((slots map).insert place key result).isFilled other =
      (place == other || (slots map).isFilled other) := by
  by_cases here : place = other
  · subst here
    simp [insert, isFilled, map.slot_modify_self _ known]
  · simp [insert, isFilled, map.slot_modify_of_ne _ here, here]

end Storage

namespace Cache.Sound

variable {cache : Cache} {threads : List (List Phase)} {marks added : List Mark} {thread : Thread}
  {phases phases' : List Phase} {after : Storage}

/-- A step of a thread leaves what every place holds, or it stores one result. -/
theorem agrees_or_inserts (sound : cache.Sound threads marks)
    (present : threads[thread]? = some phases)
    (moves : Phase.Moves cache.retention thread cache.storage phases added after phases') :
    (cache.storage.Agrees after ∧
        ∀ place key, after.find? place key = cache.storage.find? place key) ∨
      ∃ key place outcome result rest, phases = .applying key (.keep place outcome) :: rest ∧
        after = cache.storage.insert place key result := by
  cases moves with
  | stay | apply key | count | settle outcome | counted moved =>
      exact .inl ⟨.refl _, fun _ _ => rfl⟩
  | @go rest key stage _ event next moved =>
      by_cases keeps : ∃ place outcome, stage = .keep place outcome
      · obtain ⟨place, outcome, rfl⟩ := keeps
        cases Storage.goes_of_go moved with
        | stored => exact .inr ⟨key, place, _, _, rest, rfl, rfl⟩
        | notRetained | failed => exact .inl ⟨.refl _, fun _ _ => rfl⟩
        | passed _ _ _ cleans => simp at cleans
      · push Not at keeps
        have member : Phase.applying key stage ∈ threads.getD thread [] := by simp [present]
        refine .inl ⟨sound.agrees_of_go member keeps moved, ?_⟩
        cases Storage.goes_of_go moved with
        | refused | admitted | hit | missed | passed | unshared | shared | spared =>
            exact fun _ _ => rfl
        | latched | settled | unlatched => exact (Storage.find?_modifyLatch _ _ · _ ·)
        | stored | notRetained | failed => exact absurd rfl (keeps _ _)
        | sought | entered | removed | left =>
            exact (Storage.alike_of_go rfl (by simp) moved).1.find
  | compute moved =>
      obtain ⟨-, rfl⟩ := Storage.eq_start_of_compute moved
      exact .inl ⟨.of_modifyLatch .., (Storage.find?_modifyLatch _ _ · _ ·)⟩
  | finish moved =>
      obtain ⟨place, -, dropped⟩ := Storage.eq_drop_of_finish moved
      exact .inl ⟨.of_drop dropped, (Storage.alike_of_drop dropped).find⟩
  | tally moved => exact .inl ⟨.of_tally moved, (Storage.alike_of_tally moved).find⟩

/-- A step of a thread stores one result at most, and gives up none. -/
theorem grows (sound : cache.Sound threads marks) (present : threads[thread]? = some phases)
    (moves : Phase.Moves cache.retention thread cache.storage phases added after phases') :
    cache.storage.Grows after := by
  rcases sound.agrees_or_inserts present moves with
    ⟨agrees, find⟩ | ⟨key, place, outcome, result, rest, rfl, rfl⟩
  · exact agrees.grows moves.policy find
  · have member : Phase.applying key (.keep place outcome) ∈ threads.getD thread [] := by
      simp [present]
    have size : (cache.storage.insert place key result).size = cache.storage.size + 1 :=
      sound.size_insert member rfl
    refine ⟨moves.policy, by omega, Nat.le_of_eq size, fun {other} filled => ?_⟩
    cases storage : cache.storage with
    | table results => simp [storage, Storage.isFilled] at filled
    | slots map =>
        have known : place < map.slots.length :=
          (sound.traced map storage).known member (by simp [Phase.references, Stage.place?])
        rw [storage] at filled
        simp [Storage.isFilled_insert key result known, filled]

end Cache.Sound

/-- Whatever threads do, slots with results are in the map. -/
theorem Cache.housed_invariant :
    Cache.Invariant (fun _ _ => True) fun cache _ _ => cache.storage.Housed where
  moves := by
    intro cache threads marks added thread phases phases' after sound housed _ _ present moves
    rintro map' rfl place filled
    obtain ⟨underlying, retention, storage⟩ := cache
    cases storage with
    | table results => cases moves.policy
    | slots map =>
        have traced := sound.traced map rfl
        rcases sound.agrees_or_inserts present moves with
          ⟨-, find⟩ | ⟨key, other, outcome, result, rest, rfl, inserted⟩
        · have before : (Storage.slots map).isFilled place = true :=
            (Storage.isFilled_of_find? moves.policy find place).symm.trans filled
          obtain ⟨key, found⟩ := housed map rfl place before
          exact ⟨key, traced.find?_of_moves present moves found before⟩
        · have member : Phase.applying key (.keep other outcome) ∈ threads.getD thread [] := by
            simp [present]
          have known : other < map.slots.length :=
            traced.known member (by simp [Phase.references, Stage.place?])
          simp only [inserted, Storage.isFilled_insert key result known, Bool.or_eq_true,
            beq_iff_eq] at filled
          cases inserted
          rcases filled with rfl | before
          · exact ⟨key, traced.mapped member rfl⟩
          · exact housed map rfl place before
  fresh := by
    intro cache threads policy empty _ map here place filled
    rw [here] at empty filled
    cases policy <;> cases empty
    simp [Storage.isFilled, SlotMap.slot] at filled
  restart _ housed _ _ := housed

/-! ## What counting has come to -/

/-- A count that began when there were so many results fits the storage that it goes on with. -/
def Counting.Fits (storage : Storage) (least : Nat) : Counting → Prop
  | .collect _ => False
  | .visit ahead behind count =>
      storage.policy = .perKey ∧ (ahead ++ behind).Nodup ∧
        least ≤ count + ahead.countP storage.isFilled ∧ count ≤ behind.countP storage.isFilled
  | .drop _ count => storage.policy = .perKey ∧ least ≤ count ∧ count ≤ storage.size

namespace Counting.Fits

variable {storage after : Storage} {least : Nat} {counting next : Counting}

private theorem countP_le (grows : storage.Grows after) (places : List Nat) :
    places.countP storage.isFilled ≤ places.countP after.isFilled :=
  List.countP_mono_left fun _ _ filled => grows.filled filled

/-- What other threads do to the storage. -/
theorem of_grows (fits : counting.Fits storage least) (grows : storage.Grows after) :
    counting.Fits after least := by
  cases counting with
  | collect traversal => exact fits
  | visit ahead behind count =>
      obtain ⟨slots, nodup, low, high⟩ := fits
      have ahead := countP_le grows ahead
      have behind := countP_le grows behind
      exact ⟨grows.policy.trans slots, nodup, by omega, by omega⟩
  | drop held count =>
      obtain ⟨slots, low, high⟩ := fits
      exact ⟨grows.policy.trans slots, low, Nat.le_trans high grows.size_le⟩

/-- Visited slots that hold a result are as many results of the map. -/
private theorem countP_le_stored {map : SlotMap} {places : List Nat}
    (housed : (Storage.slots map).Housed) (nodup : places.Nodup) :
    places.countP (Storage.slots map).isFilled ≤ map.stored := by
  have inside : places.filter (Storage.slots map).isFilled ⊆
      map.places.filter (Storage.slots map).isFilled := by
    intro place member
    obtain ⟨-, filled⟩ := List.mem_filter.mp member
    obtain ⟨key, found⟩ := housed map rfl place filled
    exact List.mem_filter.mpr ⟨SlotMap.find?_mem_places found, filled⟩
  have shorter := ((nodup.filter _).subperm inside).length_le
  rw [← List.countP_eq_length_filter, ← List.countP_eq_length_filter] at shorter
  simpa [SlotMap.places, SlotMap.stored, List.countP_map, Function.comp_def, Storage.isFilled]
    using shorter

/-- The slots that are collected hold as many results as there are. -/
theorem of_collect {map : SlotMap} {traversal : Traversal} (nodup : map.places.Nodup)
    (moved : (Storage.slots map).count (.collect traversal) = .go after next) :
    next.Fits after (Storage.slots map).size := by
  refine of_grows ?_ (Storage.grows_of_tally moved)
  simp only [Storage.count] at moved
  split at moved <;> cases moved
  have perm : (traversal.arrange map.places).Perm map.places := traversal.perm map.places
  refine ⟨rfl, by simpa [SlotMap.places] using perm.nodup_iff.mpr nodup, ?_, by simp⟩
  have filled := perm.countP_eq (Storage.slots map).isFilled
  simp only [SlotMap.places] at filled
  simp [filled, Storage.size, SlotMap.stored, List.countP_map, Function.comp_def,
    Storage.isFilled]

/-- A step of counting. -/
theorem of_tally (fits : counting.Fits storage least) (housed : storage.Housed)
    (moved : storage.count counting = .go after next) : next.Fits after least := by
  refine of_grows ?_ (Storage.grows_of_tally moved)
  cases storage with
  | table results =>
      cases counting with
      | collect traversal => cases fits
      | visit | drop => cases fits.1
  | slots map =>
      cases counting with
      | collect traversal => cases fits
      | visit ahead behind count =>
          obtain ⟨slots, nodup, low, high⟩ := fits
          cases ahead with
          | nil =>
              cases moved
              exact ⟨rfl, low, Nat.le_trans high (countP_le_stored housed nodup)⟩
          | cons place ahead =>
              simp only [Storage.count] at moved
              split at moved <;> cases moved
              refine ⟨rfl, List.perm_middle.nodup_iff.mpr nodup, ?_⟩
              change least ≤ (if (Storage.slots map).isFilled place then count + 1 else count) + _ ∧
                (if (Storage.slots map).isFilled place then count + 1 else count) ≤ _
              rw [List.countP_cons] at low ⊢
              by_cases filled : (Storage.slots map).isFilled place = true
              · simp only [if_pos filled] at low ⊢
                omega
              · simp only [if_neg filled] at low ⊢
                omega
      | drop held count =>
          obtain ⟨slots, low, high⟩ := fits
          cases held with
          | nil => cases moved
          | cons place held =>
              cases moved
              exact ⟨rfl, low, high⟩

/-- The number that counting ends with. -/
theorem of_finish {count : Nat} (fits : counting.Fits storage least)
    (moved : storage.count counting = .finish count) : least ≤ count ∧ count ≤ storage.size := by
  cases storage with
  | table results =>
      cases counting with
      | collect traversal => cases fits
      | visit | drop => cases fits.1
  | slots map =>
      cases counting with
      | collect traversal => cases fits
      | visit ahead behind found =>
          cases ahead with
          | nil => cases moved
          | cons place ahead =>
              simp only [Storage.count] at moved
              split at moved <;> cases moved
      | drop held found =>
          cases held with
          | nil =>
              cases moved
              exact fits.2
          | cons place held => cases moved

end Counting.Fits

/-- The results of a table are counted at once. -/
theorem Storage.size_of_finish {storage : Storage} {traversal : Traversal} {count : Nat}
    (moved : storage.count (.collect traversal) = .finish count) : storage.size = count := by
  cases storage <;> rw [Storage.count] at moved <;> split at moved <;> cases moved
  rfl

namespace System

variable {limit last start stop number : Nat} {system after : System} {thread : Thread}
  {cache origin : Cache} {counting : Counting} {frames : List Frame} {outcome : Outcome}
  {line : Nat → System}

/-- A cache holds so many results. -/
def HasResults (system : System) (number count : Nat) : Prop :=
  ∃ cache, system.world.caches[number]? = some cache ∧ cache.storage.size = count

/-- Whatever occurs stores one result of a cache at most, and gives up none. -/
theorem Occurs.grows (sound : system.Sound) (occurs : Occurs limit system after)
    (found : system.world.caches[number]? = some cache) :
    ∃ storage, after.world.caches[number]? = some { cache with storage } ∧
      cache.storage.Grows storage := by
  rcases occurs.moves found with
    ⟨thread, phases, phases', storage, added, present, kept, -, moves⟩ | ⟨kept, -⟩
  · exact ⟨storage, kept, (sound.present found).grows present moves⟩
  · exact ⟨cache.storage, kept, .refl _⟩

/-- A thread that makes a step of counting goes on, or it has the number. -/
theorem At.tally (at' : system.At thread ⟨.counting number counting, frames⟩)
    (stepped : system.step thread = some after) :
    ∃ cache, system.world.caches[number]? = some cache ∧
      ((∃ storage next, cache.storage.count counting = .go storage next ∧
          after.world.caches[number]? = some { cache with storage } ∧
          after.At thread ⟨.counting number next, frames⟩) ∨
        ∃ count : Nat, cache.storage.count counting = .finish count ∧
          after.At thread ⟨.answer (.ok (.value (.int count))), frames⟩) := by
  obtain ⟨cache, found⟩ := at'.cache_of_step (.inr ⟨counting, rfl⟩) stepped
  refine ⟨cache, found, ?_⟩
  have progress : Activity.next thread system.world ⟨.counting number counting, frames⟩ =
      (cache.storage.count counting).progress system.world number frames := by
    simp only [Activity.next, found]
  cases moved : cache.storage.count counting with
  | wait =>
      rw [moved] at progress
      rw [at'.step_of_wait progress] at stepped
      cases stepped
  | go storage next =>
      rw [moved] at progress
      obtain ⟨world, there⟩ := at'.eq_of_progress stepped progress
      exact .inl ⟨storage, next, rfl, by simp [world, World.caches_setStorage, found], there⟩
  | finish count =>
      rw [moved] at progress
      exact .inr ⟨count, rfl, (at'.eq_of_progress stepped progress).2⟩

/-- A thread counts the results of a cache: it begins at one instant, is at it up to another, and
has an outcome at the next one. -/
structure Counts (line : Nat → System) (thread : Thread) (number : Nat) (frames : List Frame)
    (start stop : Nat) (outcome : Outcome) : Prop where
  ordered : start ≤ stop
  began : ∃ traversal, (line start).At thread ⟨.counting number (.collect traversal), frames⟩
  underway {instant : Nat} (since : start ≤ instant) (upto : instant ≤ stop) :
    ∃ counting, (line instant).At thread ⟨.counting number counting, frames⟩
  returned : (line (stop + 1)).At thread ⟨.answer outcome, frames⟩

/-- What counting has come to at an instant: the slots are yet to be collected, or they were
collected at an instant since when all fits. -/
def Collected (line : Nat → System) (number start instant : Nat) (counting : Counting) : Prop :=
  (∃ traversal, counting = .collect traversal) ∨ ∃ first origin cache, start ≤ first ∧ first ≤ instant ∧
    (line first).world.caches[number]? = some origin ∧
    (line instant).world.caches[number]? = some cache ∧
    counting.Fits cache.storage origin.storage.size

namespace IsTimeline

/-- A cache comes through every number of results between those of two instants. -/
theorem passes (timeline : IsTimeline limit line last)
    (found : (line start).world.caches[number]? = some origin) (ordered : start ≤ stop)
    (within : stop ≤ last) :
    ∃ cache, (line stop).world.caches[number]? = some cache ∧
      ∀ count, origin.storage.size ≤ count → count ≤ cache.storage.size →
        ∃ instant, start ≤ instant ∧ instant ≤ stop ∧ (line instant).HasResults number count := by
  induction ordered with
  | refl =>
      exact ⟨origin, found, fun count low high =>
        ⟨start, Nat.le_refl _, Nat.le_refl _, origin, found, Nat.le_antisymm low high⟩⟩
  | @step stop ordered induction =>
      have earlier := Nat.le_of_succ_le within
      obtain ⟨cache, here, passed⟩ := induction earlier
      obtain ⟨storage, there, grows⟩ :=
        (timeline.occurs within).grows (timeline.sound earlier) here
      refine ⟨_, there, fun count low high => ?_⟩
      by_cases before : count ≤ cache.storage.size
      · obtain ⟨instant, since, upto, has⟩ := passed count low before
        exact ⟨instant, since, Nat.le_succ_of_le upto, has⟩
      · have size : storage.size = count :=
          Nat.le_antisymm (Nat.le_trans grows.le_succ (Nat.lt_of_not_le before)) high
        exact ⟨stop + 1, Nat.le_succ_of_le ordered, Nat.le_refl _, _, there, size⟩

/-- What occurs lets a count that has been underway go on. -/
private theorem collected_succ {instant : Nat} {next : Counting}
    (timeline : IsTimeline limit line last) (within : instant < last)
    (at' : (line instant).At thread ⟨.counting number counting, frames⟩)
    (at'' : (line (instant + 1)).At thread ⟨.counting number next, frames⟩)
    (since : start ≤ instant) (collected : Collected line number start instant counting) :
    Collected line number start (instant + 1) next := by
  have earlier := Nat.le_of_lt within
  have occurs := timeline.occurs within
  rcases at'.of_occurs (by simp) occurs with stepped | still
  · obtain ⟨cache, found, ⟨storage, next', moved, there, onward⟩ | ⟨_, -, ended⟩⟩ :=
      at'.tally stepped
    · cases at''.unique onward
      rcases collected with ⟨traversal, rfl⟩ | ⟨first, origin, cache', since', upto, was, now, fits⟩
      · cases slots : cache.storage with
        | table results =>
            rw [slots, Storage.count] at moved
            split at moved <;> cases moved
        | slots map =>
            have traced := ((timeline.sound earlier).present found).traced map slots
            rw [slots] at moved
            have fits := Counting.Fits.of_collect traced.nodup moved
            exact .inr ⟨instant, cache, _, since, Nat.le_succ _, found, there, slots ▸ fits⟩
      · obtain rfl : cache' = cache := Option.some.inj (now.symm.trans found)
        exact .inr ⟨first, origin, _, since', Nat.le_succ_of_le upto, was, there,
          fits.of_tally (timeline.holds Cache.housed_invariant earlier cache' found) moved⟩
    · cases at''.unique ended
  · cases at''.unique still
    rcases collected with ⟨traversal, rfl⟩ | ⟨first, origin, cache, since', upto, was, now, fits⟩
    · exact .inl ⟨traversal, rfl⟩
    · obtain ⟨storage, there, grows⟩ := occurs.grows (timeline.sound earlier) now
      exact .inr ⟨first, origin, _, since', Nat.le_succ_of_le upto, was, there,
        fits.of_grows grows⟩

/-- As long as a count is underway, what it has come to fits. -/
private theorem collected (timeline : IsTimeline limit line last) {instant : Nat}
    (counts : Counts line thread number frames start stop outcome) (within : stop ≤ last)
    (since : start ≤ instant) (upto : instant ≤ stop)
    (at' : (line instant).At thread ⟨.counting number counting, frames⟩) :
    Collected line number start instant counting := by
  induction since generalizing counting with
  | refl =>
      obtain ⟨traversal, began⟩ := counts.began
      cases at'.unique began
      exact .inl ⟨traversal, rfl⟩
  | @step instant since induction =>
      have earlier := Nat.le_of_succ_le upto
      obtain ⟨before, at''⟩ := counts.underway since earlier
      exact timeline.collected_succ (Nat.lt_of_lt_of_le upto within) at'' at' since
        (induction earlier at'')

/-- A count of the results of a cache comes back with the number of results that the cache held at
an instant between its beginning and its end, whatever threads did meanwhile. -/
theorem counted_at_an_instant (timeline : IsTimeline limit line (stop + 1))
    (counts : Counts line thread number frames start stop outcome) :
    ∃ (count instant : Nat), outcome = .ok (.value (.int count)) ∧ start ≤ instant ∧
      instant ≤ stop ∧ (line instant).HasResults number count := by
  obtain ⟨counting, at'⟩ := counts.underway counts.ordered (Nat.le_refl stop)
  have collected := timeline.collected counts (Nat.le_succ stop) counts.ordered (Nat.le_refl stop)
    at'
  have occurs := timeline.occurs (Nat.lt_succ_self stop)
  rcases at'.of_occurs (by simp) occurs with stepped | still
  · obtain ⟨cache, found, ⟨storage, next, -, -, onward⟩ | ⟨count, moved, ended⟩⟩ :=
      at'.tally stepped
    · cases counts.returned.unique onward
    · cases counts.returned.unique ended
      rcases collected with ⟨traversal, rfl⟩ | ⟨first, origin, cache', since, upto, was, now, fits⟩
      · exact ⟨count, stop, rfl, counts.ordered, Nat.le_refl _, cache, found,
          Storage.size_of_finish moved⟩
      · -- The count lies between the numbers of results at two instants, and all are passed.
        obtain rfl : cache' = cache := Option.some.inj (now.symm.trans found)
        obtain ⟨low, high⟩ := fits.of_finish moved
        obtain ⟨_, found', passed⟩ := timeline.passes was upto (Nat.le_succ stop)
        obtain rfl := Option.some.inj (found.symm.trans found')
        obtain ⟨instant, since', upto', has⟩ := passed count low high
        exact ⟨count, instant, rfl, Nat.le_trans since since', upto', has⟩
  · cases counts.returned.unique still

end IsTimeline

/-- A thread that applies the memoized identity, and one that counts its results. -/
def storingAndCounting : System :=
  ofTasks (World.memoize {} .perKey .all (.plain 0 Code.identity)).2
    [[.run (.apply (.memoized 0) (.int 1))], [.count 0 {}]]

theorem reached_storingAndCounting : storingAndCounting.Reached 2 := by
  have made : Happens 2 ⟨{}, []⟩
      ⟨(World.memoize {} .perKey .all (.plain 0 Code.identity)).2, []⟩ := .make (.memoize ..)
  have started : Happens 2 ⟨(World.memoize {} .perKey .all (.plain 0 Code.identity)).2, []⟩
      storingAndCounting := .start _ (by simp) (by simp)
  exact .head made (.single started)

/-- The slot is collected before the result is stored, and visited afterwards. -/
def overlapping : List Thread :=
  List.replicate 11 0 ++ [1, 1, 0, 0, 1, 1, 1, 1]

/-- There was no result when the slots were collected, and one is counted. -/
theorem counted_at_an_instant_overlapping :
    IsTimeline 2 (storingAndCounting.line overlapping) 19 ∧
      Counts (storingAndCounting.line overlapping) 1 0 [] 12 18 (.ok (.value (.int 1))) ∧
      (storingAndCounting.line overlapping 12).HasResults 0 0 ∧
      ∃ (count instant : Nat), (.ok (.value (.int 1)) : Outcome) = .ok (.value (.int count)) ∧
        12 ≤ instant ∧ instant ≤ 18 ∧
        (storingAndCounting.line overlapping instant).HasResults 0 count := by
  have timeline : IsTimeline 2 (storingAndCounting.line overlapping) 19 :=
    isTimeline_line reached_storingAndCounting (by rfl)
  have counts : Counts (storingAndCounting.line overlapping) 1 0 [] 12 18
      (.ok (.value (.int 1))) := by
    refine ⟨by decide, ⟨{}, _, rfl, rfl⟩, fun {instant} since upto => ?_, ⟨_, rfl, rfl⟩⟩
    interval_cases instant <;> exact ⟨_, _, rfl, rfl⟩
  exact ⟨timeline, counts, ⟨_, rfl, rfl⟩, timeline.counted_at_an_instant counts⟩

end System

end FunctionValues
