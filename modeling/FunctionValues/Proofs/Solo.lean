import FunctionValues.Proofs.Persistence

/-!
# A thread on its own

A thread that no other interferes with never waits, so an application of a memoized function comes
to one of three ends: it is refused, or it finds a stored result, and neither changes a cache, or it
starts a run of the underlying function. A run that has ended is stored or given up.
-/

namespace FunctionValues

namespace Phase

/-- The phases of a thread that is alone. -/
theorem forall_getD_singleton {phases : List Phase} {property : Phase → Prop}
    (holds : ∀ phase ∈ phases, property phase) (thread : Thread) :
    ∀ phase ∈ [phases].getD thread [], property phase := by
  cases thread with
  | zero => exact holds
  | succ thread => simp

/-- Whoever holds the latch of a slot refers to it. -/
theorem refers_of_latches {place : Nat} {phase : Phase}
    (latches : phase.latches .perKey place = true) : 0 < phase.refers place := by
  refine List.count_pos_iff.mpr ?_
  cases phase with
  | applying key stage =>
      cases stage <;> simp_all [Phase.latches, latched?, Stage.latched?, Policy.joins, references,
        Stage.place?]
  | computing key other =>
      simp_all [Phase.latches, latched?, Policy.joins, references]
  | counting progress => simp [Phase.latches, latched?] at latches

end Phase

/-- The lock of the map is free while the thread does not hold it. -/
theorem SlotMap.Traced.holder_eq_none {map : SlotMap} {phases : List Phase}
    (traced : map.Traced [phases]) (unlocked : ∀ phase ∈ phases, phase.locksMap = false) :
    map.holder = none := by
  cases held : map.holder with
  | none => rfl
  | some thread =>
      have count := traced.holder thread
      rw [if_pos held] at count
      have locked : 0 < ([phases].getD thread []).countP Phase.locksMap := by omega
      obtain ⟨phase, member, locks⟩ := List.countP_pos_iff.mp locked
      have free := Phase.forall_getD_singleton unlocked thread phase member
      rw [locks] at free
      cases free

/-- A latch is free while the thread does not hold it. -/
theorem Storage.Guarded.holder_eq_none {storage : Storage} {phases : List Phase} {place : Nat}
    (guarded : storage.Guarded [phases])
    (unlatched : ∀ phase ∈ phases, phase.latches storage.policy place = false) :
    (storage.latch place).holder = none := by
  cases held : (storage.latch place).holder with
  | none => rfl
  | some thread =>
      have count := guarded.holder thread place
      rw [if_pos held] at count
      have latched : 0 < ([phases].getD thread []).countP (Phase.latches storage.policy place) := by
        omega
      obtain ⟨phase, member, latches⟩ := List.countP_pos_iff.mp latched
      have free := Phase.forall_getD_singleton unlatched thread phase member
      rw [latches] at free
      cases free

namespace Policy

/-- Whether a thread that computes these arguments is refused another. -/
def blocks : Policy → List Value → Value → Bool
  | global, keys, _ => !keys.isEmpty
  | perKey, keys, key => keys.any (·.same key)

theorem blocks_iff (policy : Policy) (keys : List Value) (key : Value) :
    policy.blocks keys key = true ↔ ∃ other ∈ keys, policy = .global ∨ other.same key = true := by
  cases policy with
  | global => cases keys <;> simp [blocks]
  | perKey => simp [blocks]

end Policy

/-- What is reported of a run that ended with nothing to be kept. -/
def Outcome.verdict : Outcome → List Event
  | .ok _ => [.notRetained]
  | .error _ => []

/-- Whether a result was kept or given up. -/
def Stage.isLate : Stage → Bool
  | unlock .. | enter .. | inspect .. | clear .. | leave .. | drop .. => true
  | _ => false

namespace Storage

theorem look_of_some {storage : Storage} {key : Value} {place : Nat} {result : Result}
    (retention : Retention) (thread : Thread) (seen : storage.find? place key = some result) :
    storage.advance retention thread key (.look place) =
      .go storage (some (.hit storage.policy)) (.unlock place (.ok result) false) := by
  simp only [advance, look, seen]

theorem look_of_none {storage : Storage} {key : Value} {place : Nat} (retention : Retention)
    (thread : Thread) (seen : storage.find? place key = none) :
    storage.advance retention thread key (.look place) =
      .go storage (some (.miss storage.policy)) (.start place) := by
  simp only [advance, look, seen]

/-- The place of an argument, if it has one. -/
def place? (storage : Storage) (key : Value) : Option Nat :=
  match storage with
  | table _ => some 0
  | slots map => map.find? key

/-- Take one more reference to a place. -/
def refer (storage : Storage) (place : Nat) : Storage :=
  match storage with
  | table results => table results
  | slots map => slots (map.refer place)

theorem alike_refer (storage : Storage) (place : Nat) : storage.Alike (storage.refer place) := by
  cases storage with
  | table results => exact .refl _
  | slots map => exact .of_slots fun other => map.slot_modify_references place other (· + 1)

/-- An application that only came to a place leaves the storage as it was. -/
theorem drop_refer (storage : Storage) (place : Nat) (outcome : Outcome) :
    (storage.refer place).drop place outcome = .finish storage outcome := by
  cases storage with
  | table results => rfl
  | slots map =>
      have same : (map.refer place).release place = map := by
        rw [SlotMap.refer, SlotMap.release, map.modify_modify]
        exact map.modify_eq_self rfl
      simp only [refer, drop, same]

/-- An application that only took and freed a latch leaves the storage as it was. -/
theorem drop_refer_latched (storage : Storage) {place : Nat} (outcome : Outcome)
    (free : (storage.latch place).holder = none) (thread : Thread) :
    (((storage.refer place).modifyLatch place ({ · with holder := some thread })).modifyLatch place
      ({ · with holder := none })).drop place outcome = .finish storage outcome := by
  cases storage with
  | table results =>
      obtain ⟨⟨holder, owner⟩, entries⟩ := results
      obtain rfl : holder = none := free
      rfl
  | slots map =>
      have change : ∀ slot : Slot, slot.latch.holder = none →
          { slot with latch := { slot.latch with holder := none } } = slot := by
        rintro ⟨⟨holder, owner⟩, content, references⟩ rfl
        rfl
      have same : (((map.refer place).modify place fun slot =>
          { slot with latch := { slot.latch with holder := some thread } }).modify place fun slot =>
          { slot with latch := { slot.latch with holder := none } }).release place = map := by
        rw [SlotMap.refer, SlotMap.release, SlotMap.modify_modify, SlotMap.modify_modify,
          SlotMap.modify_modify]
        exact map.modify_eq_self (change (map.slot place) free)
      simp only [refer, modifyLatch, drop, same]

/-- Stages that follow one another, and what happens in them, the latest first. -/
inductive Passes (retention : Retention) (thread : Thread) (key : Value) :
    Storage → Stage → List Event → Storage → Stage → Prop
  | refl (storage : Storage) (stage : Stage) :
      Passes retention thread key storage stage [] storage stage
  | go {storage middle after : Storage} {stage next last : Stage} {event : Option Event}
      {events : List Event} (moved : storage.advance retention thread key stage = .go middle event next)
      (rest : Passes retention thread key middle next events after last) :
      Passes retention thread key storage stage (events ++ event.toList) after last

theorem Passes.single {retention : Retention} {thread : Thread} {key : Value}
    {storage after : Storage} {stage next : Stage} {event : Option Event}
    (moved : storage.advance retention thread key stage = .go after event next) :
    Passes retention thread key storage stage event.toList after next :=
  .go moved (.refl after next)

theorem Passes.trans {retention : Retention} {thread : Thread} {key : Value}
    {storage middle after : Storage} {stage next last : Stage} {first second : List Event}
    (before : Passes retention thread key storage stage first middle next)
    (onward : Passes retention thread key middle next second after last) :
    Passes retention thread key storage stage (second ++ first) after last := by
  induction before with
  | refl => simpa using onward
  | go moved _ induction =>
      rw [← List.append_assoc]
      exact .go moved (induction onward)

theorem Passes.policy {retention : Retention} {thread : Thread} {key : Value}
    {storage after : Storage} {stage last : Stage} {events : List Event}
    (passes : Passes retention thread key storage stage events after last) :
    after.policy = storage.policy := by
  induction passes with
  | refl => rfl
  | go moved _ induction => exact induction.trans (policy_of_go moved)

theorem isLate_of_go {storage after : Storage} {retention : Retention} {thread : Thread}
    {key : Value} {stage next : Stage} {event : Option Event} (late : stage.isLate = true)
    (moved : storage.advance retention thread key stage = .go after event next) :
    next.isLate = true := by
  cases goes_of_go moved with
  | sought | admitted | latched | missed | settled => cases late
  | unlatched => split <;> rfl
  | _ => rfl

theorem exists_finish (storage : Storage) (place : Nat) (outcome : Outcome) :
    ∃ after, storage.drop place outcome = .finish after outcome := by
  cases storage with
  | table results => exact ⟨_, rfl⟩
  | slots map => exact ⟨_, rfl⟩

theorem reported_congr {storage after : Storage} (policy : after.policy = storage.policy)
    (size : after.size = storage.size) : after.reported = storage.reported := by
  cases storage with
  | table results =>
      cases after with
      | table others => simpa [reported, Storage.size] using size
      | slots map => cases policy
  | slots map =>
      cases after with
      | table results => cases policy
      | slots other => rfl

/-- Stages that follow one another to the end of an application. -/
def Comes (retention : Retention) (thread : Thread) (key : Value) (storage : Storage)
    (stage : Stage) (events : List Event) (after : Storage) (outcome : Outcome) : Prop :=
  ∃ middle place, storage.Passes retention thread key stage events middle (.drop place outcome) ∧
    middle.drop place outcome = .finish after outcome

end Storage

namespace Cache.Sound

variable {cache : Cache} {marks : List Mark} {stage last : Stage} {key : Value} {place : Nat}
  {rest : List Phase} {after : Storage} {events : List Event}

theorem of_moves {phases phases' : List Phase} {added : List Mark}
    (sound : cache.Sound [phases] marks)
    (moves : Phase.Moves cache.retention 0 cache.storage phases added after phases') :
    Cache.Sound { cache with storage := after } [phases'] (added ++ marks) := by
  have present : [phases][0]? = some phases := rfl
  exact sound.moves present moves

/-- A thread that is alone keeps a cache sound from stage to stage. -/
theorem of_passes (sound : cache.Sound [.applying key stage :: rest] marks)
    (passes : cache.storage.Passes cache.retention 0 key stage events after last) :
    Cache.Sound { cache with storage := after } [.applying key last :: rest] marks := by
  obtain ⟨underlying, retention, storage⟩ := cache
  change storage.Passes retention 0 key stage events after last at passes
  induction passes with
  | refl storage stage => exact sound
  | go moved _ induction => exact induction (sound.of_moves (.go moved))

/-- Once a result is kept or given up, an application keeps the results of a cache. -/
theorem agrees_of_passes (sound : cache.Sound [.applying key stage :: rest] marks)
    (late : stage.isLate = true)
    (passes : cache.storage.Passes cache.retention 0 key stage events after last) :
    cache.storage.Agrees after := by
  obtain ⟨underlying, retention, storage⟩ := cache
  change storage.Passes retention 0 key stage events after last at passes
  induction passes with
  | refl storage stage => exact .refl _
  | @go storage _ _ stage _ _ _ _ moved _ induction =>
      have member : Phase.applying key stage ∈ [.applying key stage :: rest].getD 0 [] :=
        List.mem_cons_self
      refine (sound.agrees_of_go member ?_ moved).trans
        (induction (Storage.isLate_of_go late moved) (sound.of_moves (.go moved)))
      rintro place outcome rfl
      cases late

/-- The phases of the computations that a thread is inside of. -/
def Inward (phases : List Phase) : Prop :=
  ∀ phase ∈ phases, ∃ key place, phase = .computing key place

section Seek

variable {result : Result}

/-- A thread is the owner of the place of an argument when it computes what blocks that one. -/
theorem owner_iff {threads : List (List Phase)} {thread : Thread} (sound : cache.Sound threads marks)
    (present : threads[thread]? = some (.applying key (.check place) :: rest))
    (inward : Inward rest) :
    (cache.storage.latch place).owner = some thread ↔
      cache.storage.policy.blocks (rest.filterMap Phase.computed?) key = true := by
  have here : threads.getD thread [] = .applying key (.check place) :: rest := by simp [present]
  have count := sound.guarded.owner thread place
  rw [here, List.countP_cons_of_neg (by simp [Phase.owns, Phase.owned?])] at count
  have owner : (cache.storage.latch place).owner = some thread ↔
      ∃ phase ∈ rest, phase.owns cache.storage.policy place = true := by
    rw [← List.countP_pos_iff, count]
    split <;> simp_all
  have joins : ∀ argument place', .computing argument place' ∈ rest →
      (cache.storage.policy.joins place place' = true ↔
        cache.storage.policy = .global ∨ argument.same key = true) := by
    intro argument place' member
    have inside : Phase.computing argument place' ∈ threads.getD thread [] :=
      here ▸ List.mem_cons_of_mem _ member
    cases storage : cache.storage with
    | table results => simp [Storage.policy, Policy.joins]
    | slots map =>
        have traced := sound.traced map storage
        have first : Phase.applying key (.check place) ∈ threads.getD thread [] :=
          here ▸ List.mem_cons_self
        have found : map.find? key = some place := traced.mapped first rfl
        have reached : map.find? argument = some place' := traced.mapped inside rfl
        simp only [Storage.policy, Policy.joins, beq_iff_eq, reduceCtorEq, false_or]
        constructor
        · rintro rfl
          exact SlotMap.same_of_find? traced.nodup reached found
        · intro equal
          rw [map.find?_congr equal, found, Option.some.injEq] at reached
          exact reached
  rw [owner, Policy.blocks_iff]
  constructor
  · rintro ⟨phase, member, owns⟩
    obtain ⟨argument, place', rfl⟩ := inward phase member
    refine ⟨argument, List.mem_filterMap.mpr ⟨_, member, rfl⟩, (joins argument place' member).mp ?_⟩
    simpa [Phase.owns, Phase.owned?] using owns
  · rintro ⟨argument, computed, equal⟩
    obtain ⟨phase, member, here⟩ := List.mem_filterMap.mp computed
    obtain ⟨place', rfl⟩ := Phase.eq_of_computed? here
    refine ⟨_, member, ?_⟩
    simpa [Phase.owns, Phase.owned?] using (joins argument place' member).mpr equal

/-- An argument has a place while a thread computes what blocks it. -/
theorem exists_place?_of_blocks {threads : List (List Phase)} {thread : Thread} {phase : Phase}
    (sound : cache.Sound threads marks) (present : threads[thread]? = some (phase :: rest))
    (blocked : cache.storage.policy.blocks (rest.filterMap Phase.computed?) key = true) :
    ∃ place, cache.storage.place? key = some place := by
  obtain ⟨other, computed, equal⟩ := (Policy.blocks_iff ..).mp blocked
  obtain ⟨phase', member, here⟩ := List.mem_filterMap.mp computed
  obtain ⟨place, rfl⟩ := Phase.eq_of_computed? here
  cases storage : cache.storage with
  | table results => exact ⟨0, rfl⟩
  | slots map =>
      have inside : Phase.computing other place ∈ threads.getD thread [] := by simp [present, member]
      have reached : map.find? other = some place := (sound.traced map storage).mapped inside rfl
      have same : other.same key = true := by simpa [storage, Storage.policy] using equal
      exact ⟨place, by rw [Storage.place?, ← map.find?_congr same, reached]⟩

/-- Only one lock for all arguments keeps a thread from a result that is stored. -/
theorem policy_of_blocks (sound : cache.Sound [.applying key .seek :: rest] marks)
    (blocked : cache.storage.policy.blocks (rest.filterMap Phase.computed?) key = true)
    (stored : cache.storage.stored? key = some result) : cache.storage.policy = .global := by
  obtain ⟨other, computed, global | equal⟩ := (Policy.blocks_iff ..).mp blocked
  · exact global
  · obtain ⟨phase, member, here⟩ := List.mem_filterMap.mp computed
    obtain ⟨place, rfl⟩ := Phase.eq_of_computed? here
    have inside : Phase.computing other place ∈ [.applying key .seek :: rest].getD 0 [] :=
      List.mem_cons_of_mem _ member
    have missing := sound.guarded.missing inside rfl
    rw [sound.find?_eq_stored? inside rfl, cache.storage.stored?_congr equal, stored] at missing
    cases missing

/-- A thread that is alone comes to the place of the argument. -/
private theorem seek (sound : cache.Sound [.applying key .seek :: rest] marks)
    (inward : Inward rest) :
    ∃ after place,
      cache.storage.advance cache.retention 0 key .seek = .go after none (.check place) := by
  cases storage : cache.storage with
  | table results => exact ⟨_, _, rfl⟩
  | slots map =>
      have free : map.holder = none := by
        refine (sound.traced map storage).holder_eq_none ?_
        simp only [List.forall_mem_cons]
        refine ⟨rfl, fun phase member => ?_⟩
        obtain ⟨argument, place, rfl⟩ := inward phase member
        rfl
      refine ⟨.slots (map.obtain key).2, (map.obtain key).1, ?_⟩
      simp [Storage.advance, Storage.seek, free]

/-- A thread that is alone and comes to a place that is there already. -/
private theorem seek_of_place? (sound : cache.Sound [.applying key .seek :: rest] marks)
    (inward : Inward rest) (found : cache.storage.place? key = some place) :
    cache.storage.advance cache.retention 0 key .seek =
      .go (cache.storage.refer place) none (.check place) := by
  obtain ⟨after, other, moved⟩ := sound.seek inward
  cases storage : cache.storage with
  | table results =>
      rw [storage] at found
      cases found
      rfl
  | slots map =>
      rw [storage] at found moved
      have obtained : map.obtain key = (place, map.refer place) := by
        have reached : map.find? key = some place := found
        simp [SlotMap.obtain, reached]
      simp only [Storage.advance, Storage.seek, obtained] at moved ⊢
      split at moved
      · cases moved
      next free => rw [if_neg free]; rfl

private theorem agrees_of_seek {next : Stage} {event : Option Event}
    (sound : cache.Sound [.applying key .seek :: rest] marks)
    (moved : cache.storage.advance cache.retention 0 key .seek = .go after event next) :
    cache.storage.Agrees after := by
  have member : Phase.applying key .seek ∈ [.applying key .seek :: rest].getD 0 [] :=
    List.mem_cons_self
  exact sound.agrees_of_go member (by simp) moved

private theorem find?_of_look (sound : cache.Sound [.applying key (.look place) :: rest] marks) :
    cache.storage.find? place key = cache.storage.stored? key := by
  have member : Phase.applying key (.look place) ∈
      [.applying key (.look place) :: rest].getD 0 [] := List.mem_cons_self
  exact sound.find?_eq_stored? member rfl

/-- A thread that is alone and not refused takes the latch of the place. -/
private theorem check (sound : cache.Sound [.applying key (.check place) :: rest] marks)
    (inward : Inward rest)
    (open' : cache.storage.policy.blocks (rest.filterMap Phase.computed?) key = false) :
    (cache.storage.latch place).holder = none ∧
      cache.storage.Passes cache.retention 0 key (.check place) []
        (cache.storage.modifyLatch place ({ · with holder := some 0 })) (.look place) := by
  have unowned : (cache.storage.latch place).owner ≠ some 0 := by
    intro owner
    rw [sound.owner_iff List.getElem?_cons_zero inward, open'] at owner
    cases owner
  have free : (cache.storage.latch place).holder = none := by
    refine sound.guarded.holder_eq_none ?_
    simp only [List.forall_mem_cons]
    refine ⟨rfl, fun phase member => ?_⟩
    obtain ⟨argument, place', rfl⟩ := inward phase member
    by_contra latches
    have owns : 0 < ([.applying key (.check place) :: rest].getD 0 []).countP
        (Phase.owns cache.storage.policy place) :=
      List.countP_pos_iff.mpr ⟨_, List.mem_cons_of_mem _ member, by
        simpa [Phase.owns, Phase.owned?, Phase.latches, Phase.latched?] using latches⟩
    rw [sound.guarded.owner 0 place, if_neg unowned] at owns
    exact Nat.lt_irrefl 0 owns
  refine ⟨free, ?_⟩
  have checked : cache.storage.advance cache.retention 0 key (.check place) =
      .go cache.storage none (.lock place) := by
    simp only [Storage.advance, Storage.check, if_neg unowned]
  have locked : cache.storage.advance cache.retention 0 key (.lock place) =
      .go (cache.storage.modifyLatch place ({ · with holder := some 0 })) none (.look place) := by
    simp [Storage.advance, Storage.lock, free]
  exact .go checked (.single locked)

/-- A thread that is alone is refused when it computes what blocks the argument, which changes
nothing. -/
theorem refuse (sound : cache.Sound [.applying key .seek :: rest] marks) (inward : Inward rest)
    (blocked : cache.storage.policy.blocks (rest.filterMap Phase.computed?) key = true) :
    cache.storage.Comes cache.retention 0 key .seek [.reentryRejected cache.storage.policy]
      cache.storage (.error (.reentered cache.storage.policy)) := by
  obtain ⟨place, found⟩ := sound.exists_place?_of_blocks List.getElem?_cons_zero blocked
  have moved := sound.seek_of_place? inward found
  have alike := cache.storage.alike_refer place
  have owner : ((cache.storage.refer place).latch place).owner = some 0 :=
    ((sound.of_moves (.go moved)).owner_iff List.getElem?_cons_zero inward).mpr
      (by rw [alike.policy]; exact blocked)
  have checked : (cache.storage.refer place).advance cache.retention 0 key (.check place) =
      .go (cache.storage.refer place) (some (.reentryRejected cache.storage.policy))
        (.drop place (.error (.reentered cache.storage.policy))) := by
    simp only [Storage.advance, Storage.check, if_pos owner, alike.policy]
  exact ⟨_, place, .go moved (.single checked), cache.storage.drop_refer place _⟩

/-- A thread that is alone and not refused comes back with what is stored, which changes nothing. -/
theorem hit (sound : cache.Sound [.applying key .seek :: rest] marks) (inward : Inward rest)
    (open' : cache.storage.policy.blocks (rest.filterMap Phase.computed?) key = false)
    (stored : cache.storage.stored? key = some result) :
    cache.storage.Comes cache.retention 0 key .seek [.hit cache.storage.policy] cache.storage
      (.ok result) := by
  obtain ⟨place, found⟩ : ∃ place, cache.storage.place? key = some place := by
    cases storage : cache.storage with
    | table results => exact ⟨0, rfl⟩
    | slots map =>
        rw [storage] at stored
        obtain ⟨place, reached, -⟩ := Option.bind_eq_some_iff.mp stored
        exact ⟨place, reached⟩
  have moved := sound.seek_of_place? inward found
  have alike := cache.storage.alike_refer place
  have sought := sound.of_moves (.go moved)
  obtain ⟨free, passes⟩ := sought.check inward (by rw [alike.policy]; exact open')
  have seen : ((cache.storage.refer place).modifyLatch place
      ({ · with holder := some 0 })).find? place key = some result := by
    rw [(sought.of_passes passes).find?_of_look, (Storage.Agrees.of_modifyLatch ..).stored,
      (sound.agrees_of_seek moved).stored, stored]
  have looked := Storage.look_of_some cache.retention 0 seen
  rw [Storage.policy_modifyLatch, alike.policy] at looked
  have path := (Storage.Passes.go moved passes).trans (.go looked (.single rfl))
  refine ⟨_, place, path, cache.storage.drop_refer_latched (.ok result) ?_ 0⟩
  rw [← alike.latch]
  exact free

/-- A thread that is alone, not refused and finds nothing starts a run. -/
theorem miss (sound : cache.Sound [.applying key .seek :: rest] marks) (inward : Inward rest)
    (open' : cache.storage.policy.blocks (rest.filterMap Phase.computed?) key = false)
    (missing : cache.storage.stored? key = none) :
    ∃ after place, cache.storage.Passes cache.retention 0 key .seek [.miss cache.storage.policy]
        after (.start place) ∧ cache.storage.Agrees after ∧ after.policy = cache.storage.policy := by
  obtain ⟨middle, place, moved⟩ := sound.seek inward
  have policy := Storage.policy_of_go moved
  have agrees := sound.agrees_of_seek moved
  have sought := sound.of_moves (.go moved)
  obtain ⟨free, passes⟩ := sought.check inward (by rw [policy]; exact open')
  have seen : (middle.modifyLatch place ({ · with holder := some 0 })).find? place key = none := by
    rw [(sought.of_passes passes).find?_of_look, (Storage.Agrees.of_modifyLatch ..).stored,
      agrees.stored, missing]
  have looked := Storage.look_of_none cache.retention 0 seen
  rw [Storage.policy_modifyLatch, policy] at looked
  have path := (Storage.Passes.go moved passes).trans (.single looked)
  exact ⟨_, place, path, agrees.trans (.of_modifyLatch ..),
    by rw [Storage.policy_modifyLatch, policy]⟩

end Seek

section Settle

variable {outcome : Outcome} {result : Result}

/-- The thread that is about to clear a slot finds its latch free. -/
theorem free_of_clear {threads : List (List Phase)} {thread : Thread} {map : SlotMap}
    (storage : cache.storage = .slots map) (sound : cache.Sound threads marks)
    (present : threads[thread]? = some (.applying key (.clear place outcome) :: rest)) :
    (map.slot place).latch.holder = none := by
  have head : Phase.applying key (.clear place outcome) ∈ threads.getD thread [] := by
    simp [present]
  have one : Phase.referrers threads place = 1 := (sound.traced map storage).clearing head rfl
  cases held : (map.slot place).latch.holder with
  | none => rfl
  | some other =>
      have count := sound.guarded.holder other place
      rw [storage, if_pos (show ((Storage.slots map).latch place).holder = some other from held)]
        at count
      have positive : 0 < (threads.getD other []).countP (Phase.latches .perKey place) := by
        change (threads.getD other []).countP (Phase.latches .perKey place) = 1 at count
        omega
      obtain ⟨phase, member, latches⟩ := List.countP_pos_iff.mp positive
      rcases Phase.eq_or_mem_elsewhere present member with rfl | outward
      · cases latches
      · -- Whoever holds the latch refers to the place, beside the thread that clears it.
        have refers := Phase.refers_le_referrers outward place
        have left := Phase.referrers_set present rest place
        have self : (Phase.applying key (.clear place outcome)).refers place = 1 :=
          (Phase.refers_of_clearing?
            (show (Phase.applying key (.clear place outcome)).clearing? = some place from rfl)).1
        rw [Phase.allRefer_cons, self, one] at left
        have positive := Phase.refers_of_latches latches
        omega

/-- A thread that is alone and has the lock of the map frees it, and the slot before that if it can. -/
private theorem inspect {map : SlotMap} (storage : cache.storage = .slots map)
    (sound : cache.Sound [.applying key (.inspect place outcome) :: rest] marks) :
    ∃ after events, cache.storage.Passes cache.retention 0 key (.inspect place outcome) events
        after (.drop place outcome) ∧ ∀ event ∈ events, ∃ slots, event = .slotRemoved slots := by
  have leaves : ∀ map : SlotMap, (Storage.slots map).Passes cache.retention 0 key
      (.leave place outcome) [] (.slots { map with holder := none }) (.drop place outcome) := by
    intro map
    have left : (Storage.slots map).advance cache.retention 0 key (.leave place outcome) =
        .go (.slots { map with holder := none }) none (.drop place outcome) := rfl
    exact .single left
  by_cases unshared : map.isUnshared key place = true
  · have inspected : cache.storage.advance cache.retention 0 key (.inspect place outcome) =
        .go (.slots map) none (.clear place outcome) := by
      simp [storage, Storage.advance, Storage.inspect, unshared]
    have free := (sound.of_moves (.go inspected)).free_of_clear rfl List.getElem?_cons_zero
    by_cases empty : (map.slot place).content.isNone = true
    · have cleared : (Storage.slots map).advance cache.retention 0 key (.clear place outcome) =
          .go (.slots (map.remove key)) (some (.slotRemoved (map.remove key).index.length))
            (.leave place outcome) := by
        simp [Storage.advance, Storage.clear, free, empty]
      exact ⟨_, _, .go inspected (.go cleared (leaves _)), by simp⟩
    · have cleared : (Storage.slots map).advance cache.retention 0 key (.clear place outcome) =
          .go (.slots map) none (.leave place outcome) := by
        simp [Storage.advance, Storage.clear, free, empty]
      exact ⟨_, _, .go inspected (.go cleared (leaves _)), by simp⟩
  · have inspected : cache.storage.advance cache.retention 0 key (.inspect place outcome) =
        .go (.slots map) none (.leave place outcome) := by
      simp [storage, Storage.advance, Storage.inspect, unshared]
    exact ⟨_, _, .go inspected (leaves _), by simp⟩

/-- A thread that is alone clears the slot that it computed for in vain, if there is one. -/
private theorem vacate (sound : cache.Sound [.applying key (.enter place outcome) :: rest] marks)
    (inward : Inward rest) :
    ∃ after events, cache.storage.Passes cache.retention 0 key (.enter place outcome) events after
      (.drop place outcome) ∧ ∀ event ∈ events, ∃ slots, event = .slotRemoved slots := by
  cases storage : cache.storage with
  | table results =>
      have entered : (Storage.table results).advance cache.retention 0 key (.enter place outcome) =
        .go (.table results) none (.drop place outcome) := rfl
      exact ⟨_, _, .single entered, by simp⟩
  | slots map =>
      have unlocked : ∀ phase ∈ rest, phase.locksMap = false := by
        intro phase member
        obtain ⟨argument, other, rfl⟩ := inward phase member
        rfl
      have free : map.holder = none := by
        refine (sound.traced map storage).holder_eq_none ?_
        simp only [List.forall_mem_cons]
        exact ⟨rfl, unlocked⟩
      have entered : cache.storage.advance cache.retention 0 key (.enter place outcome) =
          .go (.slots { map with holder := some 0 }) none (.inspect place outcome) := by
        simp [storage, Storage.advance, Storage.enter, free]
      obtain ⟨after, events, passes, removals⟩ :=
        (sound.of_moves (.go entered)).inspect rfl
      rw [storage] at entered
      exact ⟨after, _, .go entered passes, by simpa using removals⟩

/-- A run that ended with a result to be kept is stored, and the application comes back with it. -/
theorem store
    (sound : cache.Sound [.applying key (.settle place (.ok result)) :: rest] marks)
    (keeps : cache.retention.keeps result = true) :
    ∃ after, cache.storage.Comes cache.retention 0 key (.settle place (.ok result))
        [.stored after.reported] after (.ok result) ∧
      after.policy = cache.storage.policy ∧ after.size = cache.storage.size + 1 ∧
      ∀ other, after.stored? other =
        if key.same other then some result else cache.storage.stored? other := by
  have settled : cache.storage.advance cache.retention 0 key (.settle place (.ok result)) =
      .go (cache.storage.modifyLatch place ({ · with owner := none })) none
        (.keep place (.ok result)) := rfl
  have keeping := sound.of_moves (.go settled)
  have agrees := Storage.Agrees.of_modifyLatch cache.storage place ({ · with owner := none })
  generalize cache.storage.modifyLatch place ({ · with owner := none }) = middle
    at settled keeping agrees
  have kept : middle.advance cache.retention 0 key (.keep place (.ok result)) =
      .go (middle.insert place key result) (some (.stored (middle.insert place key result).reported))
        (.unlock place (.ok result) false) := by
    simp only [Storage.advance, Storage.keep, if_pos keeps]
  have unlocking := keeping.of_moves (.go kept)
  have path := (Storage.Passes.go settled (.single kept)).trans (.single rfl)
  obtain ⟨after, dropped⟩ := Storage.exists_finish
    ((middle.insert place key result).modifyLatch place ({ · with holder := none })) place
    (.ok result)
  have same := (Storage.Agrees.of_modifyLatch (middle.insert place key result) place
    ({ · with holder := none })).trans (.of_drop dropped)
  have member : Phase.applying key (.keep place (.ok result)) ∈
      [.applying key (.keep place (.ok result)) :: rest].getD 0 [] := List.mem_cons_self
  have policy : after.policy = (middle.insert place key result).policy := by
    rw [(Storage.alike_of_drop dropped).policy, Storage.policy_modifyLatch]
  refine ⟨after, ⟨_, place, ?_, dropped⟩, ?_, ?_, fun other => ?_⟩
  · rw [Storage.reported_congr policy same.size]
    exact path
  · rw [policy, Storage.policy_insert, Storage.policy_of_go settled]
  · rw [same.size, keeping.size_insert member rfl, agrees.size]
  · rw [same.stored, keeping.stored?_insert member rfl, agrees.stored]

/-- A run that ended with nothing to be kept is given up, and the application comes back with its
outcome. -/
theorem forget (sound : cache.Sound [.applying key (.settle place outcome) :: rest] marks)
    (inward : Inward rest) (vain : cache.retention.retains outcome = false) :
    ∃ after removals, cache.storage.Comes cache.retention 0 key (.settle place outcome)
        (removals ++ outcome.verdict) after outcome ∧ cache.storage.Agrees after ∧
      after.policy = cache.storage.policy ∧
      ∀ event ∈ removals, ∃ slots, event = .slotRemoved slots := by
  have settled : cache.storage.advance cache.retention 0 key (.settle place outcome) =
      .go (cache.storage.modifyLatch place ({ · with owner := none })) none
        (.keep place outcome) := rfl
  have keeping := sound.of_moves (.go settled)
  have agrees := Storage.Agrees.of_modifyLatch cache.storage place ({ · with owner := none })
  generalize cache.storage.modifyLatch place ({ · with owner := none }) = middle
    at settled keeping agrees
  have passed : middle.Passes cache.retention 0 key (.keep place outcome) outcome.verdict middle
      (.unlock place outcome true) := by
    cases outcome with
    | ok value =>
        have unkept : middle.advance cache.retention 0 key (.keep place (.ok value)) =
            .go middle (some .notRetained) (.unlock place (.ok value) true) := by
          simp [Storage.advance, Storage.keep, show cache.retention.keeps value = false from vain]
        exact .single unkept
    | error failure =>
        have unkept : middle.advance cache.retention 0 key (.keep place (.error failure)) =
            .go middle none (.unlock place (.error failure) true) := rfl
        exact .single unkept
  have unlocking := keeping.of_passes passed
  have unlocked : middle.advance cache.retention 0 key (.unlock place outcome true) =
      .go (middle.modifyLatch place ({ · with holder := none })) none (.enter place outcome) := rfl
  have entering := unlocking.of_moves (.go unlocked)
  obtain ⟨last, removals, vacated, cleared⟩ := entering.vacate inward
  have late := unlocking.agrees_of_passes rfl (.go unlocked vacated)
  obtain ⟨after, dropped⟩ := last.exists_finish place outcome
  have path := (Storage.Passes.go settled passed).trans (.go unlocked vacated)
  refine ⟨after, removals, ⟨last, place, ?_, dropped⟩,
    (agrees.trans late).trans (.of_drop dropped), ?_, cleared⟩
  · simpa using path
  · rw [(Storage.alike_of_drop dropped).policy, path.policy]

end Settle

end Cache.Sound

end FunctionValues
