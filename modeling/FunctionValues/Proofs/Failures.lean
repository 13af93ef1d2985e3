import FunctionValues.Proofs.Provenance
import FunctionValues.Proofs.Vacancies

/-!
# Failed computations

A program of a single thread. When a run ends with nothing to be kept, the application comes back
with its outcome and leaves no trace in the cache: nothing is stored for the argument and it has no
slot, every slot that there was before the application is as it was, and what was added are the
results of nested applications. The next application to the argument starts a run again.
-/

namespace FunctionValues

/-! ## Between the stages of applications -/

section Rest

variable {storage : Storage} {map : SlotMap} {head phases : List Phase} {place : Nat}

/-- The latch of a place between the stages of applications: it is taken, by an owner, where the
thread computes. -/
theorem Storage.Guarded.latch_eq (guarded : storage.Guarded [head ++ phases])
    (unlatched : ∀ phase ∈ head, phase.latched? = none) (inward : Cache.Sound.Inward phases)
    (place : Nat) :
    storage.latch place =
      if phases.any (Phase.latches storage.policy place) then ⟨some 0, some 0⟩ else {} := by
  have holder := fun thread => guarded.holder thread place
  have owner := fun thread => guarded.owner thread place
  have unheld : head.countP (Phase.latches storage.policy place) = 0 := by
    rw [List.countP_eq_zero]
    intro phase member
    simp [Phase.latches, unlatched phase member]
  have unowned : head.countP (Phase.owns storage.policy place) = 0 := by
    rw [List.countP_eq_zero]
    intro phase member owns
    have latches := Phase.latches_of_owns owns
    simp [Phase.latches, unlatched phase member] at latches
  have same : phases.countP (Phase.owns storage.policy place) =
      phases.countP (Phase.latches storage.policy place) := by
    refine List.countP_congr fun phase member => ?_
    obtain ⟨key, other, rfl⟩ := inward phase member
    rfl
  have only : ∀ taken : Option Thread,
      (∀ thread, ([head ++ phases].getD thread []).countP (Phase.latches storage.policy place) =
        if taken = some thread then 1 else 0) →
      taken = if phases.any (Phase.latches storage.policy place) then some 0 else none := by
    intro taken counts
    have first := counts 0
    rw [List.getD_cons_zero, List.countP_append, unheld, Nat.zero_add] at first
    by_cases any : phases.any (Phase.latches storage.policy place) = true
    · rw [if_pos any]
      have positive : 0 < phases.countP (Phase.latches storage.policy place) := by
        simpa [List.countP_pos_iff] using any
      rw [first] at positive
      by_contra other
      rw [if_neg other] at positive
      exact Nat.lt_irrefl 0 positive
    · rw [if_neg any]
      cases taken with
      | none => rfl
      | some thread =>
          have count := counts thread
          cases thread with
          | zero =>
              rw [if_pos rfl] at first
              have positive : 0 < phases.countP (Phase.latches storage.policy place) := by omega
              exact absurd (by simpa [List.countP_pos_iff] using positive) any
          | succ thread => simp at count
  have held := only _ holder
  have owned := only (storage.latch place).owner fun thread => by
    rw [← owner thread]
    cases thread with
    | zero => simp only [List.getD_cons_zero, List.countP_append, unheld, unowned, same]
    | succ thread => simp
  cases latch : storage.latch place with
  | mk holder owner =>
      rw [latch] at held owned
      simp only at held owned
      rw [held, owned]
      split <;> rfl

/-- A slot map between the stages of applications: its slots are those that a thread computes for,
and those with a result. -/
structure SlotMap.Rests (map : SlotMap) (phases : List Phase) : Prop where
  free : map.holder = none
  nodup : map.places.Nodup
  latch (place : Nat) : (map.slot place).latch =
    if phases.any (Phase.latches .perKey place) then ⟨some 0, some 0⟩ else {}
  references (place : Nat) :
    (map.slot place).references = map.places.count place + Phase.allRefer place phases
  mapped {key : Value} {place : Nat} (member : .computing key place ∈ phases) :
    map.find? key = some place
  empty {key : Value} {place : Nat} (member : .computing key place ∈ phases) :
    (map.slot place).content = none
  filled {place : Nat} (member : place ∈ map.places) :
    (map.slot place).content.isSome = true ∨ ∃ key, .computing key place ∈ phases

private theorem of_isFresh {phase : Phase} (fresh : phase.isFresh = true) :
    phase.latched? = none ∧ phase.references = [] ∧ phase.locksMap = false ∧
      phase.tended? = none := by
  unfold Phase.isFresh at fresh
  split at fresh
  · exact ⟨rfl, rfl, rfl, rfl⟩
  · exact ⟨rfl, rfl, rfl, rfl⟩
  · cases fresh

theorem Cache.Sound.rests {cache : Cache} {marks : List Mark}
    (sound : cache.Sound [head ++ phases] marks) (storage : cache.storage = .slots map)
    (tended : map.Tended [head ++ phases]) (fresh : ∀ phase ∈ head, phase.isFresh = true)
    (inward : Cache.Sound.Inward phases) : map.Rests phases := by
  have traced := sound.traced map storage
  have guarded : (Storage.slots map).Guarded [head ++ phases] := storage ▸ sound.guarded
  have inside : ∀ {phase}, phase ∈ phases → phase ∈ [head ++ phases].getD 0 [] := by
    intro phase member
    simp [member]
  refine ⟨traced.holder_eq_none fun phase member => ?_, traced.nodup, fun place => ?_,
    fun place => ?_, fun member => ?_, fun member => ?_, fun mapped => ?_⟩
  · rcases List.mem_append.mp member with member | member
    · exact (of_isFresh (fresh phase member)).2.2.1
    · obtain ⟨key, place, rfl⟩ := inward phase member
      rfl
  · exact guarded.latch_eq (fun phase member => (of_isFresh (fresh phase member)).1) inward place
  · have nothing : Phase.allRefer place head = 0 := by
      simp only [Phase.allRefer, List.sum_eq_zero_iff_forall_eq_nat, List.mem_map,
        forall_exists_index, and_imp, forall_apply_eq_imp_iff₂]
      intro phase member
      simp [Phase.refers, (of_isFresh (fresh phase member)).2.1]
    rw [traced.references place]
    simp [Phase.referrers, nothing]
  · exact traced.mapped (inside member) rfl
  · exact guarded.missing (inside member) rfl
  · refine (tended.tended mapped).imp id ?_
    rintro ⟨thread, phase, member, tends⟩
    cases thread with
    | succ thread => simp at member
    | zero =>
        rcases List.mem_append.mp (show phase ∈ head ++ phases from member) with member | member
        · rw [(of_isFresh (fresh phase member)).2.2.2] at tends
          cases tends
        · obtain ⟨key, other, rfl⟩ := inward phase member
          obtain rfl : other = _ := by simpa [Phase.tended?] using tends
          exact ⟨key, member⟩

namespace SlotMap.Rests

variable {after : SlotMap} {key : Value}

/-- A slot that keeps its result stays as it is. -/
theorem slot_eq (before : map.Rests phases) (rests : after.Rests phases)
    (mapped : place ∈ map.places) (mapped' : place ∈ after.places)
    (content : ∀ result, (map.slot place).content = some result →
      (after.slot place).content = some result) : after.slot place = map.slot place := by
  have latch : (after.slot place).latch = (map.slot place).latch := by
    rw [rests.latch, before.latch]
  have references : (after.slot place).references = (map.slot place).references := by
    rw [rests.references, before.references, List.count_eq_one_of_mem rests.nodup mapped',
      List.count_eq_one_of_mem before.nodup mapped]
  have same : (after.slot place).content = (map.slot place).content := by
    rcases before.filled mapped with filled | ⟨key, computing⟩
    · obtain ⟨result, filled⟩ := Option.isSome_iff_exists.mp filled
      rw [content result filled, filled]
    · rw [rests.empty computing, before.empty computing]
  cases slot : map.slot place
  cases slot' : after.slot place
  simp_all

/-- A slot that nothing is computed for holds a result, and nobody but the map refers to it. -/
theorem slot_eq_of_filled (rests : map.Rests phases) (inward : Cache.Sound.Inward phases)
    (mapped : place ∈ map.places) (idle : ∀ key, .computing key place ∉ phases) :
    ∃ result, map.slot place = { content := some result, references := 1 } := by
  have unlatched : phases.any (Phase.latches .perKey place) = false := by
    rw [List.any_eq_false]
    intro phase member
    obtain ⟨key, other, rfl⟩ := inward phase member
    have apart : place ≠ other := by
      rintro rfl
      exact idle key member
    simpa [Phase.latches, Phase.latched?, Policy.joins] using apart
  have unreferred : Phase.allRefer place phases = 0 := by
    simp only [Phase.allRefer, List.sum_eq_zero_iff_forall_eq_nat, List.mem_map,
      forall_exists_index, and_imp, forall_apply_eq_imp_iff₂]
    intro phase member
    obtain ⟨key, other, rfl⟩ := inward phase member
    have apart : other ≠ place := by
      rintro rfl
      exact idle key member
    simp [Phase.refers, Phase.references, apart]
  have latch := rests.latch place
  have references := rests.references place
  rw [unlatched] at latch
  rw [unreferred, List.count_eq_one_of_mem rests.nodup mapped] at references
  rcases rests.filled mapped with filled | ⟨key, computing⟩
  · obtain ⟨result, filled⟩ := Option.isSome_iff_exists.mp filled
    refine ⟨result, ?_⟩
    cases slot : map.slot place
    simp_all
  · exact absurd computing (idle key)

/-- A slot that was found stays in the map as it was, if it stays there with its result. -/
theorem stays (before : map.Rests phases) (rests : after.Rests phases)
    (mapped : map.find? key = some place)
    (kept : ∀ result, (map.slot place).content = some result →
      after.find? key = some place ∧ (after.slot place).content = some result) :
    after.find? key = some place ∧ after.slot place = map.slot place := by
  have member := find?_mem_places mapped
  rcases before.filled member with filled | ⟨argument, computing⟩
  · obtain ⟨result, filled⟩ := Option.isSome_iff_exists.mp filled
    obtain ⟨mapped', content⟩ := kept result filled
    refine ⟨mapped', before.slot_eq rests member (find?_mem_places mapped') fun other held => ?_⟩
    rw [content, ← held, filled]
  · have equal := same_of_find? before.nodup (before.mapped computing) mapped
    have mapped' : after.find? key = some place := by
      rw [← after.find?_congr equal, rests.mapped computing]
    refine ⟨mapped', before.slot_eq rests member (find?_mem_places mapped') fun other held => ?_⟩
    rw [before.empty computing] at held
    cases held

/-- A slot that was not there before holds a result, and nobody but the map refers to it. -/
theorem exists_of_new (before : map.Rests phases) (rests : after.Rests phases)
    (inward : Cache.Sound.Inward phases) (missing : map.find? key = none)
    (mapped : after.find? key = some place) :
    ∃ result, after.slot place = { content := some result, references := 1 } := by
  refine rests.slot_eq_of_filled inward (find?_mem_places mapped) fun argument computing => ?_
  have equal := same_of_find? rests.nodup (rests.mapped computing) mapped
  rw [← map.find?_congr equal, before.mapped computing] at missing
  cases missing

end SlotMap.Rests

end Rest

/-! ## What an application adds -/

/-- A storage is another with results added: what is locked and what is computed is the same, every
slot that was there is as it was, and every other slot holds a result that was added. -/
structure Storage.Gains (storage after : Storage) (gained : Value → Result → Prop) : Prop where
  policy : after.policy = storage.policy
  latch (place) : after.latch place = storage.latch place
  stored (key result) : after.stored? key = some result ↔
    storage.stored? key = some result ∨ gained key result
  slots (map map') (before : storage = .slots map) (now : after = .slots map') :
    map'.holder = map.holder ∧
      (∀ key place, map.find? key = some place →
        map'.find? key = some place ∧ map'.slot place = map.slot place) ∧
      ∀ key place, map.find? key = none → map'.find? key = some place →
        ∃ result, gained key result ∧
          map'.slot place = { content := some result, references := 1 }

namespace System

variable {limit number : Nat} {system after : System} {cache : Cache} {key : Value}
  {place : Nat} {result : Result} {frames : List Frame}

/-- A slot with a result stays in the map and keeps it. -/
theorem filled_of_reaches {map : SlotMap} (sound : system.Sound)
    (reaches : Reaches limit system after) (found : system.world.caches[number]? = some cache)
    (storage : cache.storage = .slots map) (mapped : map.find? key = some place)
    (content : (map.slot place).content = some result) :
    ∃ map', after.world.caches[number]? = some { cache with storage := .slots map' } ∧
      map'.find? key = some place ∧ (map'.slot place).content = some result := by
  induction reaches with
  | refl => exact ⟨map, by rw [found, ← storage], mapped, content⟩
  | @tail middle next before happens induction =>
      obtain ⟨map', present, mapped', content'⟩ := induction
      cases happens with
      | step thread stepped =>
          obtain ⟨phases, phases', later, added, there, kept, -, -, moves⟩ :=
            moves_of_step stepped present
          have cached := (sound.of_reaches before).present present
          cases later with
          | table results => cases moves.policy
          | slots last =>
              refine ⟨last, kept, ?_, ?_⟩
              · exact (cached.traced map' rfl).find?_of_moves there moves mapped'
                  (by rw [content']; rfl)
              · exact cached.guarded.find?_of_moves rfl there moves
                  (show (Storage.slots map').find? place key = some result from content')
      | make made => exact ⟨map', made.caches present, mapped', content'⟩
      | start tasks few done => exact ⟨map', present, mapped', content'⟩

/-- The phases of a thread on its own are those of its activity. -/
theorem At.sound_at {activity : Activity} (at' : system.At 0 activity) (reached : system.Reached 1)
    (found : system.world.caches[number]? = some cache) :
    cache.Sound [activity.phases number] (system.world.marks number) := by
  have cached := reached.sound.present found
  rwa [(at'.phases_eq reached.length_le number).2] at cached

/-- Between the stages of applications the slots of a map are at rest. -/
theorem At.rests {activity : Activity} {map : SlotMap} {head : List Phase}
    (at' : system.At 0 activity) (reached : system.Reached 1)
    (found : system.world.caches[number]? = some cache) (storage : cache.storage = .slots map)
    (phases : activity.phases number = head ++ Frame.phases number frames)
    (fresh : ∀ phase ∈ head, phase.isFresh = true) : map.Rests (Frame.phases number frames) := by
  have cached := at'.sound_at reached found
  have tended := tended_of_apart (reached.apart number) found storage
  rw [(at'.phases_eq reached.length_le number).2] at tended
  rw [phases] at cached tended
  exact cached.rests storage tended fresh (Frame.inward_phases number frames)

/-- A run of the function behind a cache ended with a result that is kept. -/
def Gained (number : Nat) (retention : Retention) (added : List Entry) (key : Value)
    (result : Result) : Prop :=
  ∃ argument, argument.same key = true ∧ .ended number argument (.ok result) ∈ added ∧
    retention.keeps result = true

private theorem mem_filterMap_ended {entries : List Entry} {outcome : Outcome} :
    .ended key outcome ∈ entries.filterMap (Entry.mark? number) ↔
      .ended number key outcome ∈ entries := by
  rw [List.mem_filterMap]
  constructor
  · rintro ⟨entry, member, mark⟩
    cases entry <;> simp only [Entry.mark?, reduceCtorEq] at mark <;> split at mark <;> cases mark
    next here => exact here ▸ member
  · exact fun member => ⟨_, member, by simp [Entry.mark?]⟩

private theorem marks_append (number : Nat) {world world' : World} {added : List Entry}
    (log : world'.log = added ++ world.log) :
    world'.marks number = added.filterMap (Entry.mark? number) ++ world.marks number := by
  rw [World.marks, log, List.filterMap_append, World.marks]

private theorem settled_of_fresh {phases : List Phase} {head rest : List Phase}
    (split : phases = head ++ rest) (fresh : ∀ phase ∈ head, phase.isFresh = true)
    (inward : Cache.Sound.Inward rest) (thread : Thread) :
    ∀ phase ∈ [phases].getD thread [], phase.keeping? = none := by
  refine Phase.forall_getD_singleton ?_ thread
  rw [split]
  intro phase member
  rcases List.mem_append.mp member with member | member
  · have new := fresh phase member
    unfold Phase.isFresh at new
    split at new <;> first | rfl | cases new
  · obtain ⟨key, place, rfl⟩ := inward phase member
    rfl

section Gains

variable {activity activity' : Activity} {head head' : List Phase} {storage : Storage}
  {added : List Entry}

variable (reached : system.Reached 1) (found : system.world.caches[number]? = some cache)
  (at' : system.At 0 activity) (phases : activity.phases number = head ++ Frame.phases number frames)
  (fresh : ∀ phase ∈ head, phase.isFresh = true) (reaches : Reaches 1 system after)
  (found' : after.world.caches[number]? = some { cache with storage := storage })
  (at'' : after.At 0 activity')
  (phases' : activity'.phases number = head' ++ Frame.phases number frames)
  (fresh' : ∀ phase ∈ head', phase.isFresh = true)
  (log : after.world.log = added ++ system.world.log)

include reached found at' phases fresh reaches found' at'' phases' fresh' log

/-- Between two moments at which a thread is inside of the same computations and at no stage of an
application, the results of the runs that ended are stored. -/
private theorem stored_iff_of_reaches (key : Value) (result : Result) :
    storage.stored? key = some result ↔ cache.storage.stored? key = some result ∨
      Gained number cache.retention added key result := by
  have inward := Frame.inward_phases number frames
  have reached' : after.Reached 1 := Relation.ReflTransGen.trans reached reaches
  have marks := marks_append number log
  constructor
  · intro now
    have backed : Cache.Backed { cache with storage := storage } (after.phases number)
        (after.world.marks number) := Cache.backed_invariant.of_reached reached' _ found'
    obtain ⟨argument, equal, ended, keeps⟩ := backed.stored now
    rw [marks] at ended
    rcases List.mem_append.mp ended with ended | ended
    · exact .inr ⟨argument, equal, mem_filterMap_ended.mp ended, keeps⟩
    · left
      rw [← cache.storage.stored?_congr equal]
      exact (at'.sound_at reached found).stored_of_ended (settled_of_fresh phases fresh inward)
        ended keeps
  · rintro (before | ⟨argument, equal, ended, keeps⟩)
    · obtain ⟨⟨cache', present, still⟩, -⟩ :=
        Stores.of_reaches ⟨cache, found, before⟩ reached.sound reaches
      rw [found', Option.some.injEq] at present
      rw [← present] at still
      exact still
    · rw [← storage.stored?_congr equal]
      refine (at''.sound_at reached' found').stored_of_ended
        (settled_of_fresh phases' fresh' inward) ?_ keeps
      rw [marks]
      exact List.mem_append_left _ (mem_filterMap_ended.mpr ended)

/-- Meanwhile the cache gains these results, and nothing else changes. -/
theorem gains_of_reaches :
    cache.storage.Gains storage (Gained number cache.retention added) := by
  have inward := Frame.inward_phases number frames
  have reached' : after.Reached 1 := Relation.ReflTransGen.trans reached reaches
  have stored := stored_iff_of_reaches reached found at' phases fresh reaches found' at'' phases'
    fresh' log
  have policy : storage.policy = cache.storage.policy := by
    obtain ⟨storage', present, policy⟩ := Reaches.caches reaches found
    rw [found', Option.some.injEq, Cache.mk.injEq] at present
    rw [present.2.2, policy]
  refine ⟨policy, fun place => ?_, stored, fun map map' before now => ?_⟩
  · have sound := at'.sound_at reached found
    have sound' := at''.sound_at reached' found'
    rw [phases] at sound
    rw [phases'] at sound'
    rw [sound.guarded.latch_eq (fun phase member => (of_isFresh (fresh phase member)).1) inward,
      sound'.guarded.latch_eq (fun phase member => (of_isFresh (fresh' phase member)).1) inward]
    simp only [policy]
  · have rests := at'.rests reached found before phases fresh
    have rests' := at''.rests reached' found' now phases' fresh'
    refine ⟨by rw [rests.free, rests'.free], fun key place mapped => ?_,
      fun key place missing mapped => ?_⟩
    · refine rests.stays rests' mapped fun result filled => ?_
      obtain ⟨last, present, mapped', content⟩ :=
        filled_of_reaches reached.sound reaches found before mapped filled
      rw [found', Option.some.injEq, Cache.mk.injEq, now] at present
      cases present.2.2
      exact ⟨mapped', content⟩
    · obtain ⟨result, slot⟩ := rests.exists_of_new rests' inward missing mapped
      refine ⟨result, ((stored key result).mp ?_).resolve_left ?_, slot⟩
      · simp [now, Storage.stored?, mapped, slot]
      · simp [before, Storage.stored?, missing]

end Gains

/-! ## The end of a run with nothing to be kept -/

/-- A thread that computes an argument computes no equal one around that. -/
theorem At.apart_of_computing {focus : Focus}
    (at' : system.At 0 ⟨focus, .computing number key place :: frames⟩)
    (reached : system.Reached 1) (found : system.world.caches[number]? = some cache)
    (quiet : Activity.phases number ⟨focus, .computing number key place :: frames⟩ =
      .computing key place :: Frame.phases number frames) :
    ∀ argument other, .computing argument other ∈ Frame.phases number frames →
      ¬key.same argument = true := by
  have sound := at'.sound_at reached found
  rw [quiet] at sound
  intro argument other member
  have inside : Phase.computing argument other ∈
      ([.computing key place :: Frame.phases number frames].set 0
        (Frame.phases number frames)).getD 0 [] := by
    simpa using member
  exact sound.exclusive List.getElem?_cons_zero rfl rfl inside rfl rfl

/-- A run that ended with nothing to be kept: its application comes back with its outcome, and
neither a result nor a slot is left for its argument. -/
theorem At.forgets {outcome : Outcome} (reached : system.Reached 1)
    (found : system.world.caches[number]? = some cache)
    (at' : system.At 0 ⟨.answer outcome, .computing number key place :: frames⟩)
    (vain : cache.retention.retains outcome = false) :
    ∃ steps after storage, system.follow (List.replicate steps 0) = some after ∧
      after.At 0 ⟨.answer outcome, frames⟩ ∧
      after.world.caches[number]? = some { cache with storage := storage } ∧
      storage.stored? key = none ∧ ∀ map, storage = .slots map → map.find? key = none := by
  have quiet : Activity.phases number ⟨.answer outcome, .computing number key place :: frames⟩ =
      .computing key place :: Frame.phases number frames := by
    simp [Frame.phases]
  have sound := at'.sound_at reached found
  rw [quiet] at sound
  obtain ⟨storage, removals, comes, agrees, -, -⟩ := Activity.comes_of_vain frames found sound vain
  obtain ⟨steps, after, followed, same, back⟩ := at'.follow comes
  have found' : after.world.caches[number]? = some { cache with storage := storage } := by
    rw [same]
    exact World.caches_amend found storage _
  have head : Phase.computing key place ∈
      [.computing key place :: Frame.phases number frames].getD 0 [] := List.mem_cons_self
  have unstored : storage.stored? key = none := by
    rw [agrees.stored, ← sound.find?_eq_stored? head rfl]
    exact sound.guarded.missing head rfl
  refine ⟨steps, after, storage, followed, back, found', unstored, fun map slots => ?_⟩
  have rests := back.rests (Relation.ReflTransGen.trans reached (Reaches.of_follow followed)) found'
    slots (show _ = [] ++ Frame.phases number frames from rfl) (by simp)
  cases mapped : map.find? key with
  | none => rfl
  | some number' =>
      exfalso
      rcases rests.filled (SlotMap.find?_mem_places mapped) with filled | ⟨argument, computing⟩
      · simp only [slots, Storage.stored?, mapped, Option.bind_some] at unstored
        rw [unstored] at filled
        cases filled
      · exact at'.apart_of_computing reached found quiet argument number' computing
          (SlotMap.same_of_find? rests.nodup mapped (rests.mapped computing))

/-- Nothing is stored for an argument that nothing was stored for and no run was started for since. -/
theorem unstored_of_spares {storage storage' : Storage} {activity : Activity} {other : Value}
    (reached : system.Reached 1)
    (found : system.world.caches[number]? = some { cache with storage := storage })
    (at' : system.At 0 activity) (phases : activity.phases number = Frame.phases number frames)
    (apart : ∀ argument place, .computing argument place ∈ Frame.phases number frames →
      ¬key.same argument = true)
    (unstored : storage.stored? key = none) (reaches : Reaches 1 system after)
    (spares : system.Spares after number key) (equal : key.same other = true)
    (found' : after.world.caches[number]? = some { cache with storage := storage' }) :
    storage'.stored? other = none := by
  obtain ⟨added, log, unstarted⟩ := spares
  have reached' : after.Reached 1 := Relation.ReflTransGen.trans reached reaches
  have marks := marks_append number log
  have sound := at'.sound_at reached found
  have backed : Cache.Backed { cache with storage := storage' } (after.phases number)
      (after.world.marks number) := Cache.backed_invariant.of_reached reached' _ found'
  by_contra stored
  obtain ⟨result, stored⟩ := Option.ne_none_iff_exists'.mp stored
  obtain ⟨argument, same, ended, keeps⟩ := backed.stored stored
  have about : key.same argument = true := Value.same_trans equal (Value.same_symm same)
  rw [marks] at ended
  rcases List.mem_append.mp ended with ended | ended
  · -- The run was going on before, for which the thread had to compute an equal argument.
    have ordered := (reached'.sound.present found').ordered
    rw [marks] at ordered
    have running := ordered.last?_of_unstarted ended about fun argument equal member => by
      obtain ⟨entry, present, mark⟩ := List.mem_filterMap.mp member
      cases entry <;> simp only [Entry.mark?, reduceCtorEq] at mark <;> split at mark <;> cases mark
      next here => exact unstarted argument equal (here ▸ present)
    obtain ⟨thread, place, computing⟩ := sound.running running
    rw [phases] at computing
    cases thread with
    | zero => exact apart argument place computing about
    | succ thread => simp at computing
  · have before := sound.stored_of_ended
      (settled_of_fresh (show _ = [] ++ Frame.phases number frames from phases) (by simp)
        (Frame.inward_phases number frames)) ended keeps
    rw [← storage.stored?_congr about, unstored] at before
    cases before

/-- An application that is not refused and finds nothing starts a run. -/
theorem At.starts (reached : system.Reached 1)
    (found : system.world.caches[number]? = some cache)
    (at' : system.At 0 ⟨.applying number key .seek, frames⟩)
    (missing : cache.storage.stored? key = none)
    (open' : cache.storage.policy.blocks (Frame.keys number frames) key = false) :
    ∃ steps after place, system.follow (List.replicate steps 0) = some after ∧
      after.At 0 ⟨.run (.apply cache.underlying key), .computing number key place :: frames⟩ ∧
      after.world.log = .started number key ::
        .event number (some key) (.miss cache.storage.policy) :: system.world.log := by
  have sound := at'.sound_at reached found
  rw [Activity.phases_applying, if_pos rfl] at sound
  obtain ⟨storage, place, comes, -, -⟩ := Activity.comes_of_missing frames found sound open' missing
  obtain ⟨steps, after, followed, same, there⟩ := at'.follow comes
  exact ⟨steps, after, place, followed, there, by rw [same]; rfl⟩

/-- In a program of a single thread: an application starts a run, which ends with nothing to be kept.
Then the application comes back with the outcome of the run. Nothing is stored for its argument, which
has no slot, and beside what nested applications stored the cache is as it was before the application.
The next application to an equal argument that nothing blocks misses and starts a run. -/
theorem failure_leaves_no_trace {later : System} {outcome : Outcome} (reached : system.Reached 1)
    (found : system.world.caches[number]? = some cache)
    (begun : system.At 0 ⟨.applying number key .seek, frames⟩)
    (reaches : Reaches 1 system later)
    (ended : later.At 0 ⟨.answer outcome, .computing number key place :: frames⟩)
    (vain : cache.retention.retains outcome = false) :
    ∃ steps after storage added, later.follow (List.replicate steps 0) = some after ∧
      after.At 0 ⟨.answer outcome, frames⟩ ∧
      after.world.caches[number]? = some { cache with storage := storage } ∧
      after.world.log = added ++ system.world.log ∧
      storage.stored? key = none ∧ (∀ map, storage = .slots map → map.find? key = none) ∧
      cache.storage.Gains storage (Gained number cache.retention added) ∧
      ∀ final other others, Reaches 1 after final → after.Spares final number key →
        key.same other = true → final.At 0 ⟨.applying number other .seek, others⟩ →
        cache.storage.policy.blocks (Frame.keys number others) other = false →
        ∃ steps next place, final.follow (List.replicate steps 0) = some next ∧
          next.At 0 ⟨.run (.apply cache.underlying other), .computing number other place :: others⟩ ∧
          next.world.log = .started number other ::
            .event number (some other) (.miss cache.storage.policy) :: final.world.log := by
  obtain ⟨storage', found', policy'⟩ := Reaches.caches reaches found
  have reached' : later.Reached 1 := Relation.ReflTransGen.trans reached reaches
  obtain ⟨steps, after, storage, followed, back, kept, unstored, unmapped⟩ :=
    ended.forgets reached' found' vain
  have onward : Reaches 1 later after := .of_follow followed
  have reaches' : Reaches 1 system after := Relation.ReflTransGen.trans reaches onward
  have reached'' : after.Reached 1 := Relation.ReflTransGen.trans reached reaches'
  obtain ⟨added, log⟩ := Reaches.log reaches'
  have gains := gains_of_reaches reached found begun
    (show _ = [.applying key .seek] ++ Frame.phases number frames by simp) (by simp [Phase.isFresh])
    reaches' kept back (show _ = [] ++ Frame.phases number frames from rfl) (by simp) log.symm
  refine ⟨steps, after, storage, added, followed, back, kept, log.symm, unstored, unmapped, gains, ?_⟩
  intro final other others onward' spares equal at' open'
  obtain ⟨last, found'', policy⟩ := Reaches.caches onward' kept
  have apart := ended.apart_of_computing reached' found' (by simp [Frame.phases])
  have missing := unstored_of_spares reached'' kept back rfl apart unstored onward' spares equal found''
  have same : last.policy = cache.storage.policy := policy.trans gains.policy
  have next := At.starts (Relation.ReflTransGen.trans reached'' onward') found'' at' missing
    (by simpa only [same] using open')
  simpa only [same] using next

/-- What goes on after an application to 1, however that ended: another application to 1. -/
def again : Reply → Computation := fun _ => .apply (.memoized 0) (.int 1)

/-- Code that comes back for 0, applies the function to 0 for 1 and fails then, and applies the
function to 1 twice for everything else. -/
def stumbling : Code
  | .int 0 => .value (.int 0)
  | .int 1 => .bind (.apply (.memoized 0) (.int 0)) fun _ => .raise "no result"
  | _ => .bind (.apply (.memoized 0) (.int 1)) again

/-- The first application to 1 comes back with the failure. Its slot is gone, and of what it did the
cache keeps only what was stored for 0. The second application to 1 misses and starts a run. -/
theorem failure_leaves_no_trace_stumbling :
    ∃ system later steps after storage idle final further last,
      (callers .perKey stumbling [[.int 2]]).follow (List.replicate 10 0) = some system ∧
      system.At 0 ⟨.applying 0 (.int 1) .seek, [.bind again, .computing 0 (.int 2) 0]⟩ ∧
      system.follow (List.replicate 22 0) = some later ∧
      later.At 0 ⟨.answer (.error (.raised (.text "no result"))),
        [.computing 0 (.int 1) 1, .bind again, .computing 0 (.int 2) 0]⟩ ∧
      later.follow (List.replicate steps 0) = some after ∧
      after.At 0 ⟨.answer (.error (.raised (.text "no result"))),
        [.bind again, .computing 0 (.int 2) 0]⟩ ∧
      after.world.caches[0]? = some ⟨.plain 0 stumbling, .all, storage⟩ ∧
      (∀ map, storage = .slots map → map.find? (.int 1) = none) ∧
      storage.stored? (.int 1) = none ∧ storage.stored? (.int 0) = some (.value (.int 0)) ∧
      after.follow (List.replicate idle 0) = some final ∧
      final.At 0 ⟨.applying 0 (.int 1) .seek, [.computing 0 (.int 2) 0]⟩ ∧
      final.follow (List.replicate further 0) = some last ∧
      last.world.log = .started 0 (.int 1) ::
        .event 0 (some (.int 1)) (.miss .perKey) :: final.world.log := by
  let between : List Entry := [.event 0 (some (.int 0)) (.stored none),
    .ended 0 (.int 0) (.ok (.value (.int 0))), .started 0 (.int 0),
    .event 0 (some (.int 0)) (.miss .perKey), .started 0 (.int 1),
    .event 0 (some (.int 1)) (.miss .perKey)]
  have followed : ∃ system later map,
      (callers .perKey stumbling [[.int 2]]).follow (List.replicate 10 0) = some system ∧
      system.world.caches[0]? = some ⟨.plain 0 stumbling, .all, .slots map⟩ ∧
      (system.workers[0]?).bind (·.current) =
        some ⟨.applying 0 (.int 1) .seek, [.bind again, .computing 0 (.int 2) 0]⟩ ∧
      system.follow (List.replicate 22 0) = some later ∧
      (later.workers[0]?).bind (·.current) = some
        ⟨.answer (.error (.raised (.text "no result"))),
          [.computing 0 (.int 1) 1, .bind again, .computing 0 (.int 2) 0]⟩ ∧
      later.world.log = between ++ system.world.log :=
    ⟨_, _, _, rfl, rfl, rfl, rfl, rfl, rfl⟩
  obtain ⟨system, later, map, first, found, begun, second, ended, told⟩ := followed
  rw [Option.bind_eq_some_iff] at begun ended
  have reached : system.Reached 1 :=
    (reached_callers .perKey stumbling [[.int 2]]).trans (Reaches.of_follow first)
  obtain ⟨steps, after, storage, added, onward, back, kept, log, unstored, unmapped, gains, next⟩ :=
    failure_leaves_no_trace reached found begun (Reaches.of_follow second) ended rfl
  -- The log tells that 0 was computed meanwhile.
  have nested : storage.stored? (.int 0) = some (.value (.int 0)) := by
    have reaches : Reaches 1 later after := .of_follow onward
    obtain ⟨more, longer⟩ := Reaches.log reaches
    rw [told, ← List.append_assoc, log] at longer
    have same := List.append_cancel_right longer
    exact (gains.stored _ _).mpr (.inr ⟨.int 0, rfl, same ▸ by simp [between], rfl⟩)
  -- The outer application goes on with the second application to 1.
  have seeks : Activity.Comes 0 after.world
      ⟨.answer (.error (.raised (.text "no result"))), [.bind again, .computing 0 (.int 2) 0]⟩
      after.world ⟨.applying 0 (.int 1) .seek, [.computing 0 (.int 2) 0]⟩ := ⟨2, rfl⟩
  obtain ⟨idle, final, quiet, same, there⟩ := back.follow seeks
  obtain ⟨further, last, place, came, -, starts⟩ := next final (.int 1) _ (Reaches.of_follow quiet)
    ⟨[], by rw [same]; rfl, by simp⟩ rfl there rfl
  exact ⟨system, later, steps, after, storage, idle, final, further, last, first, begun, second,
    ended, onward, back, kept, unmapped, unstored, nested, quiet, there, came, starts⟩

end System

end FunctionValues
