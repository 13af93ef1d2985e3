import FunctionValues.Proofs.Occupancy

/-!
# The removal of slots

A program of a single thread. When a run has ended with nothing to be kept, nobody else has anything
to do with its slot until the application ends: the slot stays empty, and it is unshared when the
thread looks whether it may remove it. So it is removed, and what is reported of the removal is how
many results are stored and how many arguments are still computed.
-/

namespace FunctionValues

/-- The place that an application has computed for in vain, until its slot is removed. -/
def Stage.vacated? : Stage → Option Nat
  | unlock place _ true | enter place _ | inspect place _ | clear place _ => some place
  | _ => none

namespace Storage

variable {storage after : Storage} {retention : Retention} {thread : Thread} {key : Value}
  {stage next : Stage} {event : Option Event} {place : Nat}

/-- A place is given up after a run that left nothing there, and it stays as it is. -/
theorem vacated?_of_go (vacated : next.vacated? = some place)
    (moved : storage.advance retention thread key stage = .go after event next) :
    (∃ outcome, stage = .keep place outcome ∧ after = storage) ∨
      stage.vacated? = some place ∧ after.find? place key = storage.find? place key := by
  cases goes_of_go moved with
  | notRetained other | failed other =>
      cases vacated
      exact .inl ⟨_, rfl, rfl⟩
  | unlatched other outcome vacant =>
      cases vacant <;> cases vacated
      exact .inr ⟨rfl, find?_modifyLatch ..⟩
  | @entered map other outcome here =>
      cases vacated
      subst here
      exact .inr ⟨rfl, rfl⟩
  | unshared =>
      cases vacated
      exact .inr ⟨rfl, rfl⟩
  | _ => cases vacated

/-- At the stages that may remove a slot it is unshared and empty. -/
def Removable (storage : Storage) (key : Value) : Stage → Prop
  | .inspect place _ => ∀ map, storage = .slots map → map.isUnshared key place = true
  | .clear place _ => ∀ map, storage = .slots map → (map.slot place).content = none
  | _ => True

end Storage

namespace Cache

/-- Where a thread that is alone has computed in vain, there is no result, and it computes nothing
else there. -/
def Deserted (cache : Cache) (threads : List (List Phase)) : Prop :=
  ∀ key stage place rest, threads[0]? = some (.applying key stage :: rest) →
    stage.vacated? = some place → cache.storage.find? place key = none ∧
      ∀ phase ∈ rest, phase.latches cache.storage.policy place = false

/-- A place that was computed for in vain stays deserted as long as there is one thread only. -/
theorem deserted_invariant : Cache.Invariant (fun _ threads => threads.length ≤ 1)
    (fun cache threads _ => cache.Deserted threads) := by
  have idling : ∀ (cache : Cache) (threads : List (List Phase)),
      (∀ phases ∈ threads, ∀ key stage rest, phases = .applying key stage :: rest →
        stage.vacated? = none) → cache.Deserted threads := by
    intro cache threads idle key stage place rest head vacated
    rw [idle _ (List.mem_of_getElem? head) key stage rest rfl] at vacated
    cases vacated
  refine ⟨?_, ?_, ?_⟩
  · intro cache threads marks added thread phases phases' after sound before alone inward present
      moves key stage place rest head vacated
    obtain ⟨inside, -⟩ := List.getElem?_eq_some_iff.mp present
    obtain rfl : thread = 0 := Nat.lt_one_iff.mp (Nat.lt_of_lt_of_le inside alone)
    rw [List.getElem?_set_self inside, Option.some.injEq] at head
    subst head
    cases moves with
    | stay => exact before key stage place rest present vacated
    | apply | settle => cases vacated
    | @go _ _ earlier _ _ _ moved =>
        rw [Storage.policy_of_go moved]
        rcases Storage.vacated?_of_go vacated moved with ⟨outcome, rfl, rfl⟩ | ⟨still, same⟩
        · have here : threads.getD 0 [] = .applying key (.keep place outcome) :: rest := by
            simp [present]
          exact ⟨sound.guarded.missing (here ▸ List.mem_cons_self) rfl, sound.guarded.alone here rfl⟩
        · obtain ⟨empty, apart⟩ := before key earlier place rest present still
          exact ⟨same.trans empty, apart⟩
    | finish | counted =>
        obtain ⟨argument, other, same⟩ := inward _ List.mem_cons_self
        cases same
  · intro cache threads policy empty idle
    refine idling cache threads fun phases member key stage rest same => ?_
    have fresh := idle phases member (.applying key stage) (same ▸ List.mem_cons_self)
    cases stage with
    | seek => rfl
    | _ => cases fresh
  · intro cache threads threads' marks sound before idle idle'
    refine idling cache threads' fun phases member key stage rest same => ?_
    rw [idle' phases member] at same
    cases same

namespace Sound

variable {cache : Cache} {marks : List Mark} {map : SlotMap} {key : Value} {place : Nat}
  {outcome : Outcome} {rest : List Phase}

/-- Nobody else refers to a slot that was computed for in vain. -/
theorem isUnshared (sound : cache.Sound [.applying key (.inspect place outcome) :: rest] marks)
    (deserted : cache.Deserted [.applying key (.inspect place outcome) :: rest])
    (storage : cache.storage = .slots map) (inward : Inward rest) :
    map.isUnshared key place = true := by
  have traced := sound.traced map storage
  have found : map.find? key = some place :=
    traced.mapped (show Phase.applying key (.inspect place outcome) ∈ List.getD _ 0 [] from
      List.mem_cons_self) rfl
  have once : map.places.count place = 1 := by
    rw [List.nodup_iff_count_eq_one.mp traced.nodup place (SlotMap.find?_mem_places found)]
  have apart := (deserted key _ place rest rfl rfl).2
  rw [storage] at apart
  have none : Phase.allRefer place rest = 0 := by
    simp only [Phase.allRefer, List.sum_eq_zero_iff_forall_eq_nat, List.mem_map,
      forall_exists_index, and_imp, forall_apply_eq_imp_iff₂]
    intro phase present
    obtain ⟨argument, other, rfl⟩ := inward phase present
    have different := apart _ present
    simp only [Phase.latches, Phase.latched?, Policy.joins, Storage.policy, Option.any_some,
      beq_eq_false_iff_ne, ne_eq] at different
    simp [Phase.refers, Phase.references, Ne.symm different]
  have two := traced.references place
  simp [once, Phase.referrers, Phase.allRefer_cons, none, Phase.refers, Phase.references,
    Stage.place?] at two
  simp [SlotMap.isUnshared, found, two]

end Sound

end Cache

namespace System

variable {system after : System} {number : Nat} {cache : Cache} {key : Value} {frames : List Frame}

/-- A program of a single thread never has two. -/
private theorem Reached.alone (reached : system.Reached 1) (number : Nat) :
    Relation.ReflTransGen (fun middle next => Happens 1 middle next ∧
      middle.Holds number fun _ threads _ => threads.length ≤ 1) ⟨{}, []⟩ system := by
  induction reached with
  | refl => exact .refl
  | tail before happens induction =>
      refine .tail induction ⟨happens, fun cache found => ?_⟩
      simpa [System.phases] using Reached.length_le before

/-- In a program of a single thread what was computed for in vain is deserted. -/
theorem Reached.deserted (reached : system.Reached 1)
    (found : system.world.caches[number]? = some cache) : cache.Deserted (system.phases number) :=
  (Cache.deserted_invariant.of_reaches sound_empty (by rintro _ ⟨⟩) (reached.alone number)).2 cache
    found

/-- In a program of a single thread a slot that was computed for in vain can be removed. -/
theorem At.removable {stage : Stage} (at' : system.At 0 ⟨.applying number key stage, frames⟩)
    (reached : system.Reached 1) (found : system.world.caches[number]? = some cache) :
    cache.storage.Removable key stage := by
  have sound := at'.sound_at reached found
  have deserted := reached.deserted found
  rw [(at'.phases_eq reached.length_le number).2] at deserted
  rw [Activity.phases_applying, if_pos rfl] at sound deserted
  cases stage with
  | inspect place outcome =>
      exact fun map storage => sound.isUnshared deserted storage (Frame.inward_phases number frames)
  | clear place outcome =>
      intro map storage
      have empty := (deserted key _ place _ rfl rfl).1
      rwa [storage] at empty
  | _ => trivial

/-- In a program of a single thread the report of a removal says how many results are stored and how
many arguments are still computed. -/
theorem slots_of_removal {slots : Nat} (reached : system.Reached 1)
    (happens : Happens 1 system after)
    (log : after.world.log = .event number (some key) (.slotRemoved slots) :: system.world.log) :
    ∃ focus frames cache, after.At 0 ⟨focus, frames⟩ ∧
      after.world.caches[number]? = some cache ∧
      slots = cache.storage.size + (Frame.keys number frames).length := by
  have reached' : after.Reached 1 := .tail reached happens
  obtain ⟨thread, cache, stage, next, storage, frames, found, moved, kept, there⟩ :=
    happens.of_event log
  cases Storage.goes_of_go moved with
  | @removed map place outcome =>
      obtain ⟨rfl, phases⟩ := there.phases_eq reached'.length_le number
      have sound := there.sound_at reached' kept
      have tended := tended_of_apart (reached'.apart number) kept rfl
      have leaving : Activity.phases number ⟨.applying number key (.leave place outcome), frames⟩ =
          [.applying key (.leave place outcome)] ++ Frame.phases number frames := by simp
      rw [phases, leaving] at tended
      rw [leaving] at sound
      have aside : ∀ phase ∈ [Phase.applying key (.leave place outcome)],
          phase.latched? = none ∧ phase.tended? = none := by
        simp [Phase.latched?, Stage.latched?, Phase.tended?, Stage.tended?]
      have inward := Frame.inward_phases number frames
      have occupied := sound.occupied rfl tended aside inward
      exact ⟨_, frames, _, there, kept, occupied.length_index inward⟩

end System

end FunctionValues
