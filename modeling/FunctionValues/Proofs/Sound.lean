import FunctionValues.Proofs.Latches
import FunctionValues.Proofs.References
import FunctionValues.Proofs.Results

/-!
# Sound caches

The invariant of a cache in a running program, and its step lemma. Beside the latches and the
references to slots it concerns the marks that the runs of the underlying function leave in the log:
a run that was started and has not ended is one that some thread computes, a run that ended with a
result to be kept has it stored, or its thread is about to store it, and a run is started only when
the last one for the same argument has ended without such a result.
-/

namespace FunctionValues

/-- Whether the outcome of a run is stored. -/
def Retention.retains (retention : Retention) : Outcome → Bool
  | .ok result => retention.keeps result
  | .error _ => false

namespace Mark

/-- The last mark for an argument. -/
def last? (marks : List Mark) (key : Value) : Option Mark :=
  marks.find? (·.key.same key)

theorem last?_congr (marks : List Mark) {key other : Value} (equal : key.same other = true) :
    last? marks key = last? marks other := by
  have tests : (fun mark : Mark => mark.key.same key) = fun mark => mark.key.same other := by
    funext mark
    rw [Bool.eq_iff_iff]
    exact ⟨fun found => Value.same_trans found equal,
      fun found => Value.same_trans found (Value.same_symm equal)⟩
  simp only [last?, tests]

theorem last?_cons (mark : Mark) (marks : List Mark) (key : Value) :
    last? (mark :: marks) key = if mark.key.same key then some mark else last? marks key := by
  simp only [last?, List.find?_cons]
  split <;> simp_all

theorem last?_cons_of_same (mark : Mark) {marks : List Mark} {key : Value}
    (equal : mark.key.same key = true) : last? (mark :: marks) key = some mark := by
  rw [last?_cons, if_pos equal]

theorem last?_cons_of_ne (mark : Mark) {marks : List Mark} {key : Value}
    (different : ¬mark.key.same key = true) : last? (mark :: marks) key = last? marks key := by
  rw [last?_cons, if_neg different]

theorem same_of_last? {mark : Mark} {marks : List Mark} {key : Value}
    (last : last? marks key = some mark) : mark.key.same key = true := by
  simpa using List.find?_some last

/-- Runs for the same argument come one after another, each after one that ended without a result to
be kept. The latest mark is the first. -/
def Ordered (retention : Retention) : List Mark → Prop
  | [] => True
  | .started key :: marks =>
      (∀ mark, last? marks key = some mark →
        ∃ other outcome, mark = .ended other outcome ∧ retention.retains outcome = false) ∧
      Ordered retention marks
  | .ended key _ :: marks => last? marks key = some (.started key) ∧ Ordered retention marks

end Mark

namespace Phase

/-- The argument and the result of an application that is about to store it, if it is to be kept. -/
def keeping? : Phase → Option (Value × Result)
  | applying key (.settle _ (.ok result)) | applying key (.keep _ (.ok result)) =>
      some (key, result)
  | _ => none

theorem mapped?_of_keeping? {phase : Phase} {key : Value} {result : Result}
    (keeping : phase.keeping? = some (key, result)) :
    ∃ place, phase.mapped? = some (key, place) ∧ phase.latched? = some place := by
  unfold keeping? at keeping
  split at keeping <;> simp_all [mapped?, latched?, Stage.latched?, Stage.place?]

theorem mapped?_of_missed? {phase : Phase} {key : Value} {place : Nat}
    (missed : phase.missed? = some (key, place)) : phase.mapped? = some (key, place) := by
  unfold missed? at missed
  split at missed <;> simp_all [mapped?, Stage.place?]

end Phase

/-- The state of a cache fits the phases of the threads and the runs of its function. -/
structure Cache.Sound (cache : Cache) (threads : List (List Phase)) (marks : List Mark) : Prop where
  guarded : cache.storage.Guarded threads
  traced (map) : cache.storage = .slots map → map.Traced threads
  begun {thread key place} (member : Phase.computing key place ∈ threads.getD thread []) :
    Mark.last? marks key = some (.started key)
  running {key other} (last : Mark.last? marks key = some (.started other)) :
    ∃ thread place, Phase.computing other place ∈ threads.getD thread []
  kept {key other result} (last : Mark.last? marks key = some (.ended other (.ok result)))
    (keeps : cache.retention.keeps result = true) :
    cache.storage.stored? key = some result ∨
      ∃ thread, ∃ phase ∈ threads.getD thread [], phase.keeping? = some (other, result)
  ordered : Mark.Ordered cache.retention marks

/-- A step of a thread keeps the policy of a storage. -/
theorem Phase.Moves.policy {retention : Retention} {thread : Thread} {storage after : Storage}
    {phases phases' : List Phase} {added : List Mark}
    (moves : Phase.Moves retention thread storage phases added after phases') :
    after.policy = storage.policy := by
  cases moves with
  | stay | apply key | count | settle outcome | counted moved => rfl
  | go moved => exact Storage.policy_of_go moved
  | compute moved =>
      obtain ⟨-, rfl⟩ := Storage.eq_start_of_compute moved
      exact Storage.policy_modifyLatch ..
  | finish moved =>
      obtain ⟨place, -, dropped⟩ := Storage.eq_drop_of_finish moved
      exact (Storage.alike_of_drop dropped).policy
  | tally moved => exact (Storage.alike_of_tally moved).policy

namespace Cache.Sound

variable {cache : Cache} {threads : List (List Phase)} {marks : List Mark} {thread : Thread}
  {phase : Phase} {phases rest : List Phase} {key : Value} {place : Nat}

theorem known (sound : cache.Sound threads marks) (member : phase ∈ threads.getD thread [])
    (held : place ∈ phase.references) : cache.storage.HasPlace place := by
  cases storage : cache.storage with
  | table results => trivial
  | slots map => exact (sound.traced map storage).known member held

/-- An application finds at its place what is stored for its argument. -/
theorem find?_eq_stored? (sound : cache.Sound threads marks)
    (member : phase ∈ threads.getD thread []) (mapped : phase.mapped? = some (key, place)) :
    cache.storage.find? place key = cache.storage.stored? key := by
  cases storage : cache.storage with
  | table results => rfl
  | slots map =>
      have found := (sound.traced map storage).mapped member mapped
      simp [Storage.find?, Storage.stored?, found]

/-- Applications for the same argument meet at one latch. -/
theorem joins_of_same (sound : cache.Sound threads marks) {other : Thread} {phase' : Phase}
    {argument : Value} {place' : Nat} (member : phase ∈ threads.getD thread [])
    (mapped : phase.mapped? = some (key, place)) (member' : phase' ∈ threads.getD other [])
    (mapped' : phase'.mapped? = some (argument, place')) (equal : key.same argument = true) :
    cache.storage.policy.joins place place' = true := by
  cases storage : cache.storage with
  | table results => rfl
  | slots map =>
      have traced := sound.traced map storage
      have found := traced.mapped member mapped
      rw [map.find?_congr equal, traced.mapped member' mapped', Option.some.injEq] at found
      simp [Storage.policy, Policy.joins, found]

/-- Storing a result leaves what is stored for other arguments. -/
theorem stored?_insert (sound : cache.Sound threads marks) {result : Result}
    (member : phase ∈ threads.getD thread []) (mapped : phase.mapped? = some (key, place))
    (other : Value) :
    (cache.storage.insert place key result).stored? other =
      if key.same other then some result else cache.storage.stored? other := by
  cases storage : cache.storage with
  | table results => exact results.find?_insert key other result
  | slots map =>
      have traced := sound.traced map storage
      have found := traced.mapped member mapped
      have within := traced.bounded place (SlotMap.find?_mem_places found)
      simp only [Storage.insert, Storage.stored?, SlotMap.find?_modify]
      split
      next equal =>
        rw [← map.find?_congr equal, found, Option.bind_some, map.slot_modify_self _ within]
      next different =>
        cases reached : map.find? other with
        | none => rfl
        | some place' =>
            have apart : place ≠ place' := by
              rintro rfl
              exact different (SlotMap.same_of_find? traced.nodup found reached)
            rw [Option.bind_some, Option.bind_some, map.slot_modify_of_ne _ apart]

/-- Storing the first result for an argument makes one more. -/
theorem size_insert (sound : cache.Sound threads marks) {result : Result}
    (member : phase ∈ threads.getD thread []) (missed : phase.missed? = some (key, place)) :
    (cache.storage.insert place key result).size = cache.storage.size + 1 := by
  have missing := sound.guarded.missing member missed
  cases storage : cache.storage with
  | table results =>
      rw [storage] at missing
      have absent : results.find? key = none := missing
      simp [Storage.insert, Storage.size, Table.insert, absent]
  | slots map =>
      rw [storage] at missing
      have traced := sound.traced map storage
      have found := traced.mapped member (Phase.mapped?_of_missed? missed)
      exact map.stored_modify_of_empty traced.nodup traced.bounded found missing

/-- An application keeps the results of a cache, unless it stores one. -/
theorem agrees_of_go {stage next : Stage} {after : Storage} {event : Option Event}
    {argument : Value} (sound : cache.Sound threads marks)
    (member : Phase.applying argument stage ∈ threads.getD thread [])
    (other : ∀ place outcome, stage ≠ .keep place outcome)
    (moved : cache.storage.advance cache.retention thread argument stage = .go after event next) :
    cache.storage.Agrees after := by
  cases Storage.goes_of_go moved with
  | sought found =>
      cases storage : cache.storage with
      | table results =>
          rw [storage] at found
          cases found
          exact .refl _
      | slots map =>
          rw [storage] at found
          simp only [Storage.seek] at found
          split at found <;> cases found
          exact .of_obtain map argument
  | refused | admitted | hit | missed | passed | unshared | shared | spared => exact .refl _
  | latched | settled | unlatched => exact .of_modifyLatch ..
  | stored | notRetained | failed => exact absurd rfl (other _ _)
  | entered _ _ here | left _ _ here => exact here ▸ .of_index rfl fun _ => rfl
  | removed _ here empty =>
      have traced := sound.traced _ here
      exact here ▸ .of_remove traced.distinct (traced.mapped member rfl) empty

/-- What is stored for an argument stays stored. -/
theorem stored_of_moves {after : Storage} {phases' : List Phase} {added : List Mark}
    {result : Result} (sound : cache.Sound threads marks)
    (present : threads[thread]? = some phases)
    (moves : Phase.Moves cache.retention thread cache.storage phases added after phases')
    (stored : cache.storage.stored? key = some result) : after.stored? key = some result := by
  cases moves with
  | stay | apply key | count | settle outcome | counted moved => exact stored
  | @go _ argument stage _ _ next moved =>
      have member : Phase.applying argument stage ∈ threads.getD thread [] := by simp [present]
      by_cases keeps : ∃ place outcome, stage = .keep place outcome
      · obtain ⟨place, outcome, rfl⟩ := keeps
        have missing := sound.guarded.missing member rfl
        rw [sound.find?_eq_stored? member rfl] at missing
        simp only [Storage.advance, Storage.keep] at moved
        split at moved
        · split at moved
          · cases moved
            rw [sound.stored?_insert member rfl, if_neg, stored]
            intro equal
            rw [cache.storage.stored?_congr equal, stored] at missing
            cases missing
          · cases moved
            exact stored
        · cases moved
          exact stored
      · push Not at keeps
        rw [(sound.agrees_of_go member keeps moved).stored, stored]
  | compute moved =>
      obtain ⟨rfl, rfl⟩ := Storage.eq_start_of_compute moved
      rw [(Storage.Agrees.of_modifyLatch ..).stored, stored]
  | finish moved =>
      obtain ⟨place, rfl, dropped⟩ := Storage.eq_drop_of_finish moved
      rw [(Storage.Agrees.of_drop dropped).stored, stored]
  | tally moved => rw [(Storage.Agrees.of_tally moved).stored, stored]

/-- A run is started only for an argument that nothing is stored for. -/
theorem missing_of_started {after : Storage} {phases' : List Phase} {added : List Mark}
    (sound : cache.Sound threads marks) (present : threads[thread]? = some phases)
    (moves : Phase.Moves cache.retention thread cache.storage phases added after phases')
    (started : Mark.started key ∈ added) : cache.storage.stored? key = none := by
  cases moves with
  | stay | apply argument | count | go moved | finish moved | tally moved | counted moved =>
      cases started
  | @compute _ argument _ _ place moved =>
      obtain ⟨rfl, -⟩ := Storage.eq_start_of_compute moved
      obtain ⟨⟩ := List.mem_singleton.mp started
      have member : Phase.applying key (.start place) ∈ threads.getD thread [] := by
        simp [present]
      rw [← sound.find?_eq_stored? member rfl]
      exact sound.guarded.missing member rfl
  | settle outcome => simp at started

/-- While a thread holds the latch for an argument, nobody else does for an equal one. -/
theorem exclusive (sound : cache.Sound threads marks)
    (present : threads[thread]? = some (phase :: rest)) {other : Thread} {phase' : Phase}
    {argument : Value} {place' : Nat} (mapped : phase.mapped? = some (key, place))
    (latched : phase.latched? = some place)
    (member : phase' ∈ (threads.set thread rest).getD other [])
    (mapped' : phase'.mapped? = some (argument, place')) (latched' : phase'.latched? = some place') :
    ¬key.same argument = true := by
  intro equal
  have here : threads.getD thread [] = phase :: rest := by simp [present]
  have joined := sound.joins_of_same (here ▸ List.mem_cons_self) mapped
    (Phase.mem_of_mem_elsewhere [phase] present member) mapped' equal
  have latches : phase'.latches cache.storage.policy place = true := by
    simp [Phase.latches, latched', joined]
  by_cases same : thread = other
  · subst same
    have inside : thread < threads.length := (List.getElem?_eq_some_iff.mp present).1
    have behind : phase' ∈ rest := by simpa [inside] using member
    rw [sound.guarded.alone here latched phase' behind] at latches
    cases latches
  · have inside : phase' ∈ threads.getD other [] :=
      Phase.mem_of_mem_elsewhere [phase] present member
    have held := sound.guarded.holder_eq (here ▸ List.mem_cons_self) latched
    have held' := sound.guarded.holder_eq inside latched'
    rw [← cache.storage.latch_congr joined, held, Option.some.injEq] at held'
    exact same held'

/-! ## The step lemma -/

section Step

variable {after : Storage} {before now : List Phase}

/-- A step that neither starts nor ends a run. -/
private theorem quiet (before now : List Phase) (sound : cache.Sound threads marks)
    (present : threads[thread]? = some (before ++ rest))
    (guarded : after.Guarded (threads.set thread (now ++ rest)))
    (traced : ∀ map, after = .slots map → map.Traced (threads.set thread (now ++ rest)))
    (computing : ∀ key place, Phase.computing key place ∈ now ↔ Phase.computing key place ∈ before)
    (stored : ∀ {key result}, cache.storage.stored? key = some result →
      after.stored? key = some result)
    (keeping : ∀ phase ∈ before, ∀ key result, phase.keeping? = some (key, result) →
      cache.retention.keeps result = true →
      (∃ phase' ∈ now, phase'.keeping? = some (key, result)) ∨ after.stored? key = some result) :
    Cache.Sound { cache with storage := after } (threads.set thread (now ++ rest)) marks := by
  have inside : thread < threads.length := (List.getElem?_eq_some_iff.mp present).1
  have here : ∀ phase ∈ now, phase ∈ (threads.set thread (now ++ rest)).getD thread [] := by
    intro phase member
    simp [inside, member]
  refine ⟨guarded, traced, ?_, ?_, ?_, sound.ordered⟩
  · intro other key place member
    rcases Phase.mem_of_mem_set now inside member with ⟨rfl, inward⟩ | outward
    · have already : Phase.computing key place ∈ threads.getD thread [] := by
        simp [present, (computing key place).mp inward]
      exact sound.begun already
    · exact sound.begun (Phase.mem_of_mem_elsewhere before present outward)
  · intro key other last
    obtain ⟨thread', place, member⟩ := sound.running last
    refine ⟨thread', place, ?_⟩
    rcases Phase.mem_elsewhere_of_mem before present member with ⟨rfl, inward⟩ | outward
    · exact here _ ((computing other place).mpr inward)
    · exact Phase.mem_set_of_mem now inside outward
  · intro key other result last keeps
    have equal : other.same key = true := Mark.same_of_last? last
    rcases sound.kept last keeps with holds | ⟨thread', phase, member, pending⟩
    · exact .inl (stored holds)
    · rcases Phase.mem_elsewhere_of_mem before present member with ⟨rfl, inward⟩ | outward
      · rcases keeping phase inward other result pending keeps with ⟨next, still, waiting⟩ | holds
        · exact .inr ⟨thread, next, here next still, waiting⟩
        · left
          rw [← after.stored?_congr equal]
          exact holds
      · exact .inr ⟨thread', phase, Phase.mem_set_of_mem now inside outward, pending⟩

/-- When a run is about to start, the last one for its argument has ended with nothing to be kept. -/
private theorem vain_of_start {mark : Mark} (sound : cache.Sound threads marks)
    (present : threads[thread]? = some (.applying key (.start place) :: rest))
    (last : Mark.last? marks key = some mark) :
    ∃ other outcome, mark = .ended other outcome ∧ cache.retention.retains outcome = false := by
  have head : Phase.applying key (.start place) ∈ threads.getD thread [] := by simp [present]
  have equal : mark.key.same key = true := Mark.same_of_last? last
  -- Nobody else is between taking and freeing the latch for this argument.
  have alone : ∀ {other : Thread} {phase : Phase} {argument : Value} {place' : Nat},
      phase ∈ (threads.set thread rest).getD other [] → phase.mapped? = some (argument, place') →
      phase.latched? = some place' → ¬argument.same key = true :=
    fun member mapped latched same =>
      sound.exclusive present rfl rfl member mapped latched (Value.same_symm same)
  cases mark with
  | started other =>
      obtain ⟨thread', place', member⟩ := sound.running last
      have outward := (Phase.eq_or_mem_elsewhere present member).resolve_left (by simp)
      exact absurd equal (alone outward rfl rfl)
  | ended other outcome =>
      refine ⟨other, outcome, rfl, ?_⟩
      cases outcome with
      | error failure => rfl
      | ok result =>
          by_contra retained
          have keeps : cache.retention.keeps result = true := by
            simpa [Retention.retains] using retained
          rcases sound.kept last keeps with holds | ⟨thread', phase, member, pending⟩
          · rw [← sound.find?_eq_stored? head rfl, sound.guarded.missing head rfl] at holds
            cases holds
          · rcases Phase.eq_or_mem_elsewhere present member with rfl | outward
            · cases pending
            · obtain ⟨place', mapped, latched⟩ := Phase.mapped?_of_keeping? pending
              exact alone outward mapped latched equal

/-- The start of a run. -/
private theorem start (sound : cache.Sound threads marks)
    (present : threads[thread]? = some (.applying key (.start place) :: rest))
    (guarded : after.Guarded (threads.set thread (.computing key place :: rest)))
    (traced : ∀ map, after = .slots map →
      map.Traced (threads.set thread (.computing key place :: rest)))
    (stored : ∀ {key result}, cache.storage.stored? key = some result →
      after.stored? key = some result) :
    Cache.Sound { cache with storage := after } (threads.set thread (.computing key place :: rest))
      (.started key :: marks) := by
  have inside : thread < threads.length := (List.getElem?_eq_some_iff.mp present).1
  refine ⟨guarded, traced, ?_, ?_, ?_, fun mark last => sound.vain_of_start present last,
    sound.ordered⟩
  · intro other argument place' member
    rcases Phase.eq_or_mem_of_mem_set inside member with same | outward
    · obtain ⟨rfl, rfl⟩ := Phase.computing.inj same
      exact Mark.last?_cons_of_same (.started argument) (Value.same_refl argument)
    · rw [Mark.last?_cons_of_ne (.started key) (sound.exclusive present rfl rfl outward rfl rfl)]
      exact sound.begun (Phase.mem_of_mem_elsewhere [_] present outward)
  · intro argument other last
    by_cases equal : key.same argument = true
    · rw [Mark.last?_cons_of_same (.started key) equal] at last
      cases last
      exact ⟨thread, place, by simp [inside]⟩
    · rw [Mark.last?_cons_of_ne (.started key) equal] at last
      obtain ⟨thread', place', member⟩ := sound.running last
      refine ⟨thread', place', Phase.mem_set_of_mem [_] inside ?_⟩
      exact (Phase.eq_or_mem_elsewhere present member).resolve_left (by simp)
  · intro argument other result last keeps
    by_cases equal : key.same argument = true
    · rw [Mark.last?_cons_of_same (.started key) equal] at last
      cases last
    · rw [Mark.last?_cons_of_ne (.started key) equal] at last
      rcases sound.kept last keeps with holds | ⟨thread', phase, member, pending⟩
      · exact .inl (stored holds)
      · rcases Phase.eq_or_mem_elsewhere present member with rfl | outward
        · cases pending
        · exact .inr ⟨thread', phase, Phase.mem_set_of_mem [_] inside outward, pending⟩

/-- The end of a run. -/
private theorem settle (outcome : Outcome) (sound : cache.Sound threads marks)
    (present : threads[thread]? = some (.computing key place :: rest))
    (guarded : cache.storage.Guarded
      (threads.set thread (.applying key (.settle place outcome) :: rest)))
    (traced : ∀ map, cache.storage = .slots map →
      map.Traced (threads.set thread (.applying key (.settle place outcome) :: rest))) :
    cache.Sound (threads.set thread (.applying key (.settle place outcome) :: rest))
      (.ended key outcome :: marks) := by
  have inside : thread < threads.length := (List.getElem?_eq_some_iff.mp present).1
  have head : Phase.computing key place ∈ threads.getD thread [] := by simp [present]
  refine ⟨guarded, traced, ?_, ?_, ?_, sound.begun head, sound.ordered⟩
  · intro other argument place' member
    have outward := (Phase.eq_or_mem_of_mem_set inside member).resolve_left (by simp)
    rw [Mark.last?_cons_of_ne (.ended key outcome) (sound.exclusive present rfl rfl outward rfl rfl)]
    exact sound.begun (Phase.mem_of_mem_elsewhere [_] present outward)
  · intro argument other last
    by_cases equal : key.same argument = true
    · rw [Mark.last?_cons_of_same (.ended key outcome) equal] at last
      cases last
    · rw [Mark.last?_cons_of_ne (.ended key outcome) equal] at last
      obtain ⟨thread', place', member⟩ := sound.running last
      refine ⟨thread', place', Phase.mem_set_of_mem [_] inside ?_⟩
      rcases Phase.eq_or_mem_elsewhere present member with same | outward
      · obtain ⟨rfl, -⟩ := Phase.computing.inj same
        exact absurd (Mark.same_of_last? last) equal
      · exact outward
  · intro argument other result last keeps
    by_cases equal : key.same argument = true
    · rw [Mark.last?_cons_of_same (.ended key outcome) equal] at last
      cases last
      exact .inr ⟨thread, .applying key (.settle place (.ok result)), by simp [inside], rfl⟩
    · rw [Mark.last?_cons_of_ne (.ended key outcome) equal] at last
      rcases sound.kept last keeps with holds | ⟨thread', phase, member, pending⟩
      · exact .inl holds
      · rcases Phase.eq_or_mem_elsewhere present member with rfl | outward
        · cases pending
        · exact .inr ⟨thread', phase, Phase.mem_set_of_mem [_] inside outward, pending⟩

/-- What an application is about to store is stored when it goes on past that. -/
private theorem keeping_of_go {stage next : Stage} {event : Option Event} {argument : Value}
    {result : Result} (sound : cache.Sound threads marks)
    (member : Phase.applying key stage ∈ threads.getD thread [])
    (moved : cache.storage.advance cache.retention thread key stage = .go after event next)
    (pending : (Phase.applying key stage).keeping? = some (argument, result))
    (keeps : cache.retention.keeps result = true) :
    (Phase.applying key next).keeping? = some (argument, result) ∨
      after.stored? argument = some result := by
  unfold Phase.keeping? at pending
  split at pending
  next key' place result' shape =>
    obtain ⟨rfl, rfl⟩ := shape
    cases moved
    exact .inl pending
  next key' place result' shape =>
    obtain ⟨rfl, rfl⟩ := shape
    obtain ⟨rfl, rfl⟩ : key = argument ∧ result' = result := by simpa using pending
    simp only [Storage.advance, Storage.keep, if_pos keeps] at moved
    cases moved
    right
    rw [sound.stored?_insert member rfl, if_pos (Value.same_refl key)]
  next => cases pending

/-- A step of a thread keeps a cache sound. -/
theorem moves {phases' : List Phase} {added : List Mark} (sound : cache.Sound threads marks)
    (present : threads[thread]? = some phases)
    (moves : Phase.Moves cache.retention thread cache.storage phases added after phases') :
    Cache.Sound { cache with storage := after } (threads.set thread phases') (added ++ marks) := by
  have here : threads.getD thread [] = phases := by simp [present]
  have guarded : after.Guarded (threads.set thread phases') := by
    refine sound.guarded.moves present (fun phase member place held => ?_) moves
    exact sound.known (here ▸ member) held
  have traced : ∀ map, after = .slots map → map.Traced (threads.set thread phases') := by
    rintro map rfl
    cases storage : cache.storage with
    | table results =>
        have policy := moves.policy
        rw [storage] at policy
        cases policy
    | slots before => exact (sound.traced before storage).moves present (storage ▸ moves)
  have stored : ∀ {key result}, cache.storage.stored? key = some result →
      after.stored? key = some result := fun holds => sound.stored_of_moves present moves holds
  cases moves with
  | stay => exact sound.quiet [] [] present guarded traced (by simp) stored (by simp)
  | apply key => exact sound.quiet [] [_] present guarded traced (by simp) stored (by simp)
  | count => exact sound.quiet [] [_] present guarded traced (by simp) stored (by simp)
  | go moved =>
      refine sound.quiet [_] [_] present guarded traced (by simp) stored ?_
      simp only [List.mem_singleton, forall_eq]
      intro key result pending keeps
      refine (sound.keeping_of_go (here ▸ List.mem_cons_self) moved pending keeps).imp ?_ id
      exact fun still => ⟨_, rfl, still⟩
  | compute moved =>
      obtain ⟨rfl, -⟩ := Storage.eq_start_of_compute moved
      exact sound.start present guarded traced stored
  | settle outcome => exact sound.settle outcome present guarded traced
  | finish moved =>
      obtain ⟨place, rfl, -⟩ := Storage.eq_drop_of_finish moved
      exact sound.quiet [_] [] present guarded traced (by simp) stored (by simp [Phase.keeping?])
  | tally moved =>
      exact sound.quiet [_] [_] present guarded traced (by simp) stored (by simp [Phase.keeping?])
  | counted moved =>
      exact sound.quiet [_] [] present guarded traced (by simp) stored (by simp [Phase.keeping?])

end Step

/-- A new cache is sound, whichever threads are about to apply its function. -/
theorem of_idle {policy : Policy} (empty : cache.storage = .empty policy)
    (idle : ∀ phases ∈ threads, ∀ phase ∈ phases, phase.isFresh = true) :
    cache.Sound threads [] := by
  refine ⟨?_, ?_, ?_, ?_, ?_, trivial⟩
  · refine .of_idle (fun place => ?_) idle
    rw [empty]
    cases policy <;> rfl
  · intro map storage
    rw [empty] at storage
    cases policy with
    | global => cases storage
    | perKey =>
        cases storage
        exact .of_idle idle
  · intro thread key place member
    have contradiction := Phase.isFresh_of_idle idle member
    cases contradiction
  · intro key other last
    cases last
  · intro key other result last
    cases last

/-- Threads that have nothing to do with a cache may be replaced by others that have not either. -/
theorem restart {threads' : List (List Phase)} (sound : cache.Sound threads marks)
    (idle : ∀ phases ∈ threads, phases = []) (idle' : ∀ phases ∈ threads', phases = []) :
    cache.Sound threads' marks := by
  have same : ∀ thread, threads'.getD thread [] = threads.getD thread [] := by
    intro thread
    rw [Phase.getD_of_idle idle, Phase.getD_of_idle idle']
  refine ⟨⟨?_, ?_, ?_⟩, ?_, ?_, ?_, ?_, sound.ordered⟩
  · simpa only [same] using sound.guarded.holder
  · simpa only [same] using sound.guarded.owner
  · intro thread phase key place member
    exact sound.guarded.missing (same thread ▸ member)
  · intro map storage
    exact (sound.traced map storage).restart idle idle'
  · intro thread key place member
    exact sound.begun (same thread ▸ member)
  · intro key other last
    obtain ⟨thread, place, member⟩ := sound.running last
    exact ⟨thread, place, same thread ▸ member⟩
  · intro key other result last keeps
    refine (sound.kept last keeps).imp id ?_
    rintro ⟨thread, phase, member, pending⟩
    exact ⟨thread, phase, same thread ▸ member, pending⟩

end Cache.Sound

end FunctionValues
