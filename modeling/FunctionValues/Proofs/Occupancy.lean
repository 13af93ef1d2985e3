import FunctionValues.Proofs.Failures
import FunctionValues.Proofs.Reentry

/-!
# What the slots of a map are for

A program of a single thread. While the thread is at no stage of an application, each slot of a map
holds a result, and then nobody owns it, or it belongs to one computation that the thread is inside
of, and then it is empty and the thread owns it. So a map has as many slots as there are stored
results and computations.
-/

namespace FunctionValues

/-- The arguments of a map have different slots, each of which holds a result or belongs to one
computation of a thread that is alone. -/
structure SlotMap.Occupied (map : SlotMap) (phases : List Phase) : Prop where
  distinct : map.Distinct
  nodup : map.places.Nodup
  latch (place : Nat) : (map.slot place).latch =
    if phases.any (Phase.latches .perKey place) then ⟨some 0, some 0⟩ else {}
  apart (place : Nat) : phases.countP (Phase.latches .perKey place) ≤ 1
  mapped {key : Value} {place : Nat} (member : .computing key place ∈ phases) :
    map.find? key = some place
  empty {key : Value} {place : Nat} (member : .computing key place ∈ phases) :
    (map.slot place).content = none
  filled {place : Nat} (member : place ∈ map.places) :
    (map.slot place).content.isSome = true ∨ ∃ key, .computing key place ∈ phases

/-- A thread that is alone, and in what it is doing holds no latch and tends no slot, leaves each slot
to a result or to a computation. -/
theorem Cache.Sound.occupied {cache : Cache} {marks : List Mark} {head phases : List Phase}
    {map : SlotMap} (sound : cache.Sound [head ++ phases] marks) (storage : cache.storage = .slots map)
    (tended : map.Tended [head ++ phases])
    (aside : ∀ phase ∈ head, phase.latched? = none ∧ phase.tended? = none)
    (inward : Cache.Sound.Inward phases) : map.Occupied phases := by
  have traced := sound.traced map storage
  have guarded : (Storage.slots map).Guarded [head ++ phases] := storage ▸ sound.guarded
  have inside : ∀ {phase}, phase ∈ phases → phase ∈ [head ++ phases].getD 0 [] := by
    intro phase member
    simp [member]
  refine ⟨traced.distinct, traced.nodup, fun place => ?_, fun place => ?_, fun member => ?_,
    fun member => ?_, fun mapped => ?_⟩
  · exact guarded.latch_eq (fun phase member => (aside phase member).1) inward place
  · have once := guarded.countP_flatten_le place
    simp only [List.flatten_singleton, List.countP_append] at once
    exact Nat.le_trans (Nat.le_add_left ..) once
  · exact traced.mapped (inside member) rfl
  · exact guarded.missing (inside member) rfl
  · refine (tended.tended mapped).imp id ?_
    rintro ⟨thread, phase, member, tends⟩
    cases thread with
    | succ thread => simp at member
    | zero =>
        rcases List.mem_append.mp (show phase ∈ head ++ phases from member) with member | member
        · rw [(aside phase member).2] at tends
          cases tends
        · obtain ⟨key, other, rfl⟩ := inward phase member
          obtain rfl : other = _ := by simpa [Phase.tended?] using tends
          exact ⟨key, member⟩

namespace SlotMap.Occupied

variable {map : SlotMap} {phases : List Phase} {key : Value} {place : Nat}

/-- The computation for an argument owns the slot of it. -/
theorem latch_of_computing (occupied : map.Occupied phases)
    (member : .computing key place ∈ phases) : (map.slot place).latch = ⟨some 0, some 0⟩ := by
  rw [occupied.latch, if_pos]
  exact List.any_eq_true.mpr ⟨_, member, by simp [Phase.latches, Phase.latched?, Policy.joins]⟩

/-- Nobody holds a slot with a result. -/
theorem latch_of_filled (occupied : map.Occupied phases) (inward : Cache.Sound.Inward phases)
    {result : Result} (content : (map.slot place).content = some result) :
    (map.slot place).latch = {} := by
  rw [occupied.latch, if_neg]
  rw [List.any_eq_true]
  rintro ⟨phase, member, latches⟩
  obtain ⟨key, other, rfl⟩ := inward phase member
  obtain rfl : place = other := by simpa [Phase.latches, Phase.latched?, Policy.joins] using latches
  rw [occupied.empty member] at content
  cases content

/-- An argument has a slot if a result is stored for it or it is computed. -/
theorem isSome_find?_iff (occupied : map.Occupied phases) (key : Value) :
    (map.find? key).isSome = true ↔ ((Storage.slots map).stored? key).isSome = true ∨
      ∃ other ∈ phases.filterMap Phase.computed?, other.same key = true := by
  constructor
  · intro found
    obtain ⟨place, found⟩ := Option.isSome_iff_exists.mp found
    rcases occupied.filled (find?_mem_places found) with filled | ⟨other, member⟩
    · exact .inl (by simpa [Storage.stored?, found] using filled)
    · exact .inr ⟨other, List.mem_filterMap.mpr ⟨_, member, rfl⟩,
        same_of_find? occupied.nodup (occupied.mapped member) found⟩
  · rintro (stored | ⟨other, computed, equal⟩)
    · obtain ⟨result, stored⟩ := Option.isSome_iff_exists.mp stored
      obtain ⟨place, found, -⟩ := Option.bind_eq_some_iff.mp stored
      simp [found]
    · obtain ⟨phase, member, computed⟩ := List.mem_filterMap.mp computed
      obtain ⟨place, rfl⟩ := Phase.eq_of_computed? computed
      rw [← map.find?_congr equal, occupied.mapped member]
      rfl

/-- An argument is computed once at a time. -/
theorem countP_computed (occupied : map.Occupied phases) (inward : Cache.Sound.Inward phases)
    (member : .computing key place ∈ phases) :
    (phases.filterMap Phase.computed?).countP (·.same key) = 1 := by
  have same : (phases.filterMap Phase.computed?).countP (·.same key) =
      phases.countP (Phase.latches .perKey place) := by
    rw [List.countP_filterMap]
    refine List.countP_congr fun phase inside => ?_
    obtain ⟨other, place', rfl⟩ := inward phase inside
    have reached := occupied.mapped inside
    have found := occupied.mapped member
    simp only [Phase.computed?, Option.any_some, Phase.latches, Phase.latched?, Policy.joins,
      beq_iff_eq]
    constructor
    · intro equal
      rw [map.find?_congr equal, found, Option.some.injEq] at reached
      exact reached
    · rintro rfl
      exact same_of_find? occupied.nodup reached found
  refine Nat.le_antisymm (same ▸ occupied.apart place) (List.countP_pos_iff.mpr ?_)
  exact ⟨key, List.mem_filterMap.mpr ⟨_, member, rfl⟩, key.same_refl⟩

/-- The empty slots are those of computations. -/
theorem countP_empty (occupied : map.Occupied phases) (inward : Cache.Sound.Inward phases) :
    map.index.countP (fun entry => (map.slot entry.2).content.isNone) = phases.length := by
  have held : (phases.filterMap Phase.owned?).length = phases.length := by
    rw [List.length_filterMap_eq_countP, List.countP_eq_length]
    intro phase member
    obtain ⟨key, place, rfl⟩ := inward phase member
    rfl
  have once : (phases.filterMap Phase.owned?).Nodup := by
    refine List.nodup_iff_count_le_one.mpr fun place => ?_
    rw [List.count_filterMap]
    refine Nat.le_trans (Nat.le_of_eq (List.countP_congr fun phase member => ?_))
      (occupied.apart place)
    obtain ⟨key, other, rfl⟩ := inward phase member
    simp only [Phase.owned?, Phase.latches, Phase.latched?, Policy.joins, Option.any_some,
      beq_iff_eq, Option.some.injEq]
    exact eq_comm
  have perm : (map.places.filter fun place => (map.slot place).content.isNone).Perm
      (phases.filterMap Phase.owned?) := by
    refine (List.perm_ext_iff_of_nodup (occupied.nodup.filter _) once).mpr fun place => ?_
    simp only [List.mem_filter, List.mem_filterMap, Option.isNone_iff_eq_none]
    constructor
    · rintro ⟨mapped, empty⟩
      rcases occupied.filled mapped with filled | ⟨key, member⟩
      · simp [empty] at filled
      · exact ⟨_, member, rfl⟩
    · rintro ⟨phase, member, owned⟩
      obtain ⟨key, other, rfl⟩ := inward phase member
      obtain rfl : other = place := by simpa [Phase.owned?] using owned
      exact ⟨find?_mem_places (occupied.mapped member), occupied.empty member⟩
  rw [← held, ← perm.length_eq, ← List.countP_eq_length_filter, places, List.countP_map]
  rfl

/-- There are as many slots as stored results and computations. -/
theorem length_index (occupied : map.Occupied phases) (inward : Cache.Sound.Inward phases) :
    map.index.length = map.stored + (phases.filterMap Phase.computed?).length := by
  have computed : (phases.filterMap Phase.computed?).length = phases.length := by
    rw [List.length_filterMap_eq_countP, List.countP_eq_length]
    intro phase member
    obtain ⟨key, place, rfl⟩ := inward phase member
    rfl
  rw [computed, ← occupied.countP_empty inward, stored,
    List.length_eq_countP_add_countP fun entry => (map.slot entry.2).content.isSome]
  simp only [Bool.not_eq_true, Option.isSome_eq_false_iff, Bool.decide_eq_true]

end SlotMap.Occupied

/-! ## Programs of a single thread -/

namespace System

variable {system : System} {number : Nat} {cache : Cache} {map : SlotMap} {frames : List Frame}

/-- A thread that is alone is at no stage of an application, inside of these frames, or is at no
task. -/
def Between (system : System) (frames : List Frame) : Prop :=
  (∃ focus, system.At 0 ⟨focus, frames⟩ ∧ ∀ number key stage, focus ≠ .applying number key stage) ∨
    frames = [] ∧ ∀ worker ∈ system.workers, worker.current = none

/-- At a moment between applications a thread has the phases of its computations, and may be counting
results beside. -/
theorem Between.phases (between : system.Between frames) (alone : system.workers.length ≤ 1)
    (number : Nat) :
    (∃ head, system.phases number = [head ++ Frame.phases number frames] ∧
        ∀ phase ∈ head, ∃ progress, phase = .counting progress) ∨
      frames = [] ∧ ∀ phases ∈ system.phases number, phases = [] := by
  rcases between with ⟨focus, at', apart⟩ | ⟨rfl, idle⟩
  · left
    rw [(at'.phases_eq alone number).2]
    cases focus with
    | run computation => exact ⟨[], rfl, by simp⟩
    | answer outcome => exact ⟨[], rfl, by simp⟩
    | applying cache key stage => exact (apart cache key stage rfl).elim
    | counting cache progress =>
        rw [Activity.phases_counting]
        split
        · exact ⟨[.counting progress], rfl, by simp⟩
        · exact ⟨[], rfl, by simp⟩
  · refine .inr ⟨rfl, fun phases member => ?_⟩
    obtain ⟨worker, present, rfl⟩ := List.mem_map.mp member
    simp [Worker.phases, idle worker present]

/-- At every moment between applications each slot holds a result or belongs to one computation. -/
theorem Between.occupied (between : system.Between frames) (reached : system.Reached 1)
    (found : system.world.caches[number]? = some cache) (storage : cache.storage = .slots map) :
    map.Occupied (Frame.phases number frames) := by
  have sound := reached.sound.present found
  have tended : cache.Tended (system.phases number) := fun map' same => by
    obtain rfl : map = map' := by simpa [storage] using same
    exact tended_of_apart (reached.apart number) found storage
  rcases between.phases reached.length_le number with ⟨head, phases, counting⟩ | ⟨rfl, idle⟩
  · rw [phases] at sound tended
    refine sound.occupied storage (tended map storage) (fun phase member => ?_)
      (Frame.inward_phases number frames)
    obtain ⟨progress, rfl⟩ := counting phase member
    exact ⟨rfl, rfl⟩
  · -- No thread need be there at all, so the phases are replaced by those of one that does nothing.
    have idle' : ∀ phases ∈ ([[] ++ []] : List (List Phase)), phases = [] := by simp
    exact (sound.restart idle idle').occupied storage
      (Cache.tended_invariant.restart sound tended idle idle' map storage) (by simp)
      (Frame.inward_phases number [])

/-- In a program of a single thread, at every moment at which it is at no stage of an application, for
a cache with a lock for each argument: no two arguments in the map are equal, and these are the
arguments for which a result is stored and those which the thread computes. The slot of a stored
result holds it, and nobody owns or holds that slot. The slot of an argument that is computed is the
one at which its computation is; it is empty, the thread owns it, and the argument is computed once.
So there are as many slots as stored results and computations. -/
theorem slots_stored_or_computed (reached : system.Reached 1) (between : system.Between frames)
    (found : system.world.caches[number]? = some cache) (storage : cache.storage = .slots map) :
    (map.index.Pairwise fun entry other => ¬entry.1.same other.1 = true) ∧
    (∀ key, (map.find? key).isSome = true ↔ (cache.storage.stored? key).isSome = true ∨
      ∃ other ∈ Frame.keys number frames, other.same key = true) ∧
    (∀ key result, cache.storage.stored? key = some result → ∃ place,
      map.find? key = some place ∧ (map.slot place).content = some result ∧
        (map.slot place).latch = {}) ∧
    (∀ key place, .computing number key place ∈ frames →
      map.find? key = some place ∧ (map.slot place).content = none ∧
        (map.slot place).latch.owner = some 0 ∧
        (Frame.keys number frames).countP (·.same key) = 1) ∧
    map.index.length = cache.storage.size + (Frame.keys number frames).length := by
  have occupied := between.occupied reached found storage
  have inward := Frame.inward_phases number frames
  refine ⟨occupied.distinct, fun key => ?_, fun key result stored => ?_, fun key place inside => ?_,
    ?_⟩
  · rw [storage]
    exact occupied.isSome_find?_iff key
  · rw [storage] at stored
    obtain ⟨place, reaches, content⟩ := Option.bind_eq_some_iff.mp stored
    exact ⟨place, reaches, content, occupied.latch_of_filled inward content⟩
  · have member : Phase.computing key place ∈ Frame.phases number frames :=
      Frame.mem_phases.mpr ⟨key, place, rfl, inside⟩
    exact ⟨occupied.mapped member, occupied.empty member,
      by rw [occupied.latch_of_computing member], occupied.countP_computed inward member⟩
  · rw [storage]
    exact occupied.length_index inward

/-- A thread that applies the identity to a second argument, while it computes that: the result of the
first argument is stored, and the second has an empty slot. -/
theorem slots_stored_or_computed_identity :
    ∃ system map,
      (callers .perKey Code.identity [[.int 1, .int 2]]).follow (List.replicate 24 0) = some system ∧
      system.Between [.computing 0 (.int 2) 1] ∧
      system.world.caches[0]? = some ⟨.plain 0 Code.identity, .all, .slots map⟩ ∧
      map.find? (.int 2) = some 1 ∧ (map.slot 1).content = none ∧
      (map.slot 1).latch.owner = some 0 ∧ map.index.length = map.stored + 1 := by
  have followed : ∃ system map,
      (callers .perKey Code.identity [[.int 1, .int 2]]).follow (List.replicate 24 0) =
        some system ∧
      system.At 0 ⟨.answer (.ok (.value (.int 2))), [.computing 0 (.int 2) 1]⟩ ∧
      system.world.caches[0]? = some ⟨.plain 0 Code.identity, .all, .slots map⟩ :=
    ⟨_, _, rfl, ⟨_, rfl, rfl⟩, rfl⟩
  obtain ⟨system, map, followed, at', found⟩ := followed
  have reached : system.Reached 1 :=
    (reached_callers .perKey Code.identity [[.int 1, .int 2]]).trans (Reaches.of_follow followed)
  have between : system.Between [.computing 0 (.int 2) 1] := .inl ⟨_, at', by simp⟩
  obtain ⟨-, -, -, computed, length⟩ := slots_stored_or_computed reached between found rfl
  obtain ⟨mapped, empty, owner, -⟩ := computed (.int 2) 1 List.mem_cons_self
  exact ⟨system, map, followed, between, found, mapped, empty, owner, length⟩

end System

end FunctionValues
