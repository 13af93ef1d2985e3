import FunctionValues.Proofs.Persistence

/-!
# At most one computation at a time

Threads that apply one memoized function, in any order of their steps. A cache with one lock has at
most one computation at a time and a cache with a lock for each argument at most one for equal
arguments; once a result is stored, nothing is computed for its argument again, and every
application that looks for it comes back with it.
-/

namespace FunctionValues

namespace Storage.Guarded

variable {storage : Storage} {threads : List (List Phase)} {place : Nat}

/-- At most one phase of all threads holds the latch of a place. -/
theorem countP_flatten_le (guarded : storage.Guarded threads) (place : Nat) :
    threads.flatten.countP (Phase.latches storage.policy place) ≤ 1 := by
  have counts := fun thread => guarded.holder thread place
  generalize (storage.latch place).holder = holder at counts
  generalize Phase.latches storage.policy place = latches at counts
  clear guarded
  induction threads generalizing holder with
  | nil => simp
  | cons phases threads induction =>
      have first := counts 0
      have rest : ∀ thread, (threads.getD thread []).countP latches =
          if holder = some (thread + 1) then 1 else 0 := fun thread => counts (thread + 1)
      rw [List.getD_cons_zero] at first
      rw [List.flatten_cons, List.countP_append, first]
      cases holder with
      | none =>
          have others := induction none (by simpa using rest)
          simpa using others
      | some thread =>
          cases thread with
          | zero =>
              have none : threads.flatten.countP latches = 0 := by
                rw [List.countP_eq_zero]
                intro phase member
                obtain ⟨phases, inside, member⟩ := List.mem_flatten.mp member
                obtain ⟨thread, present⟩ := List.getElem?_of_mem inside
                have count : ∀ phase ∈ phases, latches phase = false := by
                  simpa [present, List.countP_eq_zero] using rest thread
                simp [count phase member]
              rw [none]
              simp
          | succ thread =>
              have others := induction (some thread) (by simpa using rest)
              simpa using others

/-- Of two phases only one holds a latch. -/
theorem pairwise_latches (guarded : storage.Guarded threads) :
    threads.flatten.Pairwise fun phase other => ∀ place,
      phase.latches storage.policy place = true → other.latches storage.policy place = false := by
  rw [List.pairwise_iff_forall_sublist]
  intro phase other sublist place latches
  by_contra both
  have count := Nat.le_trans (sublist.countP_le (p := Phase.latches storage.policy place))
    (guarded.countP_flatten_le place)
  simp [latches, both] at count

end Storage.Guarded

namespace Cache.Sound

variable {cache : Cache} {threads : List (List Phase)} {marks : List Mark}

/-- Equal arguments are not computed at the same time, and behind one lock no two are. -/
theorem pairwise_computed (sound : cache.Sound threads marks) :
    (threads.flatten.filterMap Phase.computed?).Pairwise fun key other =>
      cache.storage.policy ≠ .global ∧ ¬key.same other = true := by
  rw [List.pairwise_filterMap]
  refine sound.guarded.pairwise_latches.imp_of_mem ?_
  intro phase other member member' apart key computed argument computed'
  obtain ⟨place, rfl⟩ := Phase.eq_of_computed? computed
  obtain ⟨place', rfl⟩ := Phase.eq_of_computed? computed'
  have separate : cache.storage.policy.joins place place' = false := by
    simpa [Phase.latches, Phase.latched?] using apart place
  constructor
  · intro policy
    simp [policy, Policy.joins] at separate
  · intro equal
    obtain ⟨thread, inside⟩ := Phase.exists_mem_getD member
    obtain ⟨thread', inside'⟩ := Phase.exists_mem_getD member'
    have joined := sound.joins_of_same inside rfl inside' rfl equal
    rw [separate] at joined
    cases joined

end Cache.Sound

namespace System

/-- The arguments that the threads compute at a cache. -/
def computing (system : System) (number : Nat) : List Value :=
  (system.phases number).flatten.filterMap Phase.computed?

/-- An application that has found a stored result comes back with it: it is at one of its last two
stages, where it waits for nobody, or it has come back, whatever other threads do. -/
def Returns (limit : Nat) (system : System) (thread : Thread) (number : Nat) (key : Value)
    (place : Nat) (frames : List Frame) (result : Result) : Prop :=
  ∀ later, Reaches limit system later →
    ((later.At thread ⟨.applying number key (.unlock place (.ok result) false), frames⟩ ∨
        later.At thread ⟨.applying number key (.drop place (.ok result)), frames⟩) ∧
      (later.step thread).isSome = true) ∨
    ∃ middle, Reaches limit system middle ∧ Reaches limit middle later ∧
      middle.At thread ⟨.answer (.ok result), frames⟩

variable {limit : Nat} {system after : System} {thread : Thread} {number : Nat} {key : Value}
  {place : Nat} {frames : List Frame} {cache : Cache}

theorem At.mem_phases {stage : Stage} (at' : system.At thread ⟨.applying number key stage, frames⟩) :
    Phase.applying key stage ∈ (system.phases number).getD thread [] := by
  obtain ⟨worker, present, current⟩ := at'
  simp [phases, present, Worker.phases, current]

/-- A thread at a stage that leads to another comes there. -/
theorem At.go {stage next : Stage} {storage : Storage} {event : Option Event}
    (at' : system.At thread ⟨.applying number key stage, frames⟩)
    (found : system.world.caches[number]? = some cache)
    (moved : cache.storage.advance cache.retention thread key stage = .go storage event next) :
    ∃ after, system.step thread = some after ∧ after.At thread ⟨.applying number key next, frames⟩ := by
  have progress : Activity.next thread system.world ⟨.applying number key stage, frames⟩ =
      .step ((system.world.setStorage number storage).recordEvent number key event)
        ⟨.applying number key next, frames⟩ := by
    simp only [Activity.next, found, moved, Move.progress]
  obtain ⟨after, stepped, -, there⟩ := at'.eq_of_step progress
  exact ⟨after, stepped, there⟩

/-- A thread at the last stage comes back. -/
theorem At.finish {stage : Stage} {storage : Storage} {outcome : Outcome}
    (at' : system.At thread ⟨.applying number key stage, frames⟩)
    (found : system.world.caches[number]? = some cache)
    (moved : cache.storage.advance cache.retention thread key stage = .finish storage outcome) :
    ∃ after, system.step thread = some after ∧ after.At thread ⟨.answer outcome, frames⟩ := by
  have progress : Activity.next thread system.world ⟨.applying number key stage, frames⟩ =
      .step (system.world.setStorage number storage) ⟨.answer outcome, frames⟩ := by
    simp only [Activity.next, found, moved, Move.progress]
  obtain ⟨after, stepped, -, there⟩ := at'.eq_of_step progress
  exact ⟨after, stepped, there⟩

theorem At.drop {outcome : Outcome}
    (at' : system.At thread ⟨.applying number key (.drop place outcome), frames⟩)
    (found : system.world.caches[number]? = some cache) :
    ∃ after, system.step thread = some after ∧ after.At thread ⟨.answer outcome, frames⟩ := by
  cases storage : cache.storage with
  | table results => exact at'.finish found (by rw [storage]; rfl)
  | slots map => exact at'.finish found (by rw [storage]; rfl)

/-- An application that gives the latch back with a stored result comes back with it. -/
theorem returns_of_at_unlock {result : Result} (found : system.world.caches[number]? = some cache)
    (at' : system.At thread ⟨.applying number key (.unlock place (.ok result) false), frames⟩) :
    system.Returns limit thread number key place frames result := by
  intro later reaches
  induction reaches with
  | refl =>
      obtain ⟨after, stepped, -⟩ := at'.go found rfl
      exact .inl ⟨.inl at', by simp [stepped]⟩
  | @tail later next before happens induction =>
      rcases induction with ⟨under, -⟩ | ⟨middle, reaches, onward, answered⟩
      · obtain ⟨storage, present, -⟩ := Reaches.caches before found
        obtain ⟨storage', present', -⟩ := happens.caches present
        rcases under with unlocking | dropping
        · rcases unlocking.of_happens happens with stepped | still
          · obtain ⟨after, stepped', there⟩ := unlocking.go present rfl
            obtain rfl : after = next := Option.some.inj (stepped'.symm.trans stepped)
            obtain ⟨final, stepped, -⟩ := there.drop present'
            exact .inl ⟨.inr there, by simp [stepped]⟩
          · obtain ⟨final, stepped, -⟩ := still.go present' rfl
            exact .inl ⟨.inl still, by simp [stepped]⟩
        · rcases dropping.of_happens happens with stepped | still
          · obtain ⟨after, stepped', there⟩ := dropping.drop present
            obtain rfl : after = next := Option.some.inj (stepped'.symm.trans stepped)
            exact .inr ⟨after, .tail before happens, .refl, there⟩
          · obtain ⟨final, stepped, -⟩ := still.drop present'
            exact .inl ⟨.inr still, by simp [stepped]⟩
      · exact .inr ⟨middle, reaches, .tail onward happens, answered⟩

/-- A thread that looks for a stored result finds it and comes back with it. -/
theorem Stores.returns {other : Value} {result : Result} (stores : system.Stores number key result)
    (sound : system.Sound) (equal : key.same other = true)
    (at' : system.At thread ⟨.applying number other (.look place), frames⟩) :
    ∃ after, system.step thread = some after ∧
      after.Returns limit thread number other place frames result := by
  obtain ⟨cache, found, stored⟩ := stores
  have seen : cache.storage.find? place other = some result := by
    rw [(sound.present found).find?_eq_stored? at'.mem_phases rfl,
      ← cache.storage.stored?_congr equal, stored]
  have moved : cache.storage.advance cache.retention thread other (.look place) =
      .go cache.storage (some (.hit cache.storage.policy)) (.unlock place (.ok result) false) := by
    simp only [Storage.advance, Storage.look, seen]
  obtain ⟨after, stepped, there⟩ := at'.go found moved
  have happens : Happens limit system after := .step thread stepped
  obtain ⟨storage, present, -⟩ := happens.caches found
  exact ⟨after, stepped, returns_of_at_unlock present there⟩

/-- At most one thread computes in a cache with one lock, and in a cache with a lock for each
argument at most one for equal arguments. Once a result is stored it stays, no run for its argument
starts any more, and every application that looks for it comes back with it. -/
theorem at_most_once_concurrently (reached : system.Reached limit)
    (found : system.world.caches[number]? = some cache) :
    (cache.storage.policy = .global → (system.computing number).length ≤ 1) ∧
      (system.computing number).Pairwise (fun key other => ¬key.same other = true) ∧
      ∀ key result, system.Stores number key result → ∀ later, Reaches limit system later →
        later.Stores number key result ∧ system.Spares later number key ∧
          ∀ thread other place frames, key.same other = true →
            later.At thread ⟨.applying number other (.look place), frames⟩ →
            ∃ after, later.step thread = some after ∧
              after.Returns limit thread number other place frames result := by
  have sound := reached.sound
  have apart := (sound.present found).pairwise_computed
  refine ⟨fun policy => ?_, apart.imp And.right, ?_⟩
  · cases keys : system.computing number with
    | nil => exact Nat.zero_le 1
    | cons key keys' =>
        cases keys' with
        | nil => exact Nat.le_refl 1
        | cons other others =>
            rw [computing] at keys
            rw [keys] at apart
            exact absurd policy ((List.pairwise_cons.mp apart).1 other List.mem_cons_self).1
  · intro key result stores later reaches
    obtain ⟨stores', spares⟩ := stores.of_reaches sound reaches
    refine ⟨stores', spares, fun thread other place frames equal at' => ?_⟩
    exact stores'.returns (sound.of_reaches reaches) equal at'

/-- The second of two threads that apply the identity to the same argument looks for its result when
the first has stored it, and comes back with it. -/
theorem at_most_once_concurrently_identity :
    ∃ system after,
      (identities .perKey 2).follow (List.replicate 13 0 ++ List.replicate 5 1) = some system ∧
        system.step 1 = some after ∧ after.Returns 2 1 0 (.int 1) 0 [] (.value (.int 1)) := by
  have looks : (((identities .perKey 2).follow (List.replicate 13 0 ++ List.replicate 5 1)).bind
      (·.workers[1]?)).bind (·.current) = some ⟨.applying 0 (.int 1) (.look 0), []⟩ := rfl
  have stores : (((identities .perKey 2).follow (List.replicate 13 0 ++ List.replicate 5 1)).bind
      (·.world.caches[0]?)).bind (·.storage.stored? (.int 1)) = some (.value (.int 1)) := rfl
  obtain ⟨system, followed⟩ := Option.isSome_iff_exists.mp
    (show ((identities .perKey 2).follow
      (List.replicate 13 0 ++ List.replicate 5 1)).isSome = true from rfl)
  rw [followed, Option.bind_some, Option.bind_eq_some_iff] at looks stores
  obtain ⟨cache, found, stored⟩ := stores
  have reached : system.Reached 2 := (reached_identities .perKey 2).trans (Reaches.of_follow followed)
  obtain ⟨-, -, lasting⟩ := at_most_once_concurrently reached found
  obtain ⟨-, -, returns⟩ := lasting (.int 1) (.value (.int 1)) ⟨cache, found, stored⟩ system .refl
  obtain ⟨after, stepped, back⟩ := returns 1 (.int 1) 0 [] (by decide) looks
  exact ⟨system, after, followed, stepped, back⟩

end System

end FunctionValues
