import FunctionValues.Proofs.Strides

/-!
# Each result is computed once and stays

A program of a single thread. A run that ends with a result to be kept stores it, and from then on
the result stays, no run for its argument starts again, and every application to an equal argument
is refused or comes back with it, without changing anything. Two runs for equal arguments follow one
another, and the first ends with nothing to be kept.
-/

namespace FunctionValues

namespace Mark

theorem Ordered.of_append {retention : Retention} {later earlier : List Mark}
    (ordered : Ordered retention (later ++ earlier)) : Ordered retention earlier := by
  induction later with
  | nil => exact ordered
  | cons mark later induction =>
      cases mark with
      | started key => exact induction ordered.2
      | ended key outcome => exact induction ordered.2

/-- After a run was started, the last mark for its argument is the start, or the run has ended:
with nothing to be kept, or last of all. -/
private theorem last?_of_started {retention : Retention} {first key : Value}
    {between earlier : List Mark} (equal : first.same key = true)
    (ordered : Ordered retention (between ++ .started first :: earlier)) :
    last? (between ++ .started first :: earlier) key = some (.started first) ∨
      ∃ outcome, Mark.ended first outcome ∈ between ∧ (retention.retains outcome = false ∨
        last? (between ++ .started first :: earlier) key = some (.ended first outcome)) := by
  induction between with
  | nil =>
      left
      rw [List.nil_append, last?_cons]
      exact if_pos equal
  | cons mark between induction =>
      rw [List.cons_append] at ordered ⊢
      rw [last?_cons]
      by_cases about : mark.key.same key = true
      · rw [if_pos about]
        have last := last?_congr (between ++ .started first :: earlier) about
        cases mark with
        | started again =>
            rcases induction ordered.2 with started | ⟨outcome, ended, vain | final⟩
            · obtain ⟨_, _, contradiction, -⟩ := ordered.1 _ (last.trans started)
              cases contradiction
            · exact .inr ⟨outcome, List.mem_cons_of_mem _ ended, .inl vain⟩
            · obtain ⟨_, _, same, vain⟩ := ordered.1 _ (last.trans final)
              cases same
              exact .inr ⟨outcome, List.mem_cons_of_mem _ ended, .inl vain⟩
        | ended other outcome =>
            have running : last? (between ++ .started first :: earlier) key =
                some (.started other) := last.symm.trans ordered.1
            rcases induction ordered.2 with started | ⟨outcome', ended, vain | final⟩
            · rw [running] at started
              cases started
              exact .inr ⟨outcome, List.mem_cons_self, .inr rfl⟩
            · exact .inr ⟨outcome', List.mem_cons_of_mem _ ended, .inl vain⟩
            · rw [running] at final
              cases final
      · rw [if_neg about]
        have rest : Ordered retention (between ++ .started first :: earlier) := by
          cases mark with
          | started again => exact ordered.2
          | ended other outcome => exact ordered.2
        refine (induction rest).imp id ?_
        rintro ⟨outcome, ended, final⟩
        exact ⟨outcome, List.mem_cons_of_mem _ ended, final⟩

/-- Of two runs for equal arguments the first has ended, with nothing to be kept, before the second
starts. -/
theorem ended_of_ordered {retention : Retention} {first second : Value}
    {later between earlier : List Mark} (equal : first.same second = true)
    (ordered : Ordered retention
      (later ++ .started second :: (between ++ .started first :: earlier))) :
    ∃ outcome, Mark.ended first outcome ∈ between ∧ retention.retains outcome = false := by
  obtain ⟨last, rest⟩ := ordered.of_append
  rcases last?_of_started equal rest with started | ⟨outcome, ended, vain | final⟩
  · obtain ⟨_, _, contradiction, -⟩ := last _ started
    cases contradiction
  · exact ⟨outcome, ended, vain⟩
  · obtain ⟨_, _, same, vain⟩ := last _ final
    cases same
    exact ⟨outcome, ended, vain⟩

end Mark

namespace System

variable {system : System} {thread : Thread}

/-- The steps of a thread on its own are steps of the system. -/
theorem At.follow {activity next : Activity} {world : World} (at' : system.At thread activity)
    (comes : Activity.Comes thread system.world activity world next) :
    ∃ steps after, system.follow (List.replicate steps thread) = some after ∧
      after.world = world ∧ after.At thread next := by
  obtain ⟨steps, proceeded⟩ := comes
  refine ⟨steps, ?_⟩
  induction steps generalizing system activity with
  | zero =>
      obtain ⟨rfl, rfl⟩ : system.world = world ∧ activity = next := by
        simpa [Activity.proceed] using proceeded
      exact ⟨system, rfl, rfl, at'⟩
  | succ steps induction =>
      simp only [Activity.proceed] at proceeded
      split at proceeded
      next middle between stepped =>
        obtain ⟨following, moved, rfl, there⟩ := at'.eq_of_step stepped
        obtain ⟨after, followed, same, there'⟩ := induction there proceeded
        refine ⟨after, ?_, same, there'⟩
        simp [System.follow, List.replicate_succ, moved, followed]
      · cases proceeded
      · cases proceeded

/-- A single thread has all the phases. -/
theorem At.phases_eq {activity : Activity} (at' : system.At thread activity)
    (alone : system.workers.length ≤ 1) (number : Nat) :
    thread = 0 ∧ system.phases number = [activity.phases number] := by
  obtain ⟨worker, present, current⟩ := at'
  obtain ⟨world, workers⟩ := system
  match workers, alone with
  | [], _ => cases present
  | [other], _ =>
      cases thread with
      | zero =>
          obtain rfl : other = worker := by simpa using present
          exact ⟨rfl, by simp [System.phases, Worker.phases, current]⟩
      | succ thread => simp at present

/-! ## A program of a single thread -/

variable {number : Nat} {cache : Cache} {key : Value} {result : Result} {frames : List Frame}

/-- A run that ends with a result to be kept stores it, and the application comes back with it. -/
theorem At.stores_of_kept {place : Nat} (sound : system.Sound)
    (alone : system.workers.length ≤ 1) (found : system.world.caches[number]? = some cache)
    (at' : system.At 0 ⟨.answer (.ok result), .computing number key place :: frames⟩)
    (keeps : cache.retention.keeps result = true) :
    ∃ steps after, system.follow (List.replicate steps 0) = some after ∧
      after.At 0 ⟨.answer (.ok result), frames⟩ ∧ after.Stores number key result := by
  have cached := sound.present found
  rw [(at'.phases_eq alone number).2] at cached
  have computing : Activity.phases number
      ⟨.answer (.ok result), .computing number key place :: frames⟩ =
      .computing key place :: Frame.phases number frames := by
    simp [Frame.phases]
  rw [computing] at cached
  obtain ⟨storage, comes, -, -, stored⟩ := Activity.comes_of_kept frames found cached keeps
  obtain ⟨steps, after, followed, same, there⟩ := at'.follow comes
  refine ⟨steps, after, followed, there, { cache with storage := storage }, ?_,
    (stored key).trans (if_pos (Value.same_refl key))⟩
  rw [same]
  exact World.caches_amend found storage _

/-- An application to an argument that something is stored for comes back with that, unless a cache
with one lock refuses it, and changes nothing but the log. -/
theorem At.comes_back {other : Value} (sound : system.Sound) (alone : system.workers.length ≤ 1)
    (found : system.world.caches[number]? = some cache)
    (at' : system.At 0 ⟨.applying number other .seek, frames⟩)
    (stored : cache.storage.stored? other = some result) :
    ∃ steps after, system.follow (List.replicate steps 0) = some after ∧
      (after.At 0 ⟨.answer (.ok result), frames⟩ ∧ after.world =
          system.world.record (.event number (some other) (.hit cache.storage.policy)) ∨
        cache.storage.policy = .global ∧
          after.At 0 ⟨.answer (.error (.reentered .global)), frames⟩ ∧ after.world =
          system.world.record (.event number (some other) (.reentryRejected .global))) := by
  have cached := sound.present found
  rw [(at'.phases_eq alone number).2] at cached
  have applying : Activity.phases number ⟨.applying number other .seek, frames⟩ =
      .applying other .seek :: Frame.phases number frames := by
    simp
  rw [applying] at cached
  cases blocked : cache.storage.policy.blocks (Frame.keys number frames) other with
  | true =>
      have policy := cached.policy_of_blocks blocked stored
      obtain ⟨steps, after, followed, same, there⟩ :=
        at'.follow (Activity.comes_of_blocked frames found cached blocked)
      rw [policy] at same there
      exact ⟨steps, after, followed, .inr ⟨policy, there, same⟩⟩
  | false =>
      obtain ⟨steps, after, followed, same, there⟩ :=
        at'.follow (Activity.comes_of_stored frames found cached blocked stored)
      exact ⟨steps, after, followed, .inl ⟨there, same⟩⟩

/-- In a program of a single thread, whatever it makes, memoizes and applies: a run that ends with a
result to be kept stores it and comes back with it. From then on the result stays, no run for its
argument starts, and an application to an equal argument comes back with that very result, unless it
is refused by a cache with one lock, and changes nothing but the log. Of two runs for equal arguments
the first has ended, with nothing to be kept, before the second starts. -/
theorem computed_once_and_kept (reached : system.Reached 1)
    (found : system.world.caches[number]? = some cache) :
    (∀ key place frames result,
      system.At 0 ⟨.answer (.ok result), .computing number key place :: frames⟩ →
      cache.retention.keeps result = true →
      ∃ steps after, system.follow (List.replicate steps 0) = some after ∧
        after.At 0 ⟨.answer (.ok result), frames⟩ ∧ after.Stores number key result) ∧
    (∀ key result, system.Stores number key result → ∀ later, Reaches 1 system later →
      later.Stores number key result ∧ system.Spares later number key ∧
        ∀ other frames, key.same other = true →
          later.At 0 ⟨.applying number other .seek, frames⟩ →
          ∃ steps after, later.follow (List.replicate steps 0) = some after ∧
            (after.At 0 ⟨.answer (.ok result), frames⟩ ∧ after.world =
                later.world.record (.event number (some other) (.hit cache.storage.policy)) ∨
              cache.storage.policy = .global ∧
                after.At 0 ⟨.answer (.error (.reentered .global)), frames⟩ ∧ after.world =
                later.world.record (.event number (some other) (.reentryRejected .global)))) ∧
    ∀ first second later between earlier, first.same second = true →
      system.world.log = later ++ .started number second ::
        (between ++ .started number first :: earlier) →
      ∃ outcome, .ended number first outcome ∈ between ∧
        cache.retention.retains outcome = false := by
  have sound := reached.sound
  refine ⟨fun key place frames result at' keeps =>
    at'.stores_of_kept sound reached.length_le found keeps, ?_, ?_⟩
  · intro key result stores later reaches
    obtain ⟨stores', spares⟩ := stores.of_reaches sound reaches
    refine ⟨stores', spares, fun other frames equal at' => ?_⟩
    obtain ⟨storage, kept, policy⟩ := Reaches.caches reaches found
    obtain ⟨cache', found', stored⟩ := stores'
    obtain rfl : { cache with storage := storage } = cache' :=
      Option.some.inj (kept.symm.trans found')
    rw [storage.stored?_congr equal] at stored
    have back := at'.comes_back (sound.of_reaches reaches)
      (Reached.length_le (Relation.ReflTransGen.trans reached reaches)) kept stored
    rw [policy] at back
    exact back
  · intro first second later between earlier equal log
    have ordered := (sound.present found).ordered
    have marks : system.world.marks number =
        later.filterMap (Entry.mark? number) ++ .started second ::
          (between.filterMap (Entry.mark? number) ++ .started first ::
            earlier.filterMap (Entry.mark? number)) := by
      simp [World.marks, log, Entry.mark?]
    rw [marks] at ordered
    obtain ⟨outcome, ended, vain⟩ := Mark.ended_of_ordered equal ordered
    refine ⟨outcome, ?_, vain⟩
    obtain ⟨entry, member, mark⟩ := List.mem_filterMap.mp ended
    cases entry <;> simp [Entry.mark?] at mark
    obtain ⟨rfl, rfl, rfl⟩ := mark
    exact member

/-- A thread that applies a function to `A`, which fails, then to `A` again, and then to `a`. -/
def retrying : System :=
  callers .perKey faltering [[.caseless "A", .caseless "A", .caseless "a"]]

/-- The second run starts when the first has ended without a result. What it ends with is stored, and
the last application comes back with it. -/
theorem computed_once_and_kept_retrying :
    ∃ system after stored later last steps further earlier between outcome,
      retrying.follow (List.replicate 36 0) = some system ∧
      system.At 0 ⟨.answer (.ok (.value (.caseless "A"))), [.computing 0 (.caseless "A") 1]⟩ ∧
      system.follow (List.replicate steps 0) = some after ∧
      after.At 0 ⟨.answer (.ok (.value (.caseless "A"))), []⟩ ∧
      after.Stores 0 (.caseless "A") (.value (.caseless "A")) ∧
      system.world.log = .started 0 (.caseless "A") ::
        (between ++ .started 0 (.caseless "A") :: earlier) ∧
      .ended 0 (.caseless "A") outcome ∈ between ∧ Retention.all.retains outcome = false ∧
      retrying.follow (List.replicate 41 0) = some stored ∧
      stored.follow (List.replicate 3 0) = some later ∧ stored.Spares later 0 (.caseless "A") ∧
      later.At 0 ⟨.applying 0 (.caseless "a") .seek, []⟩ ∧
      later.follow (List.replicate further 0) = some last ∧
      last.At 0 ⟨.answer (.ok (.value (.caseless "A"))), []⟩ ∧
      last.world = later.world.record (.event 0 (some (.caseless "a")) (.hit .perKey)) := by
  let between : List Entry := [.event 0 (some (.caseless "A")) (.miss .perKey),
    .event 0 (some (.caseless "A")) (.slotRemoved 0),
    .ended 0 (.caseless "A") (.error (.raised (.text "no result")))]
  let earlier : List Entry := [.event 0 (some (.caseless "A")) (.miss .perKey),
    .event 0 none (.created .perKey)]
  have start : retrying.Reached 1 := reached_callers .perKey faltering [[_, _, _]]
  have second : ∃ system cache, retrying.follow (List.replicate 36 0) = some system ∧
      (system.workers[0]?).bind (·.current) =
        some ⟨.answer (.ok (.value (.caseless "A"))), [.computing 0 (.caseless "A") 1]⟩ ∧
      system.world.caches[0]? = some cache ∧ cache.retention = .all ∧
      system.world.log = .started 0 (.caseless "A") ::
        (between ++ .started 0 (.caseless "A") :: earlier) := by
    with_unfolding_all exact ⟨_, _, rfl, rfl, rfl, rfl, rfl⟩
  obtain ⟨system, cache, followed, answers, found, retention, log⟩ := second
  rw [Option.bind_eq_some_iff] at answers
  obtain ⟨kept, -, once⟩ := computed_once_and_kept (start.trans (Reaches.of_follow followed)) found
  obtain ⟨steps, after, onward, back, stores⟩ := kept _ _ [] _ answers (by rw [retention]; rfl)
  obtain ⟨outcome, ended, vain⟩ := once _ _ [] between earlier (Value.same_refl _) log
  rw [retention] at vain
  -- The last application is made when the second is over.
  have third : ∃ stored cache later, retrying.follow (List.replicate 41 0) = some stored ∧
      stored.world.caches[0]? = some cache ∧ cache.storage.policy = .perKey ∧
      cache.storage.stored? (.caseless "A") = some (.value (.caseless "A")) ∧
      stored.follow (List.replicate 3 0) = some later ∧
      (later.workers[0]?).bind (·.current) = some ⟨.applying 0 (.caseless "a") .seek, []⟩ := by
    with_unfolding_all exact ⟨_, _, _, rfl, rfl, rfl, rfl, rfl, rfl⟩
  obtain ⟨stored, cache', later, followed', found', policy, holds, idle, begun⟩ := third
  rw [Option.bind_eq_some_iff] at begun
  obtain ⟨-, lasts, -⟩ :=
    computed_once_and_kept (start.trans (Reaches.of_follow followed')) found'
  obtain ⟨-, spares, hits⟩ := lasts _ _ ⟨cache', found', holds⟩ later (Reaches.of_follow idle)
  obtain ⟨further, last, came, ⟨there, world⟩ | ⟨global, -⟩⟩ := hits _ [] (by decide +kernel) begun
  · rw [policy] at world
    exact ⟨system, after, stored, later, last, steps, further, earlier, between, outcome, followed,
      answers, onward, back, stores, log, ended, vain, followed', idle, spares, begun, came, there,
      world⟩
  · rw [policy] at global
    cases global

end System

end FunctionValues
