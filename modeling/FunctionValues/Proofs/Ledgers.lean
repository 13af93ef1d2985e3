import FunctionValues.Proofs.Followings
import FunctionValues.Proofs.Reachability
import Mathlib.Algebra.BigOperators.Group.Finset.Piecewise

/-!
# Ledgers of threads

The accounts of a memoized function while any number of threads run pure code: the log is what the
threads did, what the runs of the function did, and the stored results that were found. A step of any
thread keeps the ledger, whichever thread it is. When all threads are done every task has come to the
end of its course.
-/

namespace FunctionValues

open scoped Classical

namespace Setting

variable (setting : Setting)

/-- Computations ended one after another, each by its course, with these deeds. -/
inductive Ended : List Computation → List Outcome → Multiset Deed → Prop
  | nil : Ended [] [] 0
  | snoc {computations : List Computation} {computation : Computation} {outcomes : List Outcome}
      {outcome : Outcome} {books deeds : Multiset Deed} (before : Ended computations outcomes books)
      (leads : setting.Leads false ⟨.run computation.anonymous, []⟩ deeds
        ⟨.answer outcome.anonymous, []⟩) :
      Ended (computations ++ [computation]) (outcomes ++ [outcome]) (books + deeds)

/-- A thread has ended some of its computations and is on the course of the next, if it began it. -/
inductive Tracks (computations : List Computation) : Worker → Multiset Deed → Prop
  | idle {before pending : List Computation} {outcomes : List Outcome} {books : Multiset Deed}
      (split : computations = before ++ pending) (ended : setting.Ended before outcomes books) :
      Tracks computations ⟨none, pending.map .run, outcomes⟩ books
  | busy {before pending : List Computation} {computation : Computation} {outcomes : List Outcome}
      {books deeds : Multiset Deed} {activity : Activity}
      (split : computations = before ++ computation :: pending)
      (ended : setting.Ended before outcomes books)
      (follows : setting.Follows computation activity deeds) :
      Tracks computations ⟨some activity, pending.map .run, outcomes⟩ (books + deeds)

/-- The runs of the function that ended, and the stored results that were found. -/
structure Tally where
  runs : Multiset Value
  hits : Multiset Value

/-- Runs are for arguments that nothing was stored for at the beginning, and a result that is to be
kept was computed once. A stored result was found only where there was one. -/
structure Tally.Fits (tally : Tally) : Prop where
  hits : ∀ key ∈ tally.hits, (setting.held? key).isSome = true ∨
    key ∈ tally.runs ∧ ∃ result, setting.Keeps key result
  runs : ∀ key ∈ tally.runs, key.isExact = true ∧ setting.held? key = none ∧
    ∃ outcome deeds, setting.Yields key outcome deeds
  once : ∀ key result, setting.Keeps key result → tally.runs.count key ≤ 1

/-- The accounts of a system whose threads run these computations, where the log held these entries at
the beginning. -/
structure Ledger (tasks : List (List Computation)) (earlier : List Entry) (tally : Tally)
    (books : Thread → Multiset Deed) (system : System) : Prop where
  serves : ∃ storage, setting.Serves system.world storage ∧ setting.Holds tally.runs storage
  size : system.workers.length = tasks.length
  tracks {thread : Thread} {worker : Worker} (present : system.workers[thread]? = some worker) :
    ∃ computations, tasks[thread]? = some computations ∧
      setting.Tracks computations worker (books thread)
  balance : ∃ entries, system.world.log = entries ++ earlier ∧
    Deed.ofLog entries + (tally.hits + tally.runs).map .applied =
      ∑ thread ∈ Finset.range tasks.length, books thread + (tally.runs.map setting.tale).sum +
        tally.hits.map setting.found
  fits : tally.Fits setting

variable {setting} {less : Value → Value → Prop}

/-- The courses of computations determine how they end. -/
theorem Ended.unique {computations : List Computation} {outcomes outcomes' : List Outcome}
    {books books' : Multiset Deed} (first : setting.Ended computations outcomes books)
    (second : setting.Ended computations outcomes' books') :
    outcomes.map Outcome.anonymous = outcomes'.map Outcome.anonymous ∧ books = books' := by
  induction first generalizing outcomes' books' with
  | nil =>
      generalize none : ([] : List Computation) = computations at second
      cases second with
      | nil => exact ⟨rfl, rfl⟩
      | snoc before leads => simp at none
  | @snoc computations computation outcomes outcome books deeds before leads induction =>
      generalize all : computations ++ [computation] = whole at second
      cases second with
      | nil => simp at all
      | snoc before' leads' =>
          obtain ⟨rfl, last⟩ := List.append_inj' all rfl
          cases last
          obtain ⟨same, rfl⟩ := induction before'
          obtain ⟨rfl, same'⟩ := leads.unique leads'
          simp [same, same']

section Step

variable {computations : List Computation} {worker next : Worker} {books : Multiset Deed}
  {world after : World} {storage : Storage} {runs : Multiset Value} {thread : Thread}

/-- A step of a thread keeps the accounts. -/
theorem Tracks.of_next (tracks : setting.Tracks computations worker books) (pure : setting.IsPure)
    (given : ∀ computation ∈ computations, computation.IsPure setting.number setting.names)
    (founded : WellFounded less) (descends : setting.Descends less)
    (serves : setting.Serves world storage) (holds : setting.Holds runs storage)
    {threads : List (List Phase)} {marks : List Mark}
    (sound : Cache.Sound { setting.cache with storage := storage } threads marks)
    (present : threads[thread]? = some (worker.phases setting.number))
    (stepped : worker.next thread world = some (after, next)) :
    ∃ storage' entries books' ran hits, setting.Serves after storage' ∧
      after.log = entries ++ world.log ∧ setting.Tracks computations next books' ∧
      setting.Posts runs storage storage' entries books books' ran hits := by
  cases tracks with
  | @idle before pending outcomes books split ended =>
      cases pending with
      | nil => cases stepped
      | cons computation pending =>
          cases stepped
          have begun : setting.Follows computation ⟨.run computation, [] ++ []⟩ (0 + 0) :=
            .level ⟨.run computation, []⟩ .task (.refl _)
          exact ⟨storage, [], _, 0, 0, serves, rfl, .busy split ended begun, .quiet holds (by simp)⟩
  | @busy before pending computation outcomes books deeds activity split ended follows =>
      have pure' := given computation (by simp [split])
      simp only [Worker.next] at stepped
      split at stepped
      next world' activity' moved =>
        cases stepped
        obtain ⟨storage', entries, deeds', ran, hits, serves', log, follows', posts⟩ :=
          follows.of_next pure pure' founded descends serves holds sound present moved
        exact ⟨storage', entries, _, ran, hits, serves', log, .busy split ended follows',
          posts.add_left books⟩
      · cases stepped
      next outcome done =>
        cases stepped
        rw [Activity.eq_answer_of_next_done done] at follows
        have ended' := Ended.snoc ended follows.of_done
        exact ⟨storage, [], _, 0, 0, serves, rfl, .idle (by simp [split]) ended',
          .quiet holds (by simp)⟩

end Step

/-- Runs that ended and stored results that were found are added to the tally. -/
theorem Tally.Fits.of_posts {tally : Tally} {storage after : Storage} {entries : List Entry}
    {books books' : Multiset Deed} {ran hits : Multiset Value} (fits : tally.Fits setting)
    (holds : setting.Holds tally.runs storage)
    (posts : setting.Posts tally.runs storage after entries books books' ran hits) :
    Tally.Fits setting ⟨ran + tally.runs, hits + tally.hits⟩ where
  hits key member := by
    rcases Multiset.mem_add.mp member with new | old
    · obtain ⟨result, stored⟩ := posts.seen key new
      have known := holds.stored key result.anonymous
      rw [stored, Option.map_some, eq_self, true_iff] at known
      rcases known with held | ⟨ran', kept⟩
      · exact .inl (by rw [held]; rfl)
      · exact .inr ⟨Multiset.mem_add.mpr (.inr ran'), _, kept⟩
    · exact (fits.hits key old).imp_right fun ⟨ran', kept⟩ =>
        ⟨Multiset.mem_add.mpr (.inr ran'), kept⟩
  runs key member := by
    rcases Multiset.mem_add.mp member with new | old
    · obtain ⟨exact', missing, yields⟩ := posts.computed key new
      exact ⟨exact', holds.held_of_stored missing, yields⟩
    · exact fits.runs key old
  once key result keeps := by
    rw [Multiset.count_add]
    by_cases new : key ∈ ran
    · -- What is to be kept was not computed before, else it would have been found.
      have unknown : key ∉ tally.runs := by
        intro old
        have stored := (holds.stored key result).mpr (.inr ⟨old, keeps⟩)
        rw [(posts.computed key new).2.1] at stored
        cases stored
      rw [Multiset.count_eq_zero_of_notMem unknown, Nat.add_zero]
      exact Multiset.nodup_iff_count_le_one.mp posts.nodup key
    · rw [Multiset.count_eq_zero_of_notMem new, Nat.zero_add]
      exact fits.once key result keeps

namespace Ledger

variable {tasks : List (List Computation)} {earlier : List Entry} {tally : Tally}
  {books : Thread → Multiset Deed} {system after : System} {thread : Thread}

/-- The ledger of threads that have not begun. -/
theorem start {world : World} {names : Set String} {number : Nat} {cache : Cache}
    (found : world.caches[number]? = some cache) (tasks : List (List Computation)) :
    Ledger ⟨world.functions, names, number, cache⟩ tasks world.log ⟨0, 0⟩ (fun _ => 0)
      (.ofTasks world (tasks.map (·.map .run))) where
  serves := ⟨cache.storage, ⟨rfl, found⟩, rfl, fun key result => by simp [held?]⟩
  size := by simp [System.ofTasks]
  tracks {thread worker} present := by
    simp only [System.ofTasks, List.map_map, List.getElem?_map, Option.map_eq_some_iff] at present
    obtain ⟨computations, member, rfl⟩ := present
    exact ⟨computations, member, .idle (List.nil_append _).symm .nil⟩
  balance := ⟨[], rfl, by simp⟩
  fits := ⟨by simp, by simp, by simp⟩

/-- A step of any thread keeps the ledger. -/
theorem of_step (ledger : setting.Ledger tasks earlier tally books system) (pure : setting.IsPure)
    (given : ∀ computations ∈ tasks, ∀ computation ∈ computations,
      computation.IsPure setting.number setting.names)
    (founded : WellFounded less) (descends : setting.Descends less) (sound : system.Sound)
    (stepped : system.step thread = some after) :
    ∃ tally' books', setting.Ledger tasks earlier tally' books' after := by
  obtain ⟨worker, next, world, present, moved, rfl⟩ := System.step_eq_some stepped
  obtain ⟨storage, serves, holds⟩ := ledger.serves
  obtain ⟨computations, mine, tracks⟩ := ledger.tracks present
  obtain ⟨storage', added, book, ran, hits, serves', log, tracks', posts⟩ :=
    tracks.of_next pure (given computations (List.mem_of_getElem? mine)) founded descends serves
      holds (sound.present serves.found) (by simp [System.phases, present]) moved
  obtain ⟨entries, grown, balance⟩ := ledger.balance
  have inside : thread ∈ Finset.range tasks.length :=
    Finset.mem_range.mpr (List.getElem?_eq_some_iff.mp mine).1
  refine ⟨⟨ran + tally.runs, hits + tally.hits⟩, Function.update books thread book,
    ⟨storage', serves', posts.holds⟩, by simpa using ledger.size, ?_, ?_,
    ledger.fits.of_posts holds posts⟩
  · intro other worker' present'
    by_cases here : other = thread
    · subst here
      have bounded := (List.getElem?_eq_some_iff.mp present).1
      rw [List.getElem?_set_self bounded, Option.some.injEq] at present'
      subst present'
      exact ⟨computations, mine, by rwa [Function.update_self]⟩
    · rw [List.getElem?_set_ne (Ne.symm here)] at present'
      rw [Function.update_of_ne here]
      exact ledger.tracks present'
  · refine ⟨added ++ entries, by rw [log, grown, List.append_assoc], ?_⟩
    -- The books of the others stay as they are.
    have mine' := Finset.add_sum_erase _ books inside
    have others := Finset.sum_update_of_mem inside books book
    rw [← Finset.erase_eq] at others
    have step := posts.balance
    simp only [Deed.ofLog_append, Multiset.map_add, Multiset.sum_add, others] at step balance ⊢
    rw [← mine'] at balance
    refine add_right_cancel (b := books thread) ?_
    calc _ = (Deed.ofLog added + (hits.map .applied + ran.map .applied) + books thread) +
          (Deed.ofLog entries + (tally.hits.map .applied + tally.runs.map .applied)) := by abel
      _ = _ := by rw [step, balance]; abel

end Ledger

/-- Threads keep the ledger in whatever order they make steps. -/
theorem Ledger.of_follow {tasks : List (List Computation)} {earlier : List Entry}
    {tally : Tally} {books : Thread → Multiset Deed} {system after : System}
    {threads : List Thread} (ledger : setting.Ledger tasks earlier tally books system)
    (pure : setting.IsPure)
    (given : ∀ computations ∈ tasks, ∀ computation ∈ computations,
      computation.IsPure setting.number setting.names)
    (founded : WellFounded less) (descends : setting.Descends less) (sound : system.Sound)
    (followed : system.follow threads = some after) :
    ∃ tally' books', setting.Ledger tasks earlier tally' books' after := by
  induction threads generalizing system tally books with
  | nil =>
      obtain rfl : system = after := Option.some.inj followed
      exact ⟨tally, books, ledger⟩
  | cons thread threads induction =>
      simp only [System.follow, Option.bind_eq_bind, Option.bind_eq_some_iff] at followed
      obtain ⟨middle, stepped, rest⟩ := followed
      obtain ⟨tally', books', ledger'⟩ :=
        ledger.of_step pure given founded descends sound stepped
      exact induction ledger' (sound.of_step stepped) rest

end Setting

end FunctionValues
