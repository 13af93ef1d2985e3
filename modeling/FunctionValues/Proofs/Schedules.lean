import FunctionValues.Proofs.Invariants
import FunctionValues.Proofs.Sequences

/-!
# Interleavings of pure threads

Threads that run pure code come to the same end in whatever order they make steps, and so to the end
that they come to one after another.
-/

namespace FunctionValues

namespace System

variable {system after : System}

/-- To finish one after another is one order in which threads make steps. -/
theorem follow_of_finish {limit : Nat} (finished : finish limit system = some after) :
    ∃ threads, system.follow threads = some after := by
  induction limit generalizing system with
  | zero => cases finished
  | succ limit induction =>
      simp only [finish] at finished
      split at finished
      next =>
        obtain rfl : system = after := Option.some.inj finished
        exact ⟨[], rfl⟩
      next thread first =>
        simp only [Option.bind_eq_bind, Option.bind_eq_some_iff] at finished
        obtain ⟨middle, stepped, rest⟩ := finished
        obtain ⟨threads, followed⟩ := induction rest
        exact ⟨thread :: threads, by simp [follow, stepped, followed]⟩

/-- The caches are sound where no thread has begun. -/
theorem Sound.isSound {world : World} {tasks : List (List Task)}
    (sound : (ofTasks world tasks).Sound) : world.IsSound where
  present found := (sound.present found).restart (phases_ofTasks world tasks _) (List.forall_mem_nil _)
  absent missing := ⟨(sound.absent missing).1, List.forall_mem_nil _⟩

/-- Any number of threads run pure code that applies one memoized function, in any order of their
steps in which all are done. Where arguments have locks of their own, the function is applied inside of
itself only to smaller arguments. Then the threads would also be done if they ran one after another.
Every thread ends all its computations alike, the log says the same but for its order, so that the
function ran, found results, kept and gave them up and was refused as often for every argument, and
the same results are stored. -/
theorem interleaving_sequential {limit number : Nat} {world : World} {names : Set String}
    {cache : Cache} {tasks : List (List Computation)} {less : Value → Value → Prop}
    {schedule : List Thread}
    (reached : (ofTasks world (tasks.map (·.map .run))).Reached limit)
    (found : world.caches[number]? = some cache)
    (pure : Setting.IsPure ⟨world.functions, names, number, cache⟩)
    (given : ∀ computations ∈ tasks, ∀ computation ∈ computations,
      computation.IsPure number names)
    (founded : WellFounded less)
    (descends : Setting.Descends ⟨world.functions, names, number, cache⟩ less)
    (followed : (ofTasks world (tasks.map (·.map .run))).follow schedule = some after)
    (done : ∀ worker ∈ after.workers, worker.isDone = true) :
    ∃ enough last,
      (∀ limit, enough ≤ limit →
        finish limit (ofTasks world (tasks.map (·.map .run))) = some last) ∧
      after.outcomes.map (·.map Outcome.anonymous) = last.outcomes.map (·.map Outcome.anonymous) ∧
      (after.world.log.filterMap Entry.unordered?).Perm
        (last.world.log.filterMap Entry.unordered?) ∧
      ∀ key, (after.stored? number key).map Result.anonymous =
        (last.stored? number key).map Result.anonymous := by
  have sound := reached.sound
  have start : Setting.Ledger ⟨world.functions, names, number, cache⟩ tasks world.log ⟨0, 0⟩
      (fun _ => 0) (ofTasks world (tasks.map (·.map .run))) := .start found tasks
  obtain ⟨tally, books, ledger⟩ :=
    start.of_follow pure given founded descends sound followed
  have courses : ∀ computations ∈ tasks, ∀ computation ∈ computations, ∃ deeds outcome,
      Setting.Leads ⟨world.functions, names, number, cache⟩ false
        ⟨.run computation.anonymous, []⟩ deeds ⟨.answer outcome, []⟩ := by
    intro computations member
    obtain ⟨thread, mine⟩ := List.getElem?_of_mem member
    have inside := ledger.size ▸ (List.getElem?_eq_some_iff.mp mine).1
    obtain ⟨computations', mine', ended⟩ :=
      ledger.ended done (List.getElem?_eq_getElem inside)
    obtain rfl := Option.some.inj (mine.symm.trans mine')
    exact ended.exists_leads
  obtain ⟨storage, serves, holds⟩ := start.serves
  obtain ⟨enough, last, finished⟩ := Setting.exists_finish pure founded descends given courses
    sound.isSound ⟨storage, _, serves, holds⟩ (List.forall_mem_nil _)
  have same : ofTasks world (tasks.map (·.map .run)) =
      ⟨world, [] ++ tasks.map fun computations => { pending := computations.map .run }⟩ := by
    simp [ofTasks]
  rw [← same] at finished
  obtain ⟨threads, followed'⟩ := follow_of_finish finished
  obtain ⟨tally', books', ledger'⟩ := start.of_follow pure given founded descends sound followed'
  refine ⟨enough, last, fun limit large => ?_, ?_⟩
  · obtain ⟨extra, rfl⟩ := Nat.exists_eq_add_of_le large
    exact finish_mono extra finished
  · exact ledger.agree ledger' done (reaches_of_finish limit finished).2 pure founded descends

/-! ## A program -/

/-- Count down by applying the memoized function. -/
def descending : Code
  | .int number =>
    if 0 < number then .apply (.memoized 0) (.int (number - 1)) else .value (.int 0)
  | _ => .raise "no number"

/-- The height that an argument counts down from. -/
def height : Value → Nat
  | .int number => number.toNat
  | _ => 0

/-- The memoized function as it is made. -/
private def counting : Setting where
  functions := []
  names := ∅
  number := 0
  cache := ⟨.plain 0 descending, .all, .empty .perKey⟩

private theorem isPure_descending {argument : Value} (exact : argument.isExact = true) :
    (descending argument).IsPure 0 ∅ := by
  unfold descending
  split
  · split
    · exact .apply .memoized rfl
    · exact .finish rfl
  · exact .finish rfl

private theorem isPure_counting : counting.IsPure :=
  Setting.isPure_empty (fun _ known => known.elim) (.plain fun _ => isPure_descending)

private theorem no_course_of_answer {outcome : Outcome} {deeds : Multiset Deed}
    {computation : Computation} {frames : List Frame} :
    ¬counting.Leads true ⟨.answer outcome, []⟩ deeds ⟨.run computation, frames⟩ := by
  intro leads
  cases leads with
  | pace paced _ => cases paced

private theorem descends_counting : counting.Descends (InvImage (· < ·) height) := by
  intro _ key other frames deeds _ leads
  cases leads with
  | pace paced rest =>
      cases paced
      change counting.Leads true ⟨.run (descending key).anonymous, []⟩ _ _ at rest
      unfold descending at rest
      split at rest
      next number _ =>
        split at rest
        next positive =>
          cases rest with
          | refl => exact (show (number - 1).toNat < number.toNat by omega)
          | pace paced _ => cases paced
          | compute _ _ _ rest => exact (no_course_of_answer rest).elim
        next =>
          cases rest with
          | pace paced rest =>
              cases paced
              exact (no_course_of_answer rest).elim
      next =>
        cases rest with
        | pace paced rest =>
            cases paced
            exact (no_course_of_answer rest).elim

/-- A thread that is overtaken while it counts down, by one that waits for its result and then fails
on a text. -/
theorem interleaving_sequential_descending :
    ∃ after enough last,
      (callers .perKey descending [[.int 1], [.int 1, .text "one"]]).follow
          (List.replicate 5 0 ++ List.replicate 4 1 ++ List.replicate 22 0 ++
            List.replicate 24 1) = some after ∧
        after.outcomes = [[.ok (.value (.int 0))],
          [.ok (.value (.int 0)), .error (.raised (.text "no number"))]] ∧
        (∀ limit, enough ≤ limit →
          finish limit (callers .perKey descending [[.int 1], [.int 1, .text "one"]]) =
            some last) ∧
        after.outcomes.map (·.map Outcome.anonymous) = last.outcomes.map (·.map Outcome.anonymous) ∧
        (after.world.log.filterMap Entry.unordered?).Perm
          (last.world.log.filterMap Entry.unordered?) ∧
        ∀ key, (after.stored? 0 key).map Result.anonymous =
          (last.stored? 0 key).map Result.anonymous := by
  have followed : ∃ after, (callers .perKey descending [[.int 1], [.int 1, .text "one"]]).follow
      (List.replicate 5 0 ++ List.replicate 4 1 ++ List.replicate 22 0 ++
        List.replicate 24 1) = some after ∧
      after.workers.all (·.isDone) = true ∧ after.outcomes = [[.ok (.value (.int 0))],
        [.ok (.value (.int 0)), .error (.raised (.text "no number"))]] :=
    ⟨_, rfl, rfl, rfl⟩
  obtain ⟨after, followed, done, outcomes⟩ := followed
  have given : ∀ computations ∈ [[Computation.apply (.memoized 0) (.int 1)],
      [.apply (.memoized 0) (.int 1), .apply (.memoized 0) (.text "one")]],
      ∀ computation ∈ computations, computation.IsPure 0 ∅ := by
    simp only [List.forall_mem_cons]
    exact ⟨⟨.apply .memoized rfl, List.forall_mem_nil _⟩,
      ⟨.apply .memoized rfl, .apply .memoized rfl, List.forall_mem_nil _⟩, List.forall_mem_nil _⟩
  obtain ⟨enough, last, finished, agree⟩ := interleaving_sequential
    (reached_callers .perKey descending [[.int 1], [.int 1, .text "one"]]) rfl isPure_counting given
    (InvImage.wf height Nat.lt_wfRel.wf) descends_counting followed (by simpa using done)
  exact ⟨after, enough, last, followed, outcomes, finished, agree⟩

end System

end FunctionValues
