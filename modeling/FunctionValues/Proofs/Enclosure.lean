import FunctionValues.Proofs.Runs
import FunctionValues.Proofs.WriteOnce

/-!
# Runs inside of other runs

A thread runs the same inside of further frames, up to the outcome that it hands to the first of
them. So what a computation comes to on its own is what it comes to wherever it runs, and a run that
goes on past a computation has come to the end of it first. A computation comes to one end only.
-/

namespace FunctionValues

namespace Activity

/-- What a thread does, with further frames around it. -/
def within (outer : List Frame) (activity : Activity) : Activity :=
  { activity with frames := activity.frames ++ outer }

@[simp]
theorem frames_within (outer : List Frame) (activity : Activity) :
    (activity.within outer).frames = activity.frames ++ outer :=
  rfl

end Activity

/-- What a step comes to, with further frames around the thread. -/
def Progress.within (outer : List Frame) : Progress → Progress
  | step world activity => step world (activity.within outer)
  | wait => wait
  | done outcome => done outcome

theorem Computation.next_within (world : World) (frames outer : List Frame)
    (computation : Computation) :
    computation.next world (frames ++ outer) =
      ((computation.next world frames).1, (computation.next world frames).2.within outer) := by
  cases computation with
  | apply callable argument => cases callable <;> rfl
  | _ => rfl

theorem Outcome.next_within (world : World) (frames outer : List Frame) (outcome : Outcome)
    (frame : Frame) :
    outcome.next world (frames ++ outer) frame =
      ((outcome.next world frames frame).1, (outcome.next world frames frame).2.within outer) := by
  rcases outcome with failure | (value | callable) <;> cases frame <;> rfl

theorem Move.progress_within (move : Move) (world : World) (number : Nat) (underlying : Callable)
    (key : Value) (frames outer : List Frame) :
    move.progress world number underlying key (frames ++ outer) =
      (move.progress world number underlying key frames).within outer := by
  cases move <;> rfl

theorem CountMove.progress_within (move : CountMove) (world : World) (number : Nat)
    (frames outer : List Frame) :
    move.progress world number (frames ++ outer) =
      (move.progress world number frames).within outer := by
  cases move <;> rfl

namespace Activity

variable {thread : Thread} {world middle after : World} {activity next last : Activity}
  {outcome : Outcome}

/-- A thread that has not come to its end makes the same step inside of further frames. -/
theorem next_within (outer : List Frame) (going : ∀ outcome, activity ≠ ⟨.answer outcome, []⟩) :
    (activity.within outer).next thread world = (activity.next thread world).within outer := by
  obtain ⟨focus, frames⟩ := activity
  cases focus with
  | run computation =>
      simp only [within, Activity.next, Computation.next_within, Progress.within]
  | answer outcome =>
      cases frames with
      | nil => exact absurd rfl (going outcome)
      | cons frame frames =>
          simp only [within, List.cons_append, Activity.next, Outcome.next_within, Progress.within]
  | applying number key stage =>
      simp only [within, Activity.next]
      cases world.caches[number]? with
      | none => rfl
      | some cache => exact Move.progress_within ..
  | counting number progress =>
      simp only [within, Activity.next]
      cases world.caches[number]? with
      | none => rfl
      | some cache => exact CountMove.progress_within ..

theorem step_within (outer : List Frame) (stepped : activity.next thread world = .step after next) :
    (activity.within outer).next thread world = .step after (next.within outer) := by
  rw [next_within outer, stepped, Progress.within]
  rintro outcome rfl
  cases stepped

theorem proceed_within {steps : Nat} (outer : List Frame)
    (proceeded : proceed thread steps world activity = some (after, next)) :
    proceed thread steps world (activity.within outer) = some (after, next.within outer) := by
  induction steps generalizing world activity with
  | zero =>
      obtain ⟨rfl, rfl⟩ : world = after ∧ activity = next := by simpa [proceed] using proceeded
      rfl
  | succ steps induction =>
      simp only [proceed] at proceeded ⊢
      split at proceeded
      next stepped =>
        rw [step_within outer stepped]
        exact induction proceeded
      · cases proceeded
      · cases proceeded

theorem Comes.within (comes : Comes thread world activity after next) (outer : List Frame) :
    Comes thread world (activity.within outer) after (next.within outer) := by
  obtain ⟨steps, proceeded⟩ := comes
  exact ⟨steps, proceed_within outer proceeded⟩

/-- A thread inside of further frames is still there, or it has handed an outcome to the first of
them. -/
theorem Comes.of_within {outer : List Frame}
    (comes : Comes thread world (activity.within outer) after last) :
    (∃ next, Comes thread world activity after next ∧ last = next.within outer) ∨
      ∃ middle outcome, Comes thread world activity middle ⟨.answer outcome, []⟩ ∧
        Comes thread middle ⟨.answer outcome, outer⟩ after last := by
  obtain ⟨steps, proceeded⟩ := comes
  induction steps generalizing world activity with
  | zero =>
      obtain ⟨rfl, rfl⟩ : world = after ∧ activity.within outer = last := by
        simpa [proceed] using proceeded
      exact .inl ⟨activity, .refl .., rfl⟩
  | succ steps induction =>
      by_cases ended : ∃ outcome, activity = ⟨.answer outcome, []⟩
      · obtain ⟨outcome, rfl⟩ := ended
        exact .inr ⟨world, outcome, .refl .., steps + 1, proceeded⟩
      · rw [not_exists] at ended
        simp only [proceed, next_within outer ended] at proceeded
        cases progress : activity.next thread world with
        | step middle next =>
            simp only [progress, Progress.within] at proceeded
            have begun : Comes thread world activity middle next := .single progress
            rcases induction proceeded with ⟨next, comes, same⟩ | ⟨later, outcome, comes, onward⟩
            · exact .inl ⟨next, begun.trans comes, same⟩
            · exact .inr ⟨later, outcome, begun.trans comes, onward⟩
        | wait | done outcome => simp [progress, Progress.within] at proceeded

/-- A run that ends comes to its end from every point that it passes. -/
theorem Comes.onward (passed : Comes 0 world activity middle next)
    (ended : Comes 0 world activity after ⟨.answer outcome, []⟩) :
    Comes 0 middle next after ⟨.answer outcome, []⟩ := by
  obtain ⟨steps, passed⟩ := passed
  obtain ⟨more, ended⟩ := ended
  obtain ⟨rest, -, onward⟩ := proceed_of_passed passed ended
  exact ⟨rest, onward⟩

/-- A run comes to one end only. -/
theorem Comes.unique {other : World} {outcome' : Outcome}
    (first : Comes 0 world activity after ⟨.answer outcome, []⟩)
    (second : Comes 0 world activity other ⟨.answer outcome', []⟩) :
    after = other ∧ outcome = outcome' := by
  obtain ⟨steps, proceeded⟩ := first.onward second
  cases steps with
  | zero => simpa [proceed] using proceeded
  | succ steps => simp [proceed, Activity.next] at proceeded

end Activity

/-- A thread comes to the end of a computation inside of any frames. -/
theorem World.Ends.within {thread : Thread} {world after : World} {computation : Computation}
    {outcome : Outcome} (ends : world.Ends thread computation after outcome) (frames : List Frame) :
    Activity.Comes thread world ⟨.run computation, frames⟩ after ⟨.answer outcome, frames⟩ :=
  Activity.Comes.within ends frames

/-- The caches are sound at a point of a task of a single thread. -/
theorem System.At.soundAt {system : System} {activity : Activity} (at' : system.At 0 activity)
    (reached : system.Reached 1) : system.world.SoundAt activity := by
  have phases : ∀ number, system.phases number =
      System.phases ⟨system.world, [{ current := some activity }]⟩ number := fun number =>
    (at'.phases_eq reached.length_le number).2
  exact ⟨fun found => phases _ ▸ reached.sound.present found,
    fun missing => phases _ ▸ reached.sound.absent missing⟩

end FunctionValues
