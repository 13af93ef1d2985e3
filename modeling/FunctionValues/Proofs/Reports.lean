import FunctionValues.Proofs.Makings

/-!
# What the reports of a session show

A session of one more step has one more report. The reports together show what was logged during the
session, in order and each entry once.
-/

namespace FunctionValues

/-- The entries that a report shows; those of threads are in their answer. -/
def Report.entries (report : Report) : List Entry :=
  match report.answer with
  | .threads _ entries => entries
  | _ => report.trace

/-- Some number of threads is enough for all steps of a session. -/
theorem Step.exists_width (steps : List Step) :
    ∃ threads, 0 < threads ∧ ∀ step ∈ steps, step.width ≤ threads := by
  induction steps with
  | nil => exact ⟨1, Nat.one_pos, by simp⟩
  | cons step steps induction =>
      obtain ⟨threads, busy, few⟩ := induction
      exact ⟨max step.width threads, Nat.lt_of_lt_of_le busy (Nat.le_max_right ..),
        List.forall_mem_cons.mpr ⟨Nat.le_max_left .., fun other member =>
          Nat.le_trans (few other member) (Nat.le_max_right ..)⟩⟩

namespace World

variable {world middle after : World} {limit : Nat} {step : Step} {steps : List Step}
  {answer : Answer} {reports : List Report}

/-! ## Steps and reports -/

theorem session_concat
    (performed : world.session limit (steps ++ [step]) = .ok (reports, after)) :
    ∃ middle earlier answer, world.session limit steps = .ok (earlier, middle) ∧
      middle.perform limit step = .ok (answer, after) ∧
      reports = earlier ++ [middle.seen answer after] := by
  induction steps generalizing world reports with
  | nil =>
      simp only [List.nil_append, session, Refusal.bind_eq_ok, Prod.exists, report_eq_ok] at performed
      obtain ⟨_, _, ⟨answer, last, rfl⟩, _, _, ended, same⟩ := performed
      cases ended
      cases same
      exact ⟨world, [], answer, rfl, last, rfl⟩
  | cons first steps induction =>
      simp only [List.cons_append, session, Refusal.bind_eq_ok, Prod.exists] at performed ⊢
      obtain ⟨report, next, reported, rest, _, onward, ended⟩ := performed
      cases ended
      obtain ⟨middle, earlier, answer, before, last, rfl⟩ := induction onward
      exact ⟨middle, report :: earlier, answer, ⟨report, next, reported, earlier, middle, before,
        rfl⟩, last, rfl⟩

theorem length_of_session (performed : world.session limit steps = .ok (reports, after)) :
    reports.length = steps.length := by
  induction steps generalizing world reports with
  | nil =>
      cases performed
      rfl
  | cons step steps induction =>
      simp only [session, Refusal.bind_eq_ok, Prod.exists] at performed
      obtain ⟨report, middle, -, rest, _, onward, ended⟩ := performed
      cases ended
      simp [induction onward]

/-! ## Entries -/

theorem entriesSince_of_log {added : List Entry} (log : after.log = added ++ world.log) :
    after.entriesSince world = (added.filter (·.isShown)).reverse := by
  simp [entriesSince, log]

theorem entriesSince_trans (first : world.log <:+ middle.log) (second : middle.log <:+ after.log) :
    after.entriesSince world = middle.entriesSince world ++ after.entriesSince middle := by
  obtain ⟨earlier, log⟩ := first
  obtain ⟨later, log'⟩ := second
  have log'' : after.log = (later ++ earlier) ++ world.log := by
    rw [← log', ← log, List.append_assoc]
  rw [entriesSince_of_log log.symm, entriesSince_of_log log'.symm, entriesSince_of_log log'']
  simp

theorem log_of_perform (performed : world.perform limit step = .ok (answer, after)) :
    world.log <:+ after.log :=
  System.Reaches.log (reaches_of_perform (Nat.le_refl _) performed)

theorem log_of_session (performed : world.session limit steps = .ok (reports, after)) :
    world.log <:+ after.log := by
  obtain ⟨threads, -, few⟩ := Step.exists_width steps
  exact System.Reaches.log (reaches_of_session few performed)

/-- Only a step that lets threads run is answered with their entries, which are what was logged. -/
theorem entries_of_perform {replies : List (List Reply)} {entries : List Entry}
    (performed : world.perform limit step = .ok (.threads replies entries, after)) :
    entries = after.entriesSince world := by
  cases step with
  | threads source arguments =>
      simp only [perform, Refusal.bind_eq_ok, Prod.exists] at performed
      obtain ⟨_, _, -, answered⟩ := performed
      cases answered
      rfl
  | define target definition | identity target | constant target kind value => cases performed
  | derive target source transformation times =>
      obtain ⟨_, _, _, -, -, made, -⟩ := repeated_of_derive performed
      cases made
  | andThen target source later | compose target source before =>
      simp only [perform, Refusal.bind_eq_ok] at performed
      obtain ⟨_, -, derived⟩ := performed
      obtain ⟨_, _, _, -, -, made, -⟩ := repeated_of_derive derived
      cases made
  | tryAndThen target source later =>
      cases later <;> simp only [perform, Refusal.bind_eq_ok] at performed <;>
        obtain ⟨_, -, answered⟩ := performed
      · split at answered <;> cases answered
      · obtain ⟨_, _, _, -, -, made, -⟩ := repeated_of_derive answered
        cases made
  | apply source arguments target =>
      have single : (Step.apply source arguments target).width ≤ 1 := Nat.le_refl 1
      cases performs_of_perform single performed with
      | rest still performed => cases still
  | map source arguments =>
      simp only [perform, Refusal.bind_eq_ok, Prod.exists] at performed
      obtain ⟨_, _, -, answered⟩ := performed
      cases answered
  | describe source =>
      simp only [perform, Refusal.bind_eq_ok] at performed
      obtain ⟨_, -, answered⟩ := performed
      cases answered
  | compare left right =>
      simp only [perform, Refusal.bind_eq_ok] at performed
      obtain ⟨_, -, _, -, answered⟩ := performed
      split at answered <;> cases answered

/-- The report of a step shows what was logged during the step. -/
theorem entries_seen (performed : world.perform limit step = .ok (answer, after)) :
    (world.seen answer after).entries = after.entriesSince world := by
  cases answer with
  | threads replies entries => exact entries_of_perform performed
  | _ => rfl

/-- The reports of a session show what was logged during the session. -/
theorem entries_of_session (performed : world.session limit steps = .ok (reports, after)) :
    reports.flatMap Report.entries = after.entriesSince world := by
  induction steps generalizing world reports with
  | nil =>
      cases performed
      simp [entriesSince]
  | cons step steps induction =>
      simp only [session, Refusal.bind_eq_ok, Prod.exists, report_eq_ok] at performed
      obtain ⟨_, middle, ⟨answer, first, rfl⟩, rest, _, onward, ended⟩ := performed
      cases ended
      rw [List.flatMap_cons, entries_seen first, induction onward,
        entriesSince_trans (log_of_perform first) (log_of_session onward)]

end World

end FunctionValues
