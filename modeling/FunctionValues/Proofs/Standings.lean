import FunctionValues.Proofs.Accounts

/-!
# Standings of an application

What an application of the memoized function has come to at each of its stages, and which deeds it
has left behind until then: that it was not refused, that it found no result, how its run ended, and
at last what it gives back. A stage that goes on keeps the accounts of the function, whatever other
threads do meanwhile.
-/

namespace FunctionValues

/-- The outcome that an application gives back from here on. -/
def Stage.ending? : Stage → Option Outcome
  | unlock _ outcome _ | enter _ outcome | inspect _ outcome | clear _ outcome | leave _ outcome
  | drop _ outcome => some outcome
  | _ => none

/-- An application that gives back an outcome goes on to do so, and reports no more than that it
removed a slot. -/
theorem Storage.ending?_of_go {storage after : Storage} {retention : Retention} {thread : Thread}
    {key : Value} {stage next : Stage} {event : Option Event} {outcome : Outcome}
    (ends : stage.ending? = some outcome)
    (moved : storage.advance retention thread key stage = .go after event next) :
    next.ending? = some outcome ∧ (event = none ∨ ∃ slots, event = some (.slotRemoved slots)) := by
  cases goes_of_go moved with
  | unlatched place outcome' vacant => exact ⟨by cases vacant <;> exact ends, .inl rfl⟩
  | removed => exact ⟨ends, .inr ⟨_, rfl⟩⟩
  | passed place outcome' flat cleans =>
      rcases cleans with rfl | rfl | rfl | rfl <;> exact ⟨ends, .inl rfl⟩
  | entered | unshared | shared | spared | left => exact ⟨ends, .inl rfl⟩
  | _ => cases ends

namespace Setting

variable (setting : Setting)

/-- An application of the memoized function gives back an outcome. -/
def Gives (inside : Bool) (key : Value) (outcome : Outcome) (deeds : Multiset Deed) : Prop :=
  ∀ frames, setting.Leads inside ⟨.run (.apply (.memoized setting.number) key), frames⟩ deeds
    ⟨.answer outcome, frames⟩

/-- What an application has come to at a stage, with the deeds of its run and what it gave back. -/
inductive Stands (inside : Bool) (key : Value) : Stage → Multiset Deed → Prop
  | seek : Stands inside key .seek 0
  | check (place : Nat) : Stands inside key (.check place) 0
  | lock (place : Nat) (open' : setting.refuses inside = false) : Stands inside key (.lock place) 0
  | look (place : Nat) (open' : setting.refuses inside = false) : Stands inside key (.look place) 0
  | start (place : Nat) (open' : setting.refuses inside = false)
      (missing : setting.held? key = none) :
      Stands inside key (.start place) (Deed.ofLog [setting.event key (.miss setting.policy)])
  | settle (place : Nat) {outcome : Outcome} {deeds : Multiset Deed}
      (open' : setting.refuses inside = false) (missing : setting.held? key = none)
      (yields : setting.Yields key outcome.anonymous deeds) :
      Stands inside key (.settle place outcome)
        (Deed.ofLog (setting.ending key outcome.anonymous) + deeds)
  | keep (place : Nat) {outcome : Outcome} {deeds : Multiset Deed}
      (open' : setting.refuses inside = false) (missing : setting.held? key = none)
      (yields : setting.Yields key outcome.anonymous deeds) :
      Stands inside key (.keep place outcome)
        (Deed.ofLog (setting.ending key outcome.anonymous) + deeds)
  | late {stage : Stage} {outcome : Outcome} {deeds : Multiset Deed}
      (ends : stage.ending? = some outcome)
      (gives : setting.Gives inside key outcome.anonymous deeds) : Stands inside key stage deeds

variable {setting} {inside : Bool} {key : Value} {runs : Multiset Value} {storage after : Storage}

namespace Gives

theorem of_refused (refused : setting.refuses inside = true) :
    setting.Gives inside key (.error (.reentered setting.policy))
      {.noted (setting.event key (.reentryRejected setting.policy))} := by
  intro frames
  exact .single (by simp [pace, refused, event])

theorem of_yields {outcome : Outcome} {deeds : Multiset Deed}
    (open' : setting.refuses inside = false) (missing : setting.held? key = none)
    (yields : setting.Yields key outcome deeds) :
    setting.Gives inside key outcome {.applied key} := by
  intro frames
  have leads := Leads.compute open' missing yields (.refl ⟨.answer outcome, frames⟩)
  rwa [add_zero] at leads

/-- A stored result is what the application gives back. -/
theorem of_stored (holds : setting.Holds runs storage) (open' : setting.refuses inside = false)
    {result : Result} (stored : storage.stored? key = some result) :
    setting.Gives inside key (.ok result.anonymous) {.applied key} := by
  have known := holds.stored key result.anonymous
  simp only [stored, Option.map_some, true_iff] at known
  cases held : setting.held? key with
  | some other =>
      have same := (holds.stored key other).mpr (.inl held)
      rw [stored, Option.map_some, Option.some.injEq] at same
      subst same
      exact fun frames => .single (by simp [pace, open', held])
  | none =>
      rcases known with known | ⟨-, ⟨deeds, yields⟩, -⟩
      · rw [held] at known
        cases known
      · exact of_yields open' held yields

end Gives

/-- What an application finds at a cache whose accounts are kept. -/
structure Meets (setting : Setting) (inside : Bool) (key : Value) (runs : Multiset Value)
    (storage : Storage) (thread : Thread) (stage : Stage) : Prop where
  exact : key.isExact = true
  holds : setting.Holds runs storage
  sound : ∃ threads marks rest, Cache.Sound { setting.cache with storage := storage } threads marks ∧
    threads[thread]? = some (.applying key stage :: rest) ∧ Cache.Sound.Inward rest ∧
    setting.policy.blocks (rest.filterMap Phase.computed?) key = setting.refuses inside

namespace Meets

variable {thread : Thread} {stage next : Stage} {event : Option Event}

theorem agrees (meets : setting.Meets inside key runs storage thread stage)
    (moved : storage.advance setting.cache.retention thread key stage = .go after event next)
    (other : ∀ place outcome, stage ≠ .keep place outcome) : setting.Holds runs after := by
  obtain ⟨threads, marks, rest, sound, present, -, -⟩ := meets.sound
  have member : Phase.applying key stage ∈ threads.getD thread [] := by simp [present]
  exact meets.holds.of_agrees (sound.agrees_of_go member other moved) (Storage.policy_of_go moved)

/-- The latch of a place is owned by a thread that is inside of the function, and may not enter. -/
theorem owner_iff {place : Nat} (meets : setting.Meets inside key runs storage thread (.check place)) :
    (storage.latch place).owner = some thread ↔ setting.refuses inside = true := by
  obtain ⟨threads, marks, rest, sound, present, inward, blocks⟩ := meets.sound
  rw [← blocks, ← meets.holds.policy]
  exact sound.owner_iff present inward

theorem find?_eq {place : Nat} (meets : setting.Meets inside key runs storage thread (.look place)) :
    storage.find? place key = storage.stored? key := by
  obtain ⟨threads, marks, rest, sound, present, -, -⟩ := meets.sound
  have member : Phase.applying key (.look place) ∈ threads.getD thread [] := by simp [present]
  exact sound.find?_eq_stored? member rfl

theorem missing {place : Nat} {outcome : Outcome}
    (meets : setting.Meets inside key runs storage thread (.keep place outcome)) :
    storage.stored? key = none := by
  obtain ⟨threads, marks, rest, sound, present, -, -⟩ := meets.sound
  have member : Phase.applying key (.keep place outcome) ∈ threads.getD thread [] := by
    simp [present]
  exact (sound.find?_eq_stored? member rfl).symm.trans (sound.guarded.missing member rfl)

theorem stored?_insert {place : Nat} {outcome : Outcome}
    (meets : setting.Meets inside key runs storage thread (.keep place outcome)) (result : Result)
    (other : Value) : (storage.insert place key result).stored? other =
      if key.same other then some result else storage.stored? other := by
  obtain ⟨threads, marks, rest, sound, present, -, -⟩ := meets.sound
  have member : Phase.applying key (.keep place outcome) ∈ threads.getD thread [] := by
    simp [present]
  exact sound.stored?_insert member rfl other

end Meets

namespace Stands

variable {thread : Thread} {stage next : Stage} {deeds : Multiset Deed} {event : Option Event}

/-- An application that is done with its run keeps the result, if it is to be kept. -/
private theorem of_keep {place : Nat} {outcome : Outcome}
    (meets : setting.Meets inside key runs storage thread (.keep place outcome))
    (open' : setting.refuses inside = false) (missing : setting.held? key = none)
    (yields : setting.Yields key outcome.anonymous deeds)
    (moved : storage.keep setting.cache.retention key place outcome = .go after event next) :
    setting.Stands inside key next {.applied key} ∧
      setting.Posts runs storage after (event.toList.map (setting.event key))
        (Deed.ofLog (setting.ending key outcome.anonymous) + deeds) {.applied key} {key} 0 := by
  have gives := Gives.of_yields open' missing yields
  -- Where nothing is kept, no other run for the argument ended with a result to be kept.
  have vain : (∀ result, outcome.anonymous = .ok result →
      setting.cache.retention.keeps result = false) → setting.Holds (key ::ₘ runs) storage := by
    refine fun unkept => meets.holds.of_vain ?_
    rintro result ⟨⟨deeds', yields'⟩, keeps⟩
    rw [unkept result (yields.unique yields').2] at keeps
    cases keeps
  rcases outcome with failure | result
  · cases moved
    have unkept := vain fun result same => by cases same
    exact ⟨.late rfl gives, .run unkept meets.exact meets.missing yields rfl⟩
  · simp only [Storage.keep] at moved
    split at moved
    next keeps =>
      cases moved
      refine ⟨.late rfl gives, .run ?_ meets.exact meets.missing yields ?_⟩
      · exact meets.holds.of_kept meets.exact meets.missing ⟨⟨_, yields⟩, by simpa using keeps⟩
          (Storage.policy_insert ..) (meets.stored?_insert result)
      · simp [verdict, Outcome.anonymous, Except.map, keeps, Setting.event, Deed.ofLog,
          Entry.unordered?]
    next unkept =>
      cases moved
      refine ⟨.late rfl gives, .run (vain ?_) meets.exact meets.missing yields ?_⟩
      · rintro result' same
        cases same
        simpa using unkept
      · simp [verdict, Outcome.anonymous, Except.map, unkept]

/-- An application that goes on to another stage keeps the accounts. -/
theorem of_go (stands : setting.Stands inside key stage deeds)
    (meets : setting.Meets inside key runs storage thread stage)
    (moved : storage.advance setting.cache.retention thread key stage = .go after event next) :
    ∃ deeds' ran hits, setting.Stands inside key next deeds' ∧
      setting.Posts runs storage after (event.toList.map (setting.event key)) deeds deeds' ran
        hits := by
  have holds := meets.agrees moved
  cases stands with
  | seek =>
      obtain ⟨place, rfl, rfl⟩ : ∃ place, event = none ∧ next = .check place := by
        cases storage <;> simp only [Storage.advance, Storage.seek] at moved
        · cases moved
          exact ⟨0, rfl, rfl⟩
        · split at moved <;> cases moved
          exact ⟨_, rfl, rfl⟩
      exact ⟨_, _, _, .check place, .quiet (holds (by simp)) (by simp)⟩
  | check place =>
      simp only [Storage.advance, Storage.check, meets.owner_iff] at moved
      split at moved
      next refused =>
        cases moved
        rw [meets.holds.policy] at *
        exact ⟨_, _, _, .late rfl (Gives.of_refused refused), .quiet (holds (by simp)) (by
          simp [Deed.ofLog, Setting.event, Entry.unordered?])⟩
      next open' =>
        cases moved
        exact ⟨_, _, _, .lock place (by simpa using open'), .quiet (holds (by simp)) (by simp)⟩
  | lock place open' =>
      simp only [Storage.advance, Storage.lock] at moved
      split at moved <;> cases moved
      exact ⟨_, _, _, .look place open', .quiet (holds (by simp)) (by simp)⟩
  | look place open' =>
      simp only [Storage.advance, Storage.look, meets.find?_eq] at moved
      split at moved
      next result stored =>
        cases moved
        rw [meets.holds.policy]
        exact ⟨_, _, _, .late rfl (Gives.of_stored meets.holds open' stored),
          .hit meets.holds stored⟩
      next missing =>
        cases moved
        rw [meets.holds.policy]
        exact ⟨_, _, _, .start place open' (meets.holds.held_of_stored missing),
          .quiet meets.holds (add_zero _)⟩
  | start place open' missing => cases moved
  | settle place open' missing yields =>
      cases moved
      exact ⟨_, _, _, .keep place open' missing yields, .quiet (holds (by simp)) (by simp)⟩
  | keep place open' missing yields =>
      have kept := of_keep meets open' missing yields moved
      exact ⟨_, _, _, kept.1, kept.2⟩
  | late ends gives =>
      obtain ⟨ends', reported⟩ := Storage.ending?_of_go ends moved
      refine ⟨_, _, _, .late ends' gives, .quiet (holds ?_) ?_⟩
      · rintro place outcome rfl
        cases ends
      · rcases reported with rfl | ⟨slots, rfl⟩ <;>
          simp [Deed.ofLog, Setting.event, Entry.unordered?]

/-- An application that starts a run found nothing. -/
theorem of_compute {place : Nat} (stands : setting.Stands inside key stage deeds)
    (meets : setting.Meets inside key runs storage thread stage)
    (moved : storage.advance setting.cache.retention thread key stage = .compute after place) :
    setting.refuses inside = false ∧ setting.held? key = none ∧
      deeds = Deed.ofLog [setting.event key (.miss setting.policy)] ∧ setting.Holds runs after := by
  obtain ⟨rfl, rfl⟩ := Storage.eq_start_of_compute moved
  cases stands with
  | start _ open' missing =>
      exact ⟨open', missing, rfl, meets.holds.of_agrees (.of_modifyLatch ..)
        (Storage.policy_modifyLatch ..)⟩
  | late ends gives => cases ends

/-- An application that comes back gives its outcome. -/
theorem of_finish {outcome : Outcome} (stands : setting.Stands inside key stage deeds)
    (meets : setting.Meets inside key runs storage thread stage)
    (moved : storage.advance setting.cache.retention thread key stage = .finish after outcome) :
    setting.Gives inside key outcome.anonymous deeds ∧ setting.Holds runs after := by
  obtain ⟨place, rfl, dropped⟩ := Storage.eq_drop_of_finish moved
  cases stands with
  | late ends gives =>
      cases ends
      exact ⟨gives, meets.holds.of_agrees (.of_drop dropped) (Storage.alike_of_drop dropped).policy⟩

end Stands

end Setting

end FunctionValues
