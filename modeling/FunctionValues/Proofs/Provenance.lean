import FunctionValues.Proofs.Invariants
import FunctionValues.Proofs.WriteOnce

/-!
# Where stored results come from

Every stored result is the result of a run that the log tells of, and every result of a run that is
to be kept is stored as soon as its application is past storing it.
-/

namespace FunctionValues

namespace Mark

/-- A run whose result is to be kept is the last for its argument. -/
theorem Ordered.last?_of_kept {retention : Retention} {marks : List Mark} {key : Value}
    {result : Result} (ordered : Ordered retention marks)
    (ended : .ended key (.ok result) ∈ marks) (keeps : retention.keeps result = true) :
    last? marks key = some (.ended key (.ok result)) := by
  induction marks with
  | nil => cases ended
  | cons mark marks induction =>
      rcases List.mem_cons.mp ended with rfl | ended
      · exact last?_cons_of_same _ (Value.same_refl key)
      · have tail : Ordered retention marks := Ordered.of_append
          (show Ordered retention ([mark] ++ marks) from ordered)
        have last := induction tail ended
        rw [last?_cons_of_ne _ ?_, last]
        intro about
        rw [← last?_congr marks about] at last
        cases mark with
        | started again =>
            obtain ⟨_, _, same, vain⟩ := ordered.1 _ last
            cases same
            simp [Retention.retains, keeps] at vain
        | ended other outcome =>
            rw [Mark.key, ordered.1] at last
            cases last

/-- A run that ended and did not start in between was going on before. -/
theorem Ordered.last?_of_unstarted {retention : Retention} {between earlier : List Mark}
    {key argument : Value} {outcome : Outcome} (ordered : Ordered retention (between ++ earlier))
    (ended : .ended argument outcome ∈ between) (equal : key.same argument = true)
    (unstarted : ∀ other, key.same other = true → .started other ∉ between) :
    last? earlier key = some (.started argument) := by
  induction between with
  | nil => cases ended
  | cons mark between induction =>
      have unstarted' : ∀ other, key.same other = true → .started other ∉ between :=
        fun other same member => unstarted other same (List.mem_cons_of_mem _ member)
      rcases List.mem_cons.mp ended with rfl | ended
      · have running : last? (between ++ earlier) key = some (.started argument) := by
          rw [last?_congr _ equal]
          exact ordered.1
        rw [last?, List.find?_append] at running
        cases found : between.find? (·.key.same key) with
        | none => simpa [found, last?] using running
        | some mark =>
            rw [found, Option.some_or, Option.some.injEq] at running
            subst running
            exact absurd (List.mem_of_find?_eq_some found) (unstarted' argument equal)
      · exact induction (Ordered.of_append
          (show Ordered retention ([mark] ++ (between ++ earlier)) from ordered)) ended unstarted'

end Mark

/-- What is stored, and what is about to be, is the result of a run. -/
structure Cache.Backed (cache : Cache) (threads : List (List Phase)) (marks : List Mark) : Prop where
  stored {key result} (stored : cache.storage.stored? key = some result) :
    ∃ argument, argument.same key = true ∧ .ended argument (.ok result) ∈ marks ∧
      cache.retention.keeps result = true
  keeping {thread phase key result} (member : phase ∈ threads.getD thread [])
    (keeping : phase.keeping? = some (key, result)) : .ended key (.ok result) ∈ marks

namespace Cache

variable {cache : Cache} {threads : List (List Phase)} {marks added : List Mark} {thread : Thread}
  {phases phases' : List Phase} {after : Storage} {key : Value} {result : Result}

/-- What is stored after a step was stored before, or was about to be. -/
theorem Sound.stored_or_keeping (sound : cache.Sound threads marks)
    (present : threads[thread]? = some phases)
    (moves : Phase.Moves cache.retention thread cache.storage phases added after phases')
    (stored : after.stored? key = some result) :
    cache.storage.stored? key = some result ∨
      ∃ phase ∈ phases, ∃ argument, phase.keeping? = some (argument, result) ∧
        argument.same key = true ∧ cache.retention.keeps result = true := by
  cases moves with
  | stay | apply argument | count | settle outcome | counted moved => exact .inl stored
  | @go _ argument stage _ _ next moved =>
      have member : Phase.applying argument stage ∈ threads.getD thread [] := by simp [present]
      by_cases keeps : ∃ place outcome, stage = .keep place outcome
      · obtain ⟨place, outcome, rfl⟩ := keeps
        simp only [Storage.advance, Storage.keep] at moved
        split at moved
        next kept =>
          split at moved
          next keeps =>
            cases moved
            rw [sound.stored?_insert member rfl] at stored
            split at stored
            next equal =>
              cases stored
              exact .inr ⟨_, List.mem_cons_self, argument, rfl, equal, keeps⟩
            next => exact .inl stored
          next =>
            cases moved
            exact .inl stored
        next =>
          cases moved
          exact .inl stored
      · push Not at keeps
        rw [(sound.agrees_of_go member keeps moved).stored] at stored
        exact .inl stored
  | compute moved =>
      obtain ⟨rfl, rfl⟩ := Storage.eq_start_of_compute moved
      rw [(Storage.Agrees.of_modifyLatch ..).stored] at stored
      exact .inl stored
  | finish moved =>
      obtain ⟨place, rfl, dropped⟩ := Storage.eq_drop_of_finish moved
      rw [(Storage.Agrees.of_drop dropped).stored] at stored
      exact .inl stored
  | tally moved =>
      rw [(Storage.Agrees.of_tally moved).stored] at stored
      exact .inl stored

/-- An application comes to the point of storing a result only from the end of its run. -/
private theorem keeping_of_go {storage : Storage} {retention : Retention} {stage next : Stage}
    {event : Option Event} {argument : Value}
    (moved : storage.advance retention thread argument stage = .go after event next)
    (keeping : (Phase.applying argument next).keeping? = some (key, result)) :
    (Phase.applying argument stage).keeping? = some (key, result) := by
  cases stage with
  | settle place outcome =>
      cases moved
      cases outcome <;> exact keeping
  | start place => cases moved
  | look place =>
      simp only [Storage.advance, Storage.look] at moved
      split at moved <;> cases moved <;> cases keeping
  | check place =>
      simp only [Storage.advance, Storage.check] at moved
      split at moved <;> cases moved <;> cases keeping
  | lock place =>
      simp only [Storage.advance, Storage.lock] at moved
      split at moved <;> cases moved
      cases keeping
  | keep place outcome =>
      simp only [Storage.advance, Storage.keep] at moved
      split at moved
      · split at moved <;> cases moved <;> cases keeping
      · cases moved
        cases keeping
  | seek =>
      cases storage with
      | table results => cases moved; cases keeping
      | slots map =>
          simp only [Storage.advance, Storage.seek] at moved
          split at moved <;> cases moved
          cases keeping
  | unlock place outcome vacant | enter place outcome | inspect place outcome
  | clear place outcome | leave place outcome | drop place outcome =>
      have late := Storage.isLate_of_go rfl moved
      cases next <;> first | cases keeping | cases late

/-- What is about to be stored after a step was so before, or its run has just ended. -/
private theorem keeping_of_moves
    (moves : Phase.Moves cache.retention thread cache.storage phases added after phases')
    {phase : Phase} (member : phase ∈ phases') (keeping : phase.keeping? = some (key, result)) :
    .ended key (.ok result) ∈ added ∨ ∃ other ∈ phases, other.keeping? = some (key, result) := by
  cases moves with
  | stay | finish moved | counted moved => exact .inr ⟨phase, by simp [member], keeping⟩
  | apply argument | count | compute moved | tally moved =>
      rcases List.mem_cons.mp member with rfl | member
      · cases keeping
      · exact .inr ⟨phase, by simp [member], keeping⟩
  | go moved =>
      rcases List.mem_cons.mp member with rfl | member
      · exact .inr ⟨_, List.mem_cons_self, keeping_of_go moved keeping⟩
      · exact .inr ⟨phase, by simp [member], keeping⟩
  | settle outcome =>
      rcases List.mem_cons.mp member with rfl | member
      · cases outcome with
        | error failure => cases keeping
        | ok kept =>
            cases keeping
            exact .inl List.mem_cons_self
      · exact .inr ⟨phase, by simp [member], keeping⟩

/-- Results are stored only where a run ended with them. -/
theorem backed_invariant : Cache.Invariant (fun _ _ => True) Cache.Backed := by
  refine ⟨?_, ?_, ?_⟩
  · intro cache threads marks added thread phases phases' after sound before _ _ present moves
    have inside : thread < threads.length := (List.getElem?_eq_some_iff.mp present).1
    have here : threads.getD thread [] = phases := by simp [present]
    constructor
    · intro key result stored
      rcases sound.stored_or_keeping present moves stored with
        already | ⟨phase, member, argument, keeping, equal, keeps⟩
      · obtain ⟨argument, equal, ended, keeps⟩ := before.stored already
        exact ⟨argument, equal, List.mem_append_right _ ended, keeps⟩
      · exact ⟨argument, equal, List.mem_append_right _ (before.keeping (here ▸ member) keeping),
          keeps⟩
    · intro other phase key result member keeping
      by_cases same : other = thread
      · subst same
        rw [List.getD_eq_getElem?_getD, List.getElem?_set_self inside, Option.getD_some] at member
        rcases keeping_of_moves moves member keeping with ended | ⟨former, within, kept⟩
        · exact List.mem_append_left _ ended
        · exact List.mem_append_right _ (before.keeping (here ▸ within) kept)
      · rw [List.getD_eq_getElem?_getD, List.getElem?_set_ne (Ne.symm same),
          ← List.getD_eq_getElem?_getD] at member
        exact List.mem_append_right _ (before.keeping member keeping)
  · intro cache threads policy empty idle
    constructor
    · intro key result stored
      rw [empty] at stored
      cases policy <;> cases stored
    · intro thread phase key result member keeping
      have fresh := Phase.isFresh_of_idle idle member
      unfold Phase.keeping? at keeping
      split at keeping <;> first | cases fresh | cases keeping
  · intro cache threads threads' marks sound before idle idle'
    refine ⟨before.stored, ?_⟩
    intro thread phase key result member
    rw [Phase.getD_of_idle idle'] at member
    cases member

/-- A result that is to be kept is stored once nobody is about to store it. -/
theorem Sound.stored_of_ended (sound : cache.Sound threads marks)
    (settled : ∀ thread, ∀ phase ∈ threads.getD thread [], phase.keeping? = none)
    (ended : .ended key (.ok result) ∈ marks) (keeps : cache.retention.keeps result = true) :
    cache.storage.stored? key = some result := by
  rcases sound.kept (sound.ordered.last?_of_kept ended keeps) keeps with
    stored | ⟨thread, phase, member, keeping⟩
  · exact stored
  · rw [settled thread phase member] at keeping
    cases keeping

end Cache

end FunctionValues
