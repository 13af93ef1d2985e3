import FunctionValues.Proofs.Lockstep
import FunctionValues.Proofs.Reentry

/-!
# What a memoized function was applied to

The log tells of every application of a memoized function with its argument: it found a result, it
missed one, or it was refused. Arguments that are equal make a class, and each class has a first
argument. A step of a thread that is at no stage of an application of the function leaves all this as
it is, and the results of the cache as well.
-/

namespace FunctionValues

namespace Value

/-- The first of every class of equal values in a history that begins with the latest. -/
def firsts : List Value → List Value
  | [] => []
  | value :: earlier =>
    if earlier.any (·.same value) then firsts earlier else value :: firsts earlier

/-- The first value of the class of a value, in a history that begins with the latest. -/
def first? (history : List Value) (value : Value) : Option Value :=
  history.reverse.find? (·.same value)

variable {history : List Value} {value other first : Value}

theorem first?_cons (history : List Value) (value other : Value) :
    first? (value :: history) other =
      (first? history other).or (if value.same other then some value else none) := by
  simp only [first?, List.reverse_cons, List.find?_append, List.find?_singleton]

theorem first?_eq_none :
    first? history value = none ↔ ∀ other ∈ history, ¬other.same value = true := by
  simp [first?]

theorem first?_congr (history : List Value) (equal : value.same other = true) :
    first? history value = first? history other := by
  have tests : (fun entry : Value => entry.same value) = fun entry => entry.same other := by
    funext entry
    rw [Bool.eq_iff_iff]
    exact ⟨fun found => same_trans found equal, fun found => same_trans found (same_symm equal)⟩
  simp only [first?, tests]

theorem same_of_first? (known : first? history value = some first) : first.same value = true := by
  simpa using List.find?_some (show history.reverse.find? (·.same value) = some first from known)

/-- A value of a class that the history knows adds nothing to it. -/
theorem firsts_cons_of_known (known : first? history value = some first) :
    firsts (value :: history) = firsts history := by
  have member := List.mem_of_find?_eq_some known
  have equal := same_of_first? known
  rw [firsts, if_pos (List.any_eq_true.mpr ⟨first, List.mem_reverse.mp member, equal⟩)]

theorem firsts_cons_of_new (new : first? history value = none) :
    firsts (value :: history) = value :: firsts history := by
  rw [firsts, if_neg]
  intro any
  obtain ⟨other, member, equal⟩ := List.any_eq_true.mp any
  exact first?_eq_none.mp new other member equal

/-- The first value of a class stays the first, whatever comes later. -/
theorem first?_of_suffix {later : List Value} (known : first? history value = some first)
    (suffix : history <:+ later) : first? later value = some first := by
  obtain ⟨added, rfl⟩ := suffix
  rw [first?] at known ⊢
  rw [List.reverse_append, List.find?_append, known]
  rfl

theorem first?_cons_of_known (known : first? history value = some first) (other : Value) :
    first? (value :: history) other = first? history other := by
  rw [first?_cons]
  by_cases equal : value.same other = true
  · rw [← first?_congr history equal, known]
    rfl
  · rw [if_neg equal, Option.or_none]

end Value

/-- The argument of an application of a memoized function that an entry tells of. -/
def Entry.asked? (number : Nat) : Entry → Option Value
  | event cache (some key) told => if cache = number ∧ told.answers then some key else none
  | _ => none

namespace World

/-- The arguments that the memoized function of a cache was applied to, the latest first. -/
def asked (world : World) (number : Nat) : List Value :=
  world.log.filterMap (Entry.asked? number)

variable {world after : World} {number other : Nat}

theorem asked_record {entry : Entry} (silent : entry.asked? number = none) :
    (world.record entry).asked number = world.asked number :=
  List.filterMap_cons_none silent

theorem asked_recordEvent (key : Value) (event : Option Event) :
    (world.recordEvent number key event).asked number =
      if event.any Event.answers then key :: world.asked number else world.asked number := by
  cases event with
  | none => rfl
  | some event =>
      by_cases answers : event.answers = true <;>
        simp [recordEvent, record, asked, Entry.asked?, answers]

theorem asked_recordEvent_of_ne (different : other ≠ number) (key : Value) (event : Option Event) :
    (world.recordEvent other key event).asked number = world.asked number := by
  cases event with
  | none => rfl
  | some event => exact asked_record (by simp [Entry.asked?, different])

theorem asked_amend (storage : Storage) (entries : List Entry) :
    (world.amend other storage entries).asked number =
      entries.filterMap (Entry.asked? number) ++ world.asked number :=
  List.filterMap_append

theorem Makes.asked (makes : world.Makes after) : after.asked number = world.asked number := by
  cases makes with
  | define name function | create code => rfl
  | memoize policy retention callable => cases callable <;> rfl

end World

namespace Activity

variable {thread : Thread} {world after : World} {activity next : Activity} {number : Nat}
  {cache : Cache}

/-- A step that is not one of an application of the function leaves what it was applied to. -/
theorem asked_of_next (apart : ∀ key stage, activity.focus ≠ .applying number key stage)
    (stepped : activity.next thread world = .step after next) :
    after.asked number = world.asked number := by
  obtain ⟨focus, frames⟩ := activity
  cases focus with
  | run computation =>
      cases stepped
      cases computation with
      | apply callable argument => cases callable <;> rfl
      | _ => rfl
  | answer outcome =>
      cases frames with
      | nil => cases stepped
      | cons frame frames =>
          cases stepped
          rcases outcome with failure | (value | callable) <;> cases frame <;> rfl
  | applying other key stage =>
      have different : other ≠ number := by
        rintro rfl
        exact apart key stage rfl
      simp only [Activity.next] at stepped
      split at stepped
      · cases stepped
      · unfold Move.progress at stepped
        split at stepped <;> cases stepped
        · exact World.asked_recordEvent_of_ne different ..
        · rfl
        · rfl
  | counting other progress =>
      simp only [Activity.next] at stepped
      split at stepped
      · cases stepped
      · unfold CountMove.progress at stepped
        split at stepped <;> cases stepped <;> rfl

/-- A step that is not one of an application of the function leaves the results of its cache. -/
theorem agrees_of_next (found : world.caches[number]? = some cache)
    (apart : ∀ key stage, activity.focus ≠ .applying number key stage)
    (stepped : activity.next thread world = .step after next) :
    ∃ storage, after.caches[number]? = some { cache with storage := storage } ∧
      cache.storage.Agrees storage := by
  obtain ⟨storage, added, kept, -, moves⟩ := activity.moves_of_next found stepped
  have waiting : ∀ key stage, Phase.applying key stage ∉ activity.phases number := by
    intro key stage member
    rcases mem_phases.mp member with ⟨_, _, -, here⟩ | ⟨_, same, -⟩ | ⟨_, _, same, -⟩
    · exact apart _ _ here
    · cases same
    · cases same
  refine ⟨storage, kept, ?_⟩
  generalize activity.phases number = phases at moves waiting
  generalize next.phases number = phases' at moves
  cases moves with
  | stay | apply key | count | settle outcome | counted moved => exact .refl _
  | go moved | compute moved | finish moved => exact absurd List.mem_cons_self (waiting _ _)
  | tally moved => exact .of_tally moved

/-- A step of a thread that is outside of the function at most begins an application. -/
theorem outside_of_next (found : world.caches[number]? = some cache)
    (apart : ∀ key stage, activity.focus ≠ .applying number key stage)
    (outside : ∀ key place, .computing number key place ∉ activity.frames)
    (stepped : activity.next thread world = .step after next) :
    (∀ key place, .computing number key place ∉ next.frames) ∧
      ∀ key stage, next.focus = .applying number key stage → stage = .seek := by
  obtain ⟨storage, added, -, -, moves⟩ := activity.moves_of_next found stepped
  have counts : ∀ phase ∈ activity.phases number, ∃ progress, phase = .counting progress := by
    intro phase member
    rcases mem_phases.mp member with ⟨_, _, -, here⟩ | ⟨progress, same, -⟩ | ⟨_, _, -, inside⟩
    · exact absurd here (apart _ _)
    · exact ⟨progress, same⟩
    · exact absurd inside (outside _ _)
  have begins : ∀ phase ∈ next.phases number,
      (∃ progress, phase = .counting progress) ∨ ∃ key, phase = .applying key .seek := by
    generalize activity.phases number = phases at moves counts
    generalize next.phases number = phases' at moves
    intro phase member
    cases moves with
    | stay => exact .inl (counts phase member)
    | apply key =>
        rcases List.mem_cons.mp member with rfl | member
        · exact .inr ⟨key, rfl⟩
        · exact .inl (counts phase member)
    | count =>
        rcases List.mem_cons.mp member with rfl | member
        · exact .inl ⟨_, rfl⟩
        · exact .inl (counts phase member)
    | tally moved =>
        rcases List.mem_cons.mp member with rfl | member
        · exact .inl ⟨_, rfl⟩
        · exact .inl (counts phase (List.mem_cons_of_mem _ member))
    | counted moved => exact .inl (counts phase (List.mem_cons_of_mem _ member))
    | go moved | compute moved | finish moved | settle outcome =>
        obtain ⟨progress, same⟩ := counts _ List.mem_cons_self
        cases same
  refine ⟨fun key place member => ?_, fun key stage here => ?_⟩
  · rcases begins _ (mem_phases.mpr (.inr (.inr ⟨key, place, rfl, member⟩))) with
      ⟨_, same⟩ | ⟨_, same⟩ <;> cases same
  · rcases begins _ (mem_phases.mpr (.inl ⟨key, stage, rfl, here⟩)) with ⟨_, same⟩ | ⟨_, same⟩ <;>
      cases same
    rfl

end Activity

/-- A memoized function that does not exist was applied to nothing. -/
theorem System.Reached.asked_of_absent {limit number : Nat} {system : System}
    (reached : system.Reached limit) (absent : system.world.caches[number]? = none) :
    system.world.asked number = [] := by
  induction reached with
  | refl => rfl
  | @tail middle after before happens induction =>
      have earlier : middle.world.caches[number]? = none := by
        cases found : middle.world.caches[number]? with
        | none => rfl
        | some cache =>
            obtain ⟨storage, kept, -⟩ := happens.caches found
            rw [absent] at kept
            cases kept
      rw [← induction earlier]
      cases happens with
      | step thread stepped =>
          obtain ⟨⟨current, pending, outcomes⟩, worker, world, present, moved, rfl⟩ :=
            step_eq_some stepped
          cases current with
          | none =>
              cases pending <;> cases moved
              rfl
          | some activity =>
              simp only [Worker.next] at moved
              split at moved <;> cases moved
              next progress =>
                refine Activity.asked_of_next (fun key stage here => ?_) progress
                obtain ⟨focus, frames⟩ := activity
                obtain rfl : focus = .applying number key stage := here
                simp [Activity.next, earlier] at progress
              next => rfl
      | make makes => exact makes.asked
      | start tasks few done => rfl

end FunctionValues
