import FunctionValues.Proofs.Courses
import FunctionValues.Proofs.Solo
import Mathlib.Algebra.BigOperators.Group.Multiset.Basic
import Mathlib.Tactic.Abel

/-!
# Accounts of a memoized function

What has been done with a memoized function, whoever did it: how often it ran to the end for each
argument, and how often a stored result was found. What is stored follows from the runs, and the log
from the runs, from the results that were found, and from what the threads did themselves.
-/

namespace FunctionValues

namespace Setting

variable (setting : Setting)

/-- The function behind the cache ends with a result for an argument that is to be kept. -/
def Keeps (key : Value) (result : Result) : Prop :=
  (∃ deeds, setting.Yields key (.ok result) deeds) ∧ setting.cache.retention.keeps result = true

/-- The storage holds what was stored at the beginning and what the runs since then ended with, as far
as it is to be kept. -/
structure Holds (runs : Multiset Value) (storage : Storage) : Prop where
  policy : storage.policy = setting.policy
  stored (key result) : (storage.stored? key).map Result.anonymous = some result ↔
    setting.held? key = some result ∨ key ∈ runs ∧ setting.Keeps key result

/-- An event of the memoized function in the log. -/
def event (key : Value) (event : Event) : Entry :=
  .event setting.number (some key) event

/-- What the log says of a run up to its end. -/
def ending (key : Value) (outcome : Outcome) : List Entry :=
  [.ended setting.number key outcome, .started setting.number key,
    setting.event key (.miss setting.policy)]

/-- What is reported when a run has ended. -/
def verdict : Outcome → Option Event
  | .ok result =>
    if setting.cache.retention.keeps result then some (.stored none) else some .notRetained
  | .error _ => none

/-- The deeds of a whole run. -/
def account (key : Value) (outcome : Outcome) (deeds : Multiset Deed) : Multiset Deed :=
  Deed.ofLog ((setting.verdict outcome).toList.map (setting.event key)) +
    (Deed.ofLog (setting.ending key outcome) + deeds)

open Classical in
/-- The deeds of a whole run for an argument. -/
noncomputable def tale (key : Value) : Multiset Deed :=
  if known : ∃ deeds outcome within, setting.Yields key outcome within ∧
      deeds = setting.account key outcome within then known.choose else 0

/-- The deed of finding a stored result. -/
def found (key : Value) : Deed :=
  .noted (setting.event key (.hit setting.policy))

/-- Some runs ended and some stored results were found while the storage became another and the deeds
of a thread became others. -/
structure Posts (runs : Multiset Value) (storage after : Storage) (entries : List Entry)
    (books books' : Multiset Deed) (ran hits : Multiset Value) : Prop where
  balance : Deed.ofLog entries + (hits + ran).map .applied + books =
    books' + (ran.map setting.tale).sum + hits.map setting.found
  holds : setting.Holds (ran + runs) after
  seen : ∀ key ∈ hits, ∃ result, storage.stored? key = some result
  computed : ∀ key ∈ ran, key.isExact = true ∧ storage.stored? key = none ∧
    ∃ outcome deeds, setting.Yields key outcome deeds
  nodup : ran.Nodup

variable {setting} {runs : Multiset Value} {storage after : Storage} {key : Value}

theorem tale_eq {outcome : Outcome} {deeds : Multiset Deed}
    (yields : setting.Yields key outcome deeds) :
    setting.tale key = setting.account key outcome deeds := by
  have known : ∃ deeds outcome within, setting.Yields key outcome within ∧
      deeds = setting.account key outcome within := ⟨_, _, _, yields, rfl⟩
  obtain ⟨outcome', within, yields', same⟩ := known.choose_spec
  obtain ⟨rfl, rfl⟩ := yields.unique yields'
  rw [tale, dif_pos known, same]

namespace Holds

theorem of_agrees (holds : setting.Holds runs storage) (agrees : storage.Agrees after)
    (policy : after.policy = storage.policy) : setting.Holds runs after where
  policy := policy.trans holds.policy
  stored key result := by rw [agrees.stored, holds.stored]

theorem held_of_stored (holds : setting.Holds runs storage) (missing : storage.stored? key = none) :
    setting.held? key = none := by
  rw [Option.eq_none_iff_forall_not_mem]
  intro result held
  have stored := (holds.stored key result).mpr (.inl held)
  rw [missing] at stored
  cases stored

/-- A run with nothing to be kept changes nothing. -/
theorem of_vain (holds : setting.Holds runs storage) (vain : ∀ result, ¬setting.Keeps key result) :
    setting.Holds (key ::ₘ runs) storage where
  policy := holds.policy
  stored other result := by
    rw [holds.stored, Multiset.mem_cons]
    refine or_congr_right (and_congr_left fun kept => (or_iff_right ?_).symm)
    rintro rfl
    exact vain result kept

/-- The result of a run that is to be kept is stored. -/
theorem of_kept {result : Result} (holds : setting.Holds runs storage)
    (exact : key.isExact = true) (missing : storage.stored? key = none)
    (keeps : setting.Keeps key result.anonymous) (policy : after.policy = storage.policy)
    (stored : ∀ other, after.stored? other =
      if key.same other then some result else storage.stored? other) :
    setting.Holds (key ::ₘ runs) after where
  policy := policy.trans holds.policy
  stored other content := by
    rw [stored, Multiset.mem_cons]
    split
    next same =>
      obtain rfl := Value.eq_of_same exact same
      have unheld := holds.held_of_stored missing
      simp only [Option.map_some, Option.some.injEq, unheld, reduceCtorEq, false_or, true_or,
        true_and]
      constructor
      · rintro rfl
        exact keeps
      · intro kept
        obtain ⟨⟨deeds, yields⟩, -⟩ := keeps
        obtain ⟨⟨deeds', yields'⟩, -⟩ := kept
        exact Except.ok.inj (yields.unique yields').2
    next different =>
      have apart : other ≠ key := by
        rintro rfl
        exact different (Value.same_refl other)
      rw [holds.stored, or_iff_right apart]

end Holds

namespace Posts

variable {entries : List Entry} {books books' : Multiset Deed} {ran hits : Multiset Value}

/-- What a thread does besides leaves its deeds as they are. -/
theorem add_left (posts : setting.Posts runs storage after entries books books' ran hits)
    (base : Multiset Deed) :
    setting.Posts runs storage after entries (base + books) (base + books') ran hits where
  balance := by
    rw [add_left_comm, posts.balance]
    abel
  holds := posts.holds
  seen := posts.seen
  computed := posts.computed
  nodup := posts.nodup

/-- Neither did a run end nor was a stored result found. -/
theorem quiet (holds : setting.Holds runs after) (balance : Deed.ofLog entries + books = books') :
    setting.Posts runs storage after entries books books' 0 0 where
  balance := by simpa using balance
  holds := by rwa [zero_add]
  seen := by simp
  computed := by simp
  nodup := Multiset.nodup_zero

/-- A stored result was found. -/
theorem hit {result : Result} (holds : setting.Holds runs storage)
    (stored : storage.stored? key = some result) :
    setting.Posts runs storage storage [setting.event key (.hit setting.policy)] 0 {.applied key} 0
      {key} where
  balance := by
    simp only [add_zero, Multiset.map_singleton, Multiset.map_zero, Multiset.sum_zero]
    exact add_comm _ _
  holds := by rwa [zero_add]
  seen := by simpa using ⟨result, stored⟩
  computed := by simp
  nodup := Multiset.nodup_zero

/-- A run ended. -/
theorem run {outcome : Outcome} {deeds : Multiset Deed} {event : Option Event}
    (holds : setting.Holds (key ::ₘ runs) after) (exact : key.isExact = true)
    (missing : storage.stored? key = none)
    (yields : setting.Yields key outcome.anonymous deeds)
    (reported : Deed.ofLog (event.toList.map (setting.event key)) =
      Deed.ofLog ((setting.verdict outcome.anonymous).toList.map (setting.event key))) :
    setting.Posts runs storage after (event.toList.map (setting.event key))
      (Deed.ofLog (setting.ending key outcome.anonymous) + deeds) {.applied key} {key} 0 where
  balance := by
    simp only [zero_add, Multiset.map_singleton, Multiset.sum_singleton, Multiset.map_zero, add_zero,
      tale_eq yields, account, reported]
    abel
  holds := by rwa [Multiset.singleton_add]
  seen := by simp
  computed := by simpa using ⟨exact, missing, _, _, yields⟩
  nodup := Multiset.nodup_singleton key

end Posts

end Setting

end FunctionValues
