import FunctionValues.Proofs.Courses
import Mathlib.Logic.Relation

/-!
# Plain recursion

A function that applies itself while nothing is stored and nothing refused. Which arguments it is
applied to on the way is a relation between arguments, along which a run that comes to an end has no
cycles. What is stored cuts this relation short: the arguments that are missing are those that are
reached without coming by a stored one.
-/

namespace FunctionValues

namespace Setting

variable (setting : Setting)

/-- Nothing is stored and nothing refused, so courses are those of the function by itself. -/
structure IsPlain : Prop where
  policy : setting.policy = .perKey
  unheld (key : Value) : setting.held? key = none

/-- The function is applied to one argument while it runs for another. -/
def Calls (caller called : Value) : Prop :=
  ∃ frames deeds, setting.Leads true ⟨.run (setting.start caller), []⟩ deeds
    ⟨.run (.apply (.memoized setting.number) called), frames⟩

/-- The function comes to an end for an argument. -/
def Halts (key : Value) : Prop :=
  ∃ outcome deeds, setting.Yields key outcome deeds

/-- An argument is reached from another along applications, and nothing is stored for any argument
on the way, the first and the last included. -/
def Misses (stored : Value → Prop) (key other : Value) : Prop :=
  ¬stored key ∧ Relation.ReflTransGen
    (fun caller called => setting.Calls caller called ∧ ¬stored called) key other

variable {setting} {inside : Bool} {activity next last : Activity} {deeds more : Multiset Deed}
  {outcome : Outcome} {key other caller called : Value}

/-! ## Courses of plain recursion -/

/-- The rest of a course that comes to an end. -/
theorem Leads.onward (first : setting.Leads inside activity deeds next)
    (whole : setting.Leads inside activity more ⟨.answer outcome, []⟩) :
    ∃ rest, more = deeds + rest ∧ setting.Leads inside next rest ⟨.answer outcome, []⟩ := by
  induction first generalizing more with
  | refl => exact ⟨more, (zero_add more).symm, whole⟩
  | pace paced _ induction =>
      cases whole with
      | refl => cases paced
      | pace paced' whole =>
          obtain ⟨rfl, rfl⟩ : _ ∧ _ := by simpa using paced.symm.trans paced'
          obtain ⟨rest, rfl, leads⟩ := induction whole
          exact ⟨rest, (add_assoc ..).symm, leads⟩
      | compute open' missing _ _ => simp [Setting.pace, open', missing] at paced
  | compute open' missing run _ _ induction =>
      cases whole with
      | pace paced _ => simp [Setting.pace, open', missing] at paced
      | compute _ _ run' whole =>
          obtain ⟨-, rfl⟩ := run.unique run'
          obtain ⟨rest, rfl, leads⟩ := induction whole
          exact ⟨rest, (add_assoc ..).symm, leads⟩

namespace IsPlain

/-- A function that has just been memoized with a lock for each argument. -/
theorem of_empty (empty : setting.cache.storage = .empty .perKey) : setting.IsPlain where
  policy := by rw [Setting.policy, empty]; rfl
  unheld key := by rw [held?, empty]; rfl

theorem refuses (plain : setting.IsPlain) (inside : Bool) : setting.refuses inside = false := by
  simp [Setting.refuses, plain.policy]

/-- An application is never a move by itself, as nothing is stored. -/
theorem pace_apply (plain : setting.IsPlain) (inside : Bool) (cache : Nat) (key : Value)
    (frames : List Frame) :
    setting.pace inside ⟨.run (.apply (.memoized cache) key), frames⟩ = none := by
  simp [pace, plain.refuses, plain.unheld]

theorem not_applied (plain : setting.IsPlain)
    (paced : setting.pace inside activity = some (deeds, next)) : .applied key ∉ deeds := by
  intro member
  obtain ⟨computation | outcome | _ | _, frames⟩ := activity
  · rcases computation with _ | _ | ⟨_ | cache, argument⟩ | _ | _ | _ | _ | _ | _
    case apply.memoized => cases (plain.pace_apply ..).symm.trans paced
    all_goals
      cases paced
      cases Deed.key?_of_mem_ofLog member
  · rcases frames with _ | ⟨_ | _ | _, frames⟩ <;> cases paced <;> simp at member
  · cases paced
  · cases paced

/-- What runs apply the function to is among their deeds. -/
theorem applied_of_calls (plain : setting.IsPlain) (yields : setting.Yields caller outcome deeds)
    (calls : setting.Calls caller called) : .applied called ∈ deeds := by
  obtain ⟨frames, before, leads⟩ := calls
  obtain ⟨rest, rfl, leads⟩ := leads.onward yields
  cases leads with
  | pace paced _ => cases (plain.pace_apply ..).symm.trans paced
  | compute _ _ _ _ => simp

/-- The function comes to an end for what it is applied to on a course that does, and not by way of
itself. -/
theorem halts_of_applied (plain : setting.IsPlain)
    (leads : setting.Leads inside activity deeds last) (member : .applied key ∈ deeds) :
    setting.Halts key ∧ Acc (fun called caller => setting.Calls caller called) key := by
  induction leads generalizing key with
  | refl => simp at member
  | pace paced _ induction =>
      exact induction ((Multiset.mem_add.mp member).resolve_left (plain.not_applied paced))
  | compute open' missing run _ within induction =>
      rcases Multiset.mem_add.mp member with member | member
      · obtain rfl : key = _ := by simpa using member
        exact ⟨⟨_, _, run⟩, .intro _ fun _ calls => (within (plain.applied_of_calls run calls)).2⟩
      · exact induction member

end IsPlain

theorem calls_of_applied (pure : setting.IsPure) (exact : caller.isExact = true)
    (yields : setting.Yields caller outcome deeds) (member : .applied called ∈ deeds) :
    setting.Calls caller called :=
  (yields.exists_of_applied pure (pure.start exact) member).2

/-! ## Arguments that are reached -/

namespace Halts

theorem of_calls (halts : setting.Halts caller) (plain : setting.IsPlain)
    (calls : setting.Calls caller called) : setting.Halts called := by
  obtain ⟨outcome, deeds, yields⟩ := halts
  exact (plain.halts_of_applied yields (plain.applied_of_calls yields calls)).1

theorem of_reached (halts : setting.Halts key) (plain : setting.IsPlain)
    (reached : Relation.ReflTransGen setting.Calls key other) : setting.Halts other := by
  induction reached with
  | refl => exact halts
  | tail _ calls induction => exact induction.of_calls plain calls

private theorem acc (halts : setting.Halts key) (plain : setting.IsPlain) :
    Acc (fun called caller => setting.Calls caller called) key := by
  obtain ⟨outcome, deeds, yields⟩ := halts
  exact .intro key fun _ calls =>
    (plain.halts_of_applied yields (plain.applied_of_calls yields calls)).2

/-- A run that comes to an end does not come back to its argument. -/
theorem not_reached (halts : setting.Halts caller) (plain : setting.IsPlain)
    (calls : setting.Calls caller called) :
    ¬Relation.ReflTransGen setting.Calls called caller := by
  induction halts.acc plain generalizing called with
  | intro caller _ induction =>
      -- The first argument on the way back would come back to itself as well.
      intro back
      rcases back.cases_head with rfl | ⟨first, calls', rest⟩
      · exact induction _ calls (halts.of_calls plain calls) calls .refl
      · exact induction _ calls (halts.of_calls plain calls) calls' (rest.tail calls)

end Halts

/-! ## Arguments that are missing -/

namespace Misses

variable {stored new : Value → Prop} {between : Value}

theorem refl (missing : ¬stored key) : setting.Misses stored key key :=
  ⟨missing, .refl⟩

theorem trans (first : setting.Misses stored key between)
    (second : setting.Misses stored between other) : setting.Misses stored key other :=
  ⟨first.1, first.2.trans second.2⟩

theorem missing (misses : setting.Misses stored key other) : ¬stored other := by
  obtain ⟨missing, reached⟩ := misses
  cases reached with
  | refl => exact missing
  | tail _ last => exact last.2

theorem reached (misses : setting.Misses stored key other) :
    Relation.ReflTransGen setting.Calls key other :=
  Relation.ReflTransGen.mono (fun _ _ both => both.1) _ _ misses.2

theorem iff_calls : setting.Misses stored key other ↔
    ¬stored key ∧ (other = key ∨ ∃ called, setting.Calls key called ∧
      setting.Misses stored called other) := by
  unfold Misses
  rw [Relation.ReflTransGen.cases_head_iff]
  refine and_congr_right fun _ => or_congr eq_comm (exists_congr fun called => ?_)
  rw [and_assoc]

/-- What was missing and has been stored since, together with all that was missing for it, takes
nothing else away. -/
theorem iff_of_stored
    (closed : ∀ key other, new key → setting.Misses stored key other → new other) :
    new other ∨ setting.Misses (fun key => stored key ∨ new key) key other ↔
      new other ∨ setting.Misses stored key other := by
  constructor
  · rintro (known | ⟨missing, reached⟩)
    · exact .inl known
    · exact .inr ⟨fun held => missing (.inl held),
        Relation.ReflTransGen.mono
          (fun _ _ both => ⟨both.1, fun held => both.2 (.inl held)⟩) _ _ reached⟩
  · rintro (known | misses)
    · exact .inl known
    -- Up to its first new argument the path is still open, and from there on all is new.
    obtain ⟨missing, reached⟩ := misses
    induction reached using Relation.ReflTransGen.head_induction_on with
    | refl =>
        by_cases known : new other
        · exact .inl known
        · exact .inr (.refl fun held => held.elim missing known)
    | @head key called first rest induction =>
        by_cases known : new key
        · exact .inl (closed key other known ⟨missing, .head first rest⟩)
        · exact (induction first.2).imp_right fun misses =>
            iff_calls.mpr ⟨fun held => held.elim missing known, .inr ⟨called, first.1, misses⟩⟩

end Misses

/-! ## Missing work -/

/-- The function was started once for every argument that was missing for the roots and for no
other, the latest first, and what was stored grew by these arguments. -/
structure Works (setting : Setting) (roots stored stored' : Value → Prop) (started : List Value) :
    Prop where
  nodup : started.Nodup
  mem_iff (other : Value) : other ∈ started ↔ ∃ key, roots key ∧ setting.Misses stored key other
  stored_iff (other : Value) : stored' other ↔ stored other ∨ other ∈ started

namespace Works

variable {roots roots' stored stored' stored'' : Value → Prop} {started started' : List Value}

/-- Where nothing is applied, nothing is missing. -/
theorem nothing (none : ∀ key, ¬roots key) : setting.Works roots stored stored [] where
  nodup := .nil
  mem_iff other := by simp [none]
  stored_iff other := by simp

/-- Nothing is missing for a stored argument. -/
theorem hit (held : stored key) : setting.Works (· = key) stored stored [] where
  nodup := .nil
  mem_iff other := by simpa using fun misses => misses.1 held
  stored_iff other := by simp

/-- What is missing for an argument, and was for what the function is applied to, is the argument
itself and what was missing for those. -/
theorem run (missing : ¬stored key) (within : setting.Works roots stored stored' started)
    (calls : ∀ called, roots called ↔ setting.Calls key called)
    (acyclic : ∀ called, setting.Calls key called →
      ¬Relation.ReflTransGen setting.Calls called key)
    (kept : ∀ other, stored'' other ↔ stored' other ∨ other = key) :
    setting.Works (· = key) stored stored'' (started ++ [key]) where
  nodup := by
    have unstarted : key ∉ started := by
      intro again
      obtain ⟨called, root, misses⟩ := (within.mem_iff key).mp again
      exact acyclic called ((calls called).mp root) misses.reached
    exact List.nodup_append.mpr ⟨within.nodup, List.nodup_singleton key, by
      rintro other member _ last rfl
      exact unstarted (List.mem_singleton.mp last ▸ member)⟩
  mem_iff other := by
    simp only [List.mem_append, List.mem_singleton, within.mem_iff, calls, exists_eq_left]
    rw [Misses.iff_calls, and_iff_right missing, or_comm]
  stored_iff other := by
    simp only [kept, within.stored_iff, List.mem_append, List.mem_singleton, or_assoc]

/-- Work that is done one after another. -/
theorem trans (first : setting.Works roots stored stored' started)
    (second : setting.Works roots' stored' stored'' started') :
    setting.Works (fun key => roots key ∨ roots' key) stored stored'' (started' ++ started) where
  nodup := by
    refine List.nodup_append.mpr ⟨second.nodup, first.nodup, ?_⟩
    rintro other later _ earlier rfl
    obtain ⟨key, -, misses⟩ := (second.mem_iff other).mp later
    exact misses.missing ((first.stored_iff other).mpr (.inr earlier))
  mem_iff other := by
    have closed : ∀ key other, key ∈ started → setting.Misses stored key other →
        other ∈ started := by
      intro key other member misses
      obtain ⟨root, here, before⟩ := (first.mem_iff key).mp member
      exact (first.mem_iff other).mpr ⟨root, here, before.trans misses⟩
    have known : stored' = fun key => stored key ∨ key ∈ started :=
      funext fun key => propext (first.stored_iff key)
    rw [List.mem_append, second.mem_iff, known]
    have either : ∀ key, other ∈ started ∨
        setting.Misses (fun key => stored key ∨ key ∈ started) key other ↔
        other ∈ started ∨ setting.Misses stored key other := fun key => Misses.iff_of_stored closed
    constructor
    · rintro (⟨key, root, misses⟩ | member)
      · rcases (either key).mp (.inr misses) with member | misses
        · obtain ⟨root, here, misses⟩ := (first.mem_iff other).mp member
          exact ⟨root, .inl here, misses⟩
        · exact ⟨key, .inr root, misses⟩
      · obtain ⟨root, here, misses⟩ := (first.mem_iff other).mp member
        exact ⟨root, .inl here, misses⟩
    · rintro ⟨key, root | root, misses⟩
      · exact .inr ((first.mem_iff other).mpr ⟨key, root, misses⟩)
      · exact ((either key).mpr (.inr misses)).symm.imp_left fun misses => ⟨key, root, misses⟩
  stored_iff other := by
    rw [second.stored_iff, first.stored_iff, List.mem_append, or_assoc]
    exact or_congr_right or_comm

end Works

end Setting

end FunctionValues
