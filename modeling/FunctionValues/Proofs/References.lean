import FunctionValues.Proofs.Stages
import Mathlib.Algebra.GroupWithZero.Nat

/-!
# References to slots

The slot map of a cache and the phases of the threads there. `SlotMap.Traced` is the invariant: a
slot is referred to by the map, if the index leads to it, and by every phase that holds it, and by
nobody else; an application that has not come to its end finds the slot that it holds under its
argument; and a slot that is about to be cleared is held by nobody but the thread that clears it.
-/

namespace FunctionValues

namespace Phase

/-- How often a phase refers to a place. -/
def refers (place : Nat) (phase : Phase) : Nat :=
  phase.references.count place

/-- How often the phases of a thread refer to a place. -/
def allRefer (place : Nat) (phases : List Phase) : Nat :=
  (phases.map (refers place)).sum

/-- How often the phases of all threads refer to a place. -/
def referrers (threads : List (List Phase)) (place : Nat) : Nat :=
  (threads.map (allRefer place)).sum

@[simp]
theorem allRefer_nil (place : Nat) : allRefer place [] = 0 :=
  rfl

@[simp]
theorem allRefer_cons (place : Nat) (phase : Phase) (phases : List Phase) :
    allRefer place (phase :: phases) = phase.refers place + allRefer place phases := by
  simp [allRefer]

theorem refers_le_allRefer {phase : Phase} {phases : List Phase} (member : phase ∈ phases)
    (place : Nat) : phase.refers place ≤ allRefer place phases := by
  induction phases with
  | nil => cases member
  | cons head phases induction =>
      rw [allRefer_cons]
      rcases List.mem_cons.mp member with rfl | member
      · exact Nat.le_add_right ..
      · exact Nat.le_trans (induction member) (Nat.le_add_left ..)

theorem allRefer_le_referrers (threads : List (List Phase)) (thread : Thread) (place : Nat) :
    allRefer place (threads.getD thread []) ≤ referrers threads place := by
  induction threads generalizing thread with
  | nil => simp
  | cons phases threads induction =>
      cases thread with
      | zero => simp [referrers]
      | succ thread =>
          have rest := induction thread
          simp only [List.getD_cons_succ, referrers, List.map_cons, List.sum_cons] at rest ⊢
          omega

theorem refers_le_referrers {threads : List (List Phase)} {thread : Thread} {phase : Phase}
    (member : phase ∈ threads.getD thread []) (place : Nat) :
    phase.refers place ≤ referrers threads place :=
  Nat.le_trans (refers_le_allRefer member place) (allRefer_le_referrers threads thread place)

/-- Replacing the phases of one thread exchanges its references. -/
theorem referrers_set {threads : List (List Phase)} {thread : Thread} {phases : List Phase}
    (present : threads[thread]? = some phases) (next : List Phase) (place : Nat) :
    referrers (threads.set thread next) place + allRefer place phases =
      referrers threads place + allRefer place next := by
  induction threads generalizing thread with
  | nil => simp at present
  | cons head threads induction =>
      cases thread with
      | zero =>
          simp only [List.getElem?_cons_zero, Option.some.injEq] at present
          subst present
          simp only [referrers, List.set_cons_zero, List.map_cons, List.sum_cons]
          omega
      | succ thread =>
          have rest := induction (by simpa using present)
          simp only [referrers, List.set_cons_succ, List.map_cons, List.sum_cons] at rest ⊢
          omega

@[simp]
theorem allRefer_append (place : Nat) (phases rest : List Phase) :
    allRefer place (phases ++ rest) = allRefer place phases + allRefer place rest := by
  simp [allRefer]

theorem refers_of_leaving? {key : Value} {place : Nat} {phase : Phase}
    (leaving : phase.leaving? = some (key, place)) : phase.refers place = 1 := by
  unfold leaving? at leaving
  split at leaving <;> simp_all [refers, references, Stage.place?]

theorem refers_of_mapped? {key : Value} {place : Nat} {phase : Phase}
    (mapped : phase.mapped? = some (key, place)) : phase.refers place = 1 := by
  cases phase with
  | applying argument stage => cases stage <;> simp_all [mapped?, refers, references, Stage.place?]
  | computing argument other => simp_all [mapped?, refers, references]
  | counting progress => simp [mapped?] at mapped

theorem place?_of_mapped? {key argument : Value} {stage : Stage} {place : Nat}
    (mapped : (applying key stage).mapped? = some (argument, place)) :
    argument = key ∧ stage.place? = some place := by
  cases stage <;> simp_all [mapped?, Stage.place?]

theorem place?_of_leaving? {key argument : Value} {stage : Stage} {place : Nat}
    (leaving : (applying key stage).leaving? = some (argument, place)) :
    argument = key ∧ stage.place? = some place := by
  cases stage <;> simp_all [leaving?, Stage.place?]

theorem refers_of_clearing? {place : Nat} {phase : Phase}
    (clearing : phase.clearing? = some place) :
    phase.refers place = 1 ∧ phase.locksMap = true := by
  unfold clearing? at clearing
  split at clearing <;>
    simp_all [refers, references, Stage.place?, locksMap, Stage.locksMap]

end Phase

namespace SlotMap

open Phase

/-- A slot is referred to by the map and by the phases that hold it, who finds it there, and when it
is shared. -/
structure Traced (map : SlotMap) (threads : List (List Phase)) : Prop where
  holder (thread) :
    (threads.getD thread []).countP locksMap = if map.holder = some thread then 1 else 0
  distinct : map.Distinct
  nodup : map.places.Nodup
  bounded : ∀ place ∈ map.places, place < map.slots.length
  known {thread phase place} (member : phase ∈ threads.getD thread [])
    (held : place ∈ phase.references) : place < map.slots.length
  references (place) :
    (map.slot place).references = map.places.count place + referrers threads place
  mapped {thread phase key place} (member : phase ∈ threads.getD thread [])
    (mapped : phase.mapped? = some (key, place)) : map.find? key = some place
  leaving {thread phase key place} (member : phase ∈ threads.getD thread [])
    (leaving : phase.leaving? = some (key, place)) :
    map.find? key = some place ∨ place ∉ map.places ∧ referrers threads place = 1
  clearing {thread phase place} (member : phase ∈ threads.getD thread [])
    (clearing : phase.clearing? = some place) : referrers threads place = 1

namespace Traced

variable {map after : SlotMap} {threads : List (List Phase)} {thread : Thread}
  {before now rest : List Phase} {key : Value} {place : Nat}

/-- What the phases of a thread other than those it leaves behind are shared with. -/
private theorem shared (before next : List Phase)
    (present : threads[thread]? = some (before ++ rest)) (place : Nat) :
    referrers (threads.set thread (next ++ rest)) place =
      referrers (threads.set thread rest) place + allRefer place next := by
  have changed := referrers_set present (next ++ rest) place
  have left := referrers_set present rest place
  rw [allRefer_append, allRefer_append] at changed
  rw [allRefer_append] at left
  omega

private theorem before_shared (before : List Phase)
    (present : threads[thread]? = some (before ++ rest)) (place : Nat) :
    referrers threads place =
      referrers (threads.set thread rest) place + allRefer place before := by
  have left := referrers_set present rest place
  rw [allRefer_append] at left
  omega

/-- The sole holder of a slot keeps it alone when another phase changes without taking it. -/
private theorem sole (present : threads[thread]? = some (before ++ rest)) {other : Thread}
    {phase : Phase} (member : phase ∈ (threads.set thread rest).getD other [])
    (refers : phase.refers place = 1) (one : referrers threads place = 1)
    (shrinks : allRefer place now ≤ allRefer place before) :
    referrers (threads.set thread (now ++ rest)) place = 1 := by
  have elsewhere := refers_le_referrers member place
  have old := before_shared before present place
  have new := shared before now present place
  omega

/-- A step that leaves the index as it is. -/
private theorem update (before now : List Phase) (traced : map.Traced threads)
    (present : threads[thread]? = some (before ++ rest)) (index : after.index = map.index)
    (length : after.slots.length = map.slots.length)
    (references : ∀ place, (after.slot place).references + allRefer place before =
      (map.slot place).references + allRefer place now)
    (holder : (now ++ rest).countP locksMap = if after.holder = some thread then 1 else 0)
    (others : ∀ other, other ≠ thread → (after.holder = some other ↔ map.holder = some other))
    (grows : ∀ place, allRefer place before < allRefer place now →
      place ∈ map.places ∧ map.holder = none)
    (known : ∀ phase ∈ now, ∀ place ∈ phase.references, place < map.slots.length)
    (mapped : ∀ phase ∈ now, ∀ key place, phase.mapped? = some (key, place) →
      map.find? key = some place)
    (leaving : ∀ phase ∈ now, ∀ key place, phase.leaving? = some (key, place) →
      map.find? key = some place ∨
        place ∉ map.places ∧ referrers (threads.set thread (now ++ rest)) place = 1)
    (clearing : ∀ phase ∈ now, ∀ place, phase.clearing? = some place →
      referrers (threads.set thread (now ++ rest)) place = 1) :
    after.Traced (threads.set thread (now ++ rest)) := by
  have inside : thread < threads.length := (List.getElem?_eq_some_iff.mp present).1
  have places : after.places = map.places := by simp only [SlotMap.places, index]
  have find : ∀ key, after.find? key = map.find? key := by
    intro key
    simp only [find?, index]
  refine ⟨fun other => ?_, ?_, ?_, ?_, ?_, fun place => ?_, ?_, ?_, ?_⟩
  · by_cases here : thread = other
    · subst here
      rw [List.getD_eq_getElem?_getD, List.getElem?_set_self inside, Option.getD_some, holder]
    · rw [List.getD_eq_getElem?_getD, List.getElem?_set_ne here, ← List.getD_eq_getElem?_getD,
        traced.holder other]
      simp only [others other (Ne.symm here)]
  · simpa only [Distinct, index] using traced.distinct
  · simpa only [places] using traced.nodup
  · simpa only [places, length] using traced.bounded
  · intro other phase place member held
    rw [length]
    rcases mem_of_mem_set now inside member with ⟨-, member⟩ | member
    · exact known phase member place held
    · exact traced.known (mem_of_mem_elsewhere before present member) held
  · have changed := references place
    have old := before_shared before present place
    have new := shared before now present place
    rw [traced.references place] at changed
    rw [places]
    omega
  · intro other phase key place member at'
    rw [find]
    rcases mem_of_mem_set now inside member with ⟨-, member⟩ | member
    · exact mapped phase member key place at'
    · exact traced.mapped (mem_of_mem_elsewhere before present member) at'
  · intro other phase key place member leaves
    rw [find, places]
    rcases mem_of_mem_set now inside member with ⟨-, member⟩ | member
    · exact leaving phase member key place leaves
    · refine (traced.leaving (mem_of_mem_elsewhere before present member) leaves).imp id ?_
      rintro ⟨unmapped, one⟩
      refine ⟨unmapped, sole present member (refers_of_leaving? leaves) one ?_⟩
      by_contra more
      exact unmapped (grows place (Nat.lt_of_not_le more)).1
  · intro other phase place member clears
    rcases mem_of_mem_set now inside member with ⟨-, member⟩ | member
    · exact clearing phase member place clears
    · have old := mem_of_mem_elsewhere before present member
      refine sole present member (refers_of_clearing? clears).1 (traced.clearing old clears) ?_
      by_contra more
      have locked : 0 < (threads.getD other []).countP locksMap :=
        List.countP_pos_iff.mpr ⟨phase, old, (refers_of_clearing? clears).2⟩
      rw [traced.holder other, (grows place (Nat.lt_of_not_le more)).2] at locked
      simp at locked

/-- No phase refers to a place that there is not. -/
private theorem unreferred (traced : map.Traced threads) (absent : map.slots.length ≤ place) :
    place ∉ map.places ∧ referrers threads place = 0 := by
  have count := traced.references place
  rw [map.slot_of_length_le absent] at count
  change 0 = _ at count
  refine ⟨fun member => ?_, by omega⟩
  exact Nat.lt_irrefl _ (Nat.lt_of_lt_of_le (traced.bounded place member) absent)

/-- A step that neither takes nor frees the lock of the map. -/
private theorem holder_set {next phase : Phase} (traced : map.Traced threads)
    (present : threads[thread]? = some (phase :: rest)) (locks : next.locksMap = phase.locksMap)
    (other : Thread) :
    ((threads.set thread (next :: rest)).getD other []).countP locksMap =
      if map.holder = some other then 1 else 0 := by
  have inside : thread < threads.length := (List.getElem?_eq_some_iff.mp present).1
  rw [← traced.holder other]
  by_cases here : thread = other
  · subst here
    simp [List.getD_eq_getElem?_getD, List.getElem?_set_self inside, present, List.countP_cons,
      locks]
  · simp [List.getD_eq_getElem?_getD, List.getElem?_set_ne here]

/-- A slot that a phase refers to is not a new one. -/
private theorem ne_length {phase : Phase} (traced : map.Traced threads)
    (member : phase ∈ threads.getD thread []) (refers : phase.refers place = 1) :
    place ≠ map.slots.length := by
  have positive : 0 < phase.references.count place := Nat.lt_of_lt_of_eq Nat.one_pos refers.symm
  exact Nat.ne_of_lt (traced.known member (List.count_pos_iff.mp positive))

/-- An argument that has no slot gets one. -/
private theorem insert (traced : map.Traced threads)
    (present : threads[thread]? = some (.applying key .seek :: rest))
    (missing : map.find? key = none) :
    (map.obtain key).2.Traced
      (threads.set thread (.applying key (.check (map.obtain key).1) :: rest)) := by
  have inside : thread < threads.length := (List.getElem?_eq_some_iff.mp present).1
  have fresh := traced.unreferred (Nat.le_refl _)
  have found := map.find?_obtain key
  have places := places_obtain missing
  rw [show (map.obtain key).1 = map.slots.length by rw [obtain_of_missing missing]] at found ⊢
  have shares : ∀ place, referrers
      (threads.set thread (.applying key (.check map.slots.length) :: rest)) place =
      referrers threads place + if place = map.slots.length then 1 else 0 := by
    intro place
    have new := shared [.applying key .seek] [.applying key (.check map.slots.length)] present place
    have old := before_shared [_] present place
    simp only [List.singleton_append] at new
    rw [new, old]
    by_cases last : place = map.slots.length
    · simp [refers, Phase.references, Stage.place?, last]
    · simp [refers, Phase.references, Stage.place?, last, Ne.symm last]
  have same : ∀ place, place ≠ map.slots.length → referrers
      (threads.set thread (.applying key (.check map.slots.length) :: rest)) place =
      referrers threads place := by
    intro place different
    rw [shares, if_neg different, Nat.add_zero]
  refine ⟨fun other => ?_, traced.distinct.obtain missing, ?_, ?_, ?_, fun place => ?_, ?_, ?_, ?_⟩
  · rw [holder_obtain]
    refine traced.holder_set present ?_ other
    rfl
  · rw [places, List.nodup_append]
    refine ⟨traced.nodup, by simp, ?_⟩
    rintro place member _ last rfl
    rw [List.mem_singleton] at last
    exact fresh.1 (last ▸ member)
  · rw [places, length_obtain missing]
    intro place member
    rcases List.mem_append.mp member with member | member
    · exact Nat.lt_succ_of_lt (traced.bounded place member)
    · rw [List.mem_singleton] at member
      omega
  · intro other phase place member held
    rw [length_obtain missing]
    obtain rfl | member := eq_or_mem_of_mem_set inside member
    · simp only [Phase.references, Stage.place?, Option.toList_some, List.mem_singleton] at held
      omega
    · exact Nat.lt_succ_of_lt (traced.known (mem_of_mem_elsewhere [_] present member) held)
  · rw [places, List.count_append, references_obtain missing, shares]
    by_cases last : place = map.slots.length
    · subst last
      simp [List.count_eq_zero.mpr fresh.1, fresh.2]
    · rw [if_neg last, if_neg last, traced.references place]
      simp [Ne.symm last]
  · intro other phase argument place member at'
    obtain rfl | member := eq_or_mem_of_mem_set inside member
    · simp only [mapped?, Stage.place?, Option.map_some, Option.some.injEq, Prod.mk.injEq] at at'
      obtain ⟨rfl, rfl⟩ := at'
      exact found
    · exact map.find?_obtain_of_some key
        (traced.mapped (mem_of_mem_elsewhere [_] present member) at')
  · intro other phase argument place member leaves
    obtain rfl | member := eq_or_mem_of_mem_set inside member
    · simp [leaving?] at leaves
    · have before := mem_of_mem_elsewhere [_] present member
      have different := traced.ne_length before (refers_of_leaving? leaves)
      rw [places, same place different]
      refine (traced.leaving before leaves).imp (map.find?_obtain_of_some key) ?_
      rintro ⟨unmapped, one⟩
      exact ⟨by simp [unmapped, different], one⟩
  · intro other phase place member clears
    obtain rfl | member := eq_or_mem_of_mem_set inside member
    · simp [clearing?] at clears
    · have before := mem_of_mem_elsewhere [_] present member
      rw [same place (traced.ne_length before (refers_of_clearing? clears).1)]
      exact traced.clearing before clears

/-- Nobody else refers to a slot that is cleared, so no other application is for its argument. -/
private theorem find?_remove_elsewhere {outcome : Outcome} {other : Thread} {phase : Phase}
    {argument : Value} {reached : Nat} (traced : map.Traced threads)
    (present : threads[thread]? = some (.applying key (.clear place outcome) :: rest))
    (member : phase ∈ (threads.set thread rest).getD other []) (refers : phase.refers reached = 1)
    (reaches : map.find? argument = some reached) :
    (map.remove key).find? argument = some reached := by
  have head : Phase.applying key (.clear place outcome) ∈ threads.getD thread [] := by
    simp [present]
  have found : map.find? key = some place := traced.mapped head rfl
  have one : referrers threads place = 1 := traced.clearing head rfl
  rw [map.find?_remove_of_ne, reaches]
  intro equal
  rw [← map.find?_congr equal, found, Option.some.injEq] at reaches
  subst reaches
  have elsewhere := refers_le_referrers member place
  have old := before_shared [_] present place
  have self : allRefer place [.applying key (.clear place outcome)] = 1 := by
    simp [Phase.refers, Phase.references, Stage.place?]
  omega

/-- The sole holder of a slot takes its argument out of the map. -/
private theorem erase {outcome : Outcome} (traced : map.Traced threads)
    (present : threads[thread]? = some (.applying key (.clear place outcome) :: rest)) :
    (map.remove key).Traced
      (threads.set thread (.applying key (.leave place outcome) :: rest)) := by
  have inside : thread < threads.length := (List.getElem?_eq_some_iff.mp present).1
  have head : Phase.applying key (.clear place outcome) ∈ threads.getD thread [] := by
    simp [present]
  have found : map.find? key = some place := traced.mapped head rfl
  have one : referrers threads place = 1 := traced.clearing head rfl
  obtain ⟨front, back, entries, places⟩ := places_remove found
  obtain ⟨gone, nodup⟩ : place ∉ front ++ back ∧ (front ++ back).Nodup := by
    have nodup := traced.nodup
    rw [entries] at nodup
    exact List.nodup_cons.mp (List.nodup_middle.mp nodup)
  have sub : ∀ other ∈ (map.remove key).places, other ∈ map.places := by
    rw [places, entries]
    simp only [List.mem_append, List.mem_cons]
    tauto
  have same : ∀ other, referrers
      (threads.set thread (.applying key (.leave place outcome) :: rest)) other =
      referrers threads other := by
    intro other
    have old := before_shared [_] present other
    have new := shared [_] [.applying key (.leave place outcome)] present other
    have refers : allRefer other [.applying key (.leave place outcome)] =
        allRefer other [.applying key (.clear place outcome)] := rfl
    rw [List.singleton_append] at new
    omega
  refine ⟨fun other => ?_, traced.distinct.remove key, places ▸ nodup, ?_, ?_, fun other => ?_, ?_,
    ?_, ?_⟩
  · rw [holder_remove]
    refine traced.holder_set present ?_ other
    rfl
  · intro other member
    rw [length_remove]
    exact traced.bounded other (sub other member)
  · intro other phase held member refers
    rw [length_remove]
    obtain rfl | member := eq_or_mem_of_mem_set inside member
    · exact traced.known head refers
    · exact traced.known (mem_of_mem_elsewhere [_] present member) refers
  · have count := traced.references other
    rw [entries, List.count_append, List.count_cons] at count
    rw [same, places, List.count_append]
    have removed : (map.remove key).slot other = (map.release place).slot other := by
      simp only [remove, found]
      rfl
    rw [removed]
    by_cases here : place = other
    · subst here
      rw [release, map.slot_modify_self _ (traced.bounded place (find?_mem_places found))]
      simp only [beq_self_eq_true, if_true] at count ⊢
      omega
    · rw [release, map.slot_modify_of_ne _ here]
      simp only [beq_iff_eq, here, if_false] at count
      omega
  · intro other phase argument reached member at'
    obtain rfl | member := eq_or_mem_of_mem_set inside member
    · simp [mapped?] at at'
    · exact traced.find?_remove_elsewhere present member (refers_of_mapped? at')
        (traced.mapped (mem_of_mem_elsewhere [_] present member) at')
  · intro other phase argument reached member leaves
    rw [same]
    obtain rfl | member := eq_or_mem_of_mem_set inside member
    · simp only [leaving?, Option.some.injEq, Prod.mk.injEq] at leaves
      obtain ⟨rfl, rfl⟩ := leaves
      exact .inr ⟨places ▸ gone, one⟩
    · refine (traced.leaving (mem_of_mem_elsewhere [_] present member) leaves).imp
        (traced.find?_remove_elsewhere present member (refers_of_leaving? leaves)) ?_
      rintro ⟨unmapped, sole⟩
      exact ⟨fun member => unmapped (sub reached member), sole⟩
  · intro other phase reached member clears
    rw [same]
    obtain rfl | member := eq_or_mem_of_mem_set inside member
    · simp [clearing?] at clears
    · exact traced.clearing (mem_of_mem_elsewhere [_] present member) clears

/-- An argument that has a slot gets a reference to it. -/
private theorem refer (traced : map.Traced threads)
    (present : threads[thread]? = some (.applying key .seek :: rest))
    (found : map.find? key = some place) (free : map.holder = none) :
    (map.refer place).Traced (threads.set thread (.applying key (.check place) :: rest)) := by
  have within := traced.bounded place (find?_mem_places found)
  have count := traced.holder thread
  refine traced.update [_] [.applying key (.check place)] present rfl (by simp [SlotMap.refer])
    (fun other => ?_) ?_ (fun _ _ => .rfl) (fun other grown => ?_) ?_ ?_ ?_ ?_
  · by_cases here : place = other
    · subst here
      rw [SlotMap.refer, map.slot_modify_self _ within]
      simp [refers, Phase.references, Stage.place?]
    · rw [SlotMap.refer, map.slot_modify_of_ne _ here]
      simp [refers, Phase.references, Stage.place?, here]
  · change _ = if map.holder = some thread then 1 else 0
    rw [← count]
    simp [present, Phase.locksMap, Stage.locksMap]
  · have here : place = other := by
      by_contra different
      simp [refers, Phase.references, Stage.place?, different] at grown
    exact here ▸ ⟨find?_mem_places found, free⟩
  · simpa [Phase.references, Stage.place?] using within
  · simp only [List.mem_singleton, forall_eq]
    rintro _ _ ⟨⟩
    exact found
  · simp [leaving?]
  · simp [clearing?]

/-- A step of a phase that goes on referring to the same places. -/
private theorem turn {phase next : Phase} (traced : map.Traced threads)
    (present : threads[thread]? = some (phase :: rest)) (index : after.index = map.index)
    (length : after.slots.length = map.slots.length)
    (references : ∀ place, (after.slot place).references = (map.slot place).references)
    (kept : next.references = phase.references)
    (holder : (next :: rest).countP locksMap = if after.holder = some thread then 1 else 0)
    (others : ∀ other, other ≠ thread → (after.holder = some other ↔ map.holder = some other))
    (mapped : ∀ key place, next.mapped? = some (key, place) → map.find? key = some place)
    (leaving : ∀ key place, next.leaving? = some (key, place) →
      map.find? key = some place ∨ place ∉ map.places ∧ referrers threads place = 1)
    (clearing : ∀ place, next.clearing? = some place → referrers threads place = 1) :
    after.Traced (threads.set thread (next :: rest)) := by
  have refer : ∀ place, allRefer place [next] = allRefer place [phase] := by
    intro place
    simp [refers, kept]
  have same : ∀ place, referrers (threads.set thread ([next] ++ rest)) place =
      referrers threads place := by
    intro place
    rw [shared [phase] [next] present, before_shared [phase] present, refer]
  have member : phase ∈ threads.getD thread [] := by simp [present]
  refine traced.update [phase] [next] present index length
    (fun place => by rw [references, refer]) holder others (fun place grown => ?_) ?_ ?_ ?_ ?_
  · rw [refer] at grown
    exact absurd grown (Nat.lt_irrefl _)
  · simp only [List.mem_singleton, forall_eq, kept]
    exact fun place held => traced.known member held
  · simpa only [List.mem_singleton, forall_eq] using mapped
  · simpa only [List.mem_singleton, forall_eq, same] using leaving
  · simpa only [List.mem_singleton, forall_eq, same] using clearing

/-- A step of a phase that neither takes nor frees the lock of the map. -/
private theorem pass {phase next : Phase} (traced : map.Traced threads)
    (present : threads[thread]? = some (phase :: rest)) (index : after.index = map.index)
    (length : after.slots.length = map.slots.length) (held : after.holder = map.holder)
    (references : ∀ place, (after.slot place).references = (map.slot place).references)
    (kept : next.references = phase.references) (locks : next.locksMap = phase.locksMap)
    (mapped : ∀ key place, next.mapped? = some (key, place) → map.find? key = some place)
    (leaving : ∀ key place, next.leaving? = some (key, place) →
      map.find? key = some place ∨ place ∉ map.places ∧ referrers threads place = 1)
    (clearing : ∀ place, next.clearing? = some place → referrers threads place = 1) :
    after.Traced (threads.set thread (next :: rest)) := by
  have count := traced.holder thread
  have here : threads.getD thread [] = phase :: rest := by simp [present]
  refine traced.turn present index length references kept ?_ (fun other _ => by rw [held])
    mapped leaving clearing
  rw [held, ← count, here, List.countP_cons, List.countP_cons, locks]

/-- A step that changes a latch, and one that stores a result, leaves references as they are. -/
private theorem references_modify (map : SlotMap) (number place : Nat) {change : Slot → Slot}
    (keeps : ∀ slot : Slot, (change slot).references = slot.references) :
    ((map.modify number change).slot place).references = (map.slot place).references := by
  by_cases here : number = place
  · subst here
    by_cases present : number < map.slots.length
    · rw [map.slot_modify_self _ present, keeps]
    · have outside := map.slot_of_length_le (Nat.le_of_not_lt present)
      rw [outside, slot_of_length_le _ (by simpa using present)]
  · rw [map.slot_modify_of_ne _ here]

/-- A step between stages before the lock of the map is taken to remove a slot, or past it. -/
private theorem onward {stage next : Stage} (traced : map.Traced threads)
    (present : threads[thread]? = some (.applying key stage :: rest))
    (found : map.find? key = some place) (index : after.index = map.index)
    (length : after.slots.length = map.slots.length) (held : after.holder = map.holder)
    (references : ∀ place, (after.slot place).references = (map.slot place).references)
    (before : stage.place? = some place) (now : next.place? = some place)
    (unlocked : stage.locksMap = false) (unlocks : next.locksMap = false) :
    after.Traced (threads.set thread (.applying key next :: rest)) := by
  refine traced.pass present index length held references ?_ ?_ ?_ ?_ ?_
  · simp only [Phase.references, before, now]
  · simp only [Phase.locksMap, unlocked, unlocks]
  · intro argument other at'
    obtain ⟨rfl, reached⟩ := place?_of_mapped? at'
    rw [now, Option.some.injEq] at reached
    exact reached ▸ found
  · intro argument other leaves
    obtain ⟨rfl, reached⟩ := place?_of_leaving? leaves
    rw [now, Option.some.injEq] at reached
    exact .inl (reached ▸ found)
  · intro other clears
    have locks := (refers_of_clearing? clears).2
    simp [Phase.locksMap, unlocks] at locks

/-- The lock of the map is taken to remove a slot. -/
private theorem enter {outcome : Outcome} (traced : map.Traced threads)
    (present : threads[thread]? = some (.applying key (.enter place outcome) :: rest))
    (free : map.holder = none) :
    SlotMap.Traced { map with holder := some thread }
      (threads.set thread (.applying key (.inspect place outcome) :: rest)) := by
  have found : map.find? key = some place := traced.mapped
    (show Phase.applying key (.enter place outcome) ∈ threads.getD thread [] by simp [present]) rfl
  have count := traced.holder thread
  rw [show threads.getD thread [] = .applying key (.enter place outcome) :: rest by simp [present],
    List.countP_cons_of_neg Bool.false_ne_true, free] at count
  refine traced.turn present rfl rfl (fun _ => rfl) rfl ?_ (fun other different => ?_) ?_ ?_ ?_
  · rw [List.countP_cons_of_pos rfl, count]
    simp
  · simp [free, Ne.symm different]
  · rintro _ _ ⟨⟩
    exact found
  · rintro _ _ ⟨⟩
  · rintro _ ⟨⟩

/-- A slot that the map and one phase refer to is that phase's alone. -/
private theorem inspect {outcome : Outcome} (traced : map.Traced threads)
    (present : threads[thread]? = some (.applying key (.inspect place outcome) :: rest))
    (unshared : map.isUnshared key place = true) :
    map.Traced (threads.set thread (.applying key (.clear place outcome) :: rest)) := by
  have found : map.find? key = some place := traced.mapped
    (show Phase.applying key (.inspect place outcome) ∈ threads.getD thread [] by simp [present])
    rfl
  refine traced.pass present rfl rfl rfl (fun _ => rfl) rfl rfl ?_ ?_ ?_
  · rintro _ _ ⟨⟩
    exact found
  · rintro _ _ ⟨⟩
  · rintro _ ⟨⟩
    have references := traced.references place
    rw [List.count_eq_one_of_mem traced.nodup (find?_mem_places found)] at references
    simp only [isUnshared, Bool.and_eq_true, beq_iff_eq] at unshared
    omega

/-- A slot is not removed. -/
private theorem spare {stage : Stage} {outcome : Outcome} (traced : map.Traced threads)
    (present : threads[thread]? = some (.applying key stage :: rest))
    (found : map.find? key = some place) (before : stage.place? = some place)
    (locked : stage.locksMap = true) :
    map.Traced (threads.set thread (.applying key (.leave place outcome) :: rest)) := by
  refine traced.pass present rfl rfl rfl (fun _ => rfl) ?_ ?_ ?_ ?_ ?_
  · simp only [Phase.references, before]
    rfl
  · simp only [Phase.locksMap, locked]
    rfl
  · rintro _ _ ⟨⟩
  · rintro _ _ ⟨⟩
    exact .inl found
  · rintro _ ⟨⟩

/-- The lock of the map is freed. -/
private theorem leave {outcome : Outcome} (traced : map.Traced threads)
    (present : threads[thread]? = some (.applying key (.leave place outcome) :: rest)) :
    SlotMap.Traced { map with holder := none }
      (threads.set thread (.applying key (.drop place outcome) :: rest)) := by
  have leaving : map.find? key = some place ∨ place ∉ map.places ∧ referrers threads place = 1 :=
    traced.leaving (show Phase.applying key (.leave place outcome) ∈ threads.getD thread [] by
      simp [present]) rfl
  have count := traced.holder thread
  rw [show threads.getD thread [] = .applying key (.leave place outcome) :: rest by simp [present],
    List.countP_cons_of_pos rfl] at count
  have held : map.holder = some thread := by
    by_contra other
    rw [if_neg other] at count
    omega
  rw [if_pos held] at count
  refine traced.turn present rfl rfl (fun _ => rfl) rfl ?_ (fun other different => ?_) ?_ ?_ ?_
  · rw [List.countP_cons_of_neg Bool.false_ne_true]
    simpa using count
  · simp [held, Ne.symm different]
  · rintro _ _ ⟨⟩
  · rintro _ _ ⟨⟩
    exact leaving
  · rintro _ ⟨⟩

/-- A step of an application from one stage to another. -/
private theorem go {retention : Retention} {stage next : Stage} {event : Option Event}
    (traced : map.Traced threads)
    (present : threads[thread]? = some (.applying key stage :: rest))
    (moved : (Storage.slots map).advance retention thread key stage =
      .go (.slots after) event next) :
    after.Traced (threads.set thread (.applying key next :: rest)) := by
  have member : Phase.applying key stage ∈ threads.getD thread [] := by simp [present]
  have mapped : ∀ place, (Phase.applying key stage).mapped? = some (key, place) →
      map.find? key = some place := fun _ => traced.mapped member
  cases stage with
  | seek =>
      simp only [Storage.advance, Storage.seek] at moved
      split at moved
      next held => cases moved
      next free =>
        cases moved
        cases found : map.find? key with
        | none => exact traced.insert present found
        | some place =>
            rw [show map.obtain key = (place, map.refer place) by simp [obtain, found]]
            exact traced.refer present found (by simpa using free)
  | check place =>
      simp only [Storage.advance, Storage.check] at moved
      split at moved <;>
      · cases moved
        exact traced.onward present (mapped place rfl) rfl rfl rfl (fun _ => rfl) rfl rfl rfl rfl
  | lock place =>
      simp only [Storage.advance, Storage.lock] at moved
      split at moved
      · cases moved
      · cases moved
        exact traced.onward present (mapped place rfl) rfl (by simp) rfl
          (fun _ => references_modify map place _ fun _ => rfl) rfl rfl rfl rfl
  | look place =>
      simp only [Storage.advance, Storage.look] at moved
      split at moved <;>
      · cases moved
        exact traced.onward present (mapped place rfl) rfl rfl rfl (fun _ => rfl) rfl rfl rfl rfl
  | start place => cases moved
  | settle place outcome =>
      cases moved
      exact traced.onward present (mapped place rfl) rfl (by simp) rfl
        (fun _ => references_modify map place _ fun _ => rfl) rfl rfl rfl rfl
  | keep place outcome =>
      simp only [Storage.advance, Storage.keep] at moved
      split at moved
      · split at moved
        · cases moved
          exact traced.onward present (mapped place rfl) rfl (by simp) rfl
            (fun _ => references_modify map place _ fun _ => rfl) rfl rfl rfl rfl
        · cases moved
          exact traced.onward present (mapped place rfl) rfl rfl rfl (fun _ => rfl) rfl rfl rfl rfl
      · cases moved
        exact traced.onward present (mapped place rfl) rfl rfl rfl (fun _ => rfl) rfl rfl rfl rfl
  | unlock place outcome vacant =>
      cases moved
      refine traced.onward present (mapped place rfl) rfl (by simp) rfl
        (fun _ => references_modify map place _ fun _ => rfl) rfl ?_ rfl ?_ <;>
      split <;> rfl
  | enter place outcome =>
      simp only [Storage.advance, Storage.enter] at moved
      split at moved
      next held => cases moved
      next free =>
        cases moved
        exact traced.enter present (by simpa using free)
  | inspect place outcome =>
      cases moved
      by_cases unshared : map.isUnshared key place = true
      · rw [if_pos unshared]
        exact traced.inspect present unshared
      · rw [if_neg unshared]
        exact traced.spare present (mapped place rfl) rfl rfl
  | clear place outcome =>
      simp only [Storage.advance, Storage.clear] at moved
      split at moved
      · cases moved
      · split at moved
        · cases moved
          exact traced.erase present
        · cases moved
          exact traced.spare present (mapped place rfl) rfl rfl
  | leave place outcome =>
      cases moved
      exact traced.leave present
  | drop place outcome => cases moved

/-- A step between phases that are not about an argument of the map. -/
private theorem alter (before now : List Phase) (traced : map.Traced threads)
    (present : threads[thread]? = some (before ++ rest)) (index : after.index = map.index)
    (length : after.slots.length = map.slots.length) (held : after.holder = map.holder)
    (references : ∀ place, (after.slot place).references + allRefer place before =
      (map.slot place).references + allRefer place now)
    (unlocked : ∀ phase ∈ before, phase.locksMap = false)
    (apart : ∀ phase ∈ now,
      phase.locksMap = false ∧ phase.mapped? = none ∧ phase.leaving? = none)
    (grows : ∀ place, allRefer place before < allRefer place now →
      place ∈ map.places ∧ map.holder = none)
    (known : ∀ phase ∈ now, ∀ place ∈ phase.references, place < map.slots.length) :
    after.Traced (threads.set thread (now ++ rest)) := by
  have count := traced.holder thread
  have here : threads.getD thread [] = before ++ rest := by simp [present]
  have none : before.countP locksMap = 0 := by simpa [List.countP_eq_zero] using unlocked
  have nothing : now.countP locksMap = 0 := by
    simpa [List.countP_eq_zero] using fun phase member => (apart phase member).1
  refine traced.update before now present index length references ?_ (fun other _ => by rw [held])
    grows known ?_ ?_ ?_
  · rw [held, ← count, here, List.countP_append, List.countP_append, none, nothing]
  · intro phase member key place mapped
    rw [(apart phase member).2.1] at mapped
    cases mapped
  · intro phase member key place leaving
    rw [(apart phase member).2.2] at leaving
    cases leaving
  · intro phase member place clearing
    have locks := (refers_of_clearing? clearing).2
    rw [(apart phase member).1] at locks
    cases locks

/-- Giving up a reference that a phase holds. -/
private theorem references_release {phase : Phase} (traced : map.Traced threads)
    (member : phase ∈ threads.getD thread []) (held : place ∈ phase.references) (other : Nat) :
    ((map.release place).slot other).references + (if place = other then 1 else 0) =
      (map.slot other).references := by
  have within := traced.known member held
  by_cases here : place = other
  · subst here
    have positive : 0 < phase.refers place := List.count_pos_iff.mpr held
    have shares := refers_le_referrers member place
    have references := traced.references place
    rw [release, map.slot_modify_self _ within]
    simp only [if_true]
    omega
  · rw [release, map.slot_modify_of_ne _ here, if_neg here, Nat.add_zero]

private theorem references_foldl_refer {map : SlotMap} {numbers : List Nat}
    (known : ∀ number ∈ numbers, number < map.slots.length) (place : Nat) :
    ((numbers.foldl SlotMap.refer map).slot place).references =
      (map.slot place).references + numbers.count place := by
  induction numbers generalizing map with
  | nil => rfl
  | cons number numbers induction =>
      have within := known number List.mem_cons_self
      have rest : ∀ other ∈ numbers, other < (map.refer number).slots.length := by
        intro other member
        simpa [SlotMap.refer] using known other (List.mem_cons_of_mem _ member)
      rw [List.foldl_cons, induction rest, List.count_cons]
      by_cases here : number = place
      · subst here
        rw [SlotMap.refer, map.slot_modify_self _ within]
        simp only [beq_self_eq_true, if_true]
        omega
      · rw [SlotMap.refer, map.slot_modify_of_ne _ here]
        simp [here]

/-- A step of a thread that is counting results. -/
private theorem tally {counting next : Counting} (traced : map.Traced threads)
    (present : threads[thread]? = some (.counting counting :: rest))
    (moved : (Storage.slots map).count counting = .go (.slots after) next) :
    after.Traced (threads.set thread (.counting next :: rest)) := by
  have member : Phase.counting counting ∈ threads.getD thread [] := by simp [present]
  cases counting with
  | collect traversal =>
      simp only [Storage.count] at moved
      split at moved
      next held => cases moved
      next free =>
        cases moved
        have perm : (traversal.arrange map.places).Perm map.places := traversal.perm map.places
        have bounded : ∀ place ∈ traversal.arrange map.places, place < map.slots.length :=
          fun place member => traced.bounded place (perm.mem_iff.mp member)
        obtain ⟨index, holder, length⟩ := foldl_refer map (traversal.arrange map.places)
        refine traced.alter [_] [.counting (.visit (traversal.arrange map.places) [] 0)] present
          index length holder (fun place => ?_) (by simp [Phase.locksMap])
          (by simp [Phase.locksMap, mapped?, leaving?]) (fun place grown => ?_) ?_
        · have references := references_foldl_refer bounded place
          simp only [SlotMap.places] at references
          rw [references]
          simp [refers, Phase.references, SlotMap.places]
        · have positive : 0 < (traversal.arrange map.places).count place := by
            simpa [refers, Phase.references] using grown
          exact ⟨perm.mem_iff.mp (List.count_pos_iff.mp positive), by simpa using free⟩
        · simpa [Phase.references] using bounded
  | visit ahead behind found =>
      have same : map = after ∧ ∀ place,
          (Phase.counting next).refers place = (ahead ++ behind).count place := by
        cases ahead with
        | nil =>
            cases moved
            exact ⟨rfl, fun place => by simp [refers, Phase.references]⟩
        | cons number ahead =>
            simp only [Storage.count] at moved
            split at moved
            · cases moved
            · cases moved
              refine ⟨rfl, fun place => ?_⟩
              simp only [refers, Phase.references, List.count_append, List.count_cons]
              omega
      obtain ⟨rfl, counts⟩ := same
      have refer : ∀ place, allRefer place [.counting next] =
          allRefer place [.counting (.visit ahead behind found)] := by
        intro place
        rw [allRefer_cons, allRefer_cons, counts]
        rfl
      refine traced.alter [_] [.counting next] present rfl rfl rfl (fun place => by rw [refer])
        (by simp [Phase.locksMap]) (by simp [Phase.locksMap, mapped?, leaving?])
        (fun place grown => ?_) ?_
      · rw [refer] at grown
        exact absurd grown (Nat.lt_irrefl _)
      · simp only [List.mem_singleton, forall_eq]
        intro place held
        have positive : 0 < (Phase.counting next).refers place := List.count_pos_iff.mpr held
        rw [counts] at positive
        exact traced.known member (List.count_pos_iff.mp positive)
  | drop held found =>
      cases held with
      | nil => cases moved
      | cons place held =>
          cases moved
          have releases := traced.references_release member
            (show place ∈ (Phase.counting (.drop (place :: held) found)).references by
              simp [Phase.references])
          refine traced.alter [_] [.counting (.drop held found)] present rfl
            (by simp [release]) rfl (fun other => ?_) (by simp [Phase.locksMap])
            (by simp [Phase.locksMap, mapped?, leaving?]) (fun other grown => ?_) ?_
          · have count := releases other
            simp only [allRefer_cons, allRefer_nil, refers, Phase.references, List.count_cons,
              beq_iff_eq]
            omega
          · simp only [allRefer_cons, allRefer_nil, refers, Phase.references, List.count_cons]
              at grown
            omega
          · simp only [List.mem_singleton, forall_eq, Phase.references]
            intro other kept
            exact traced.known member (List.mem_cons_of_mem place kept)

/-- A step of a thread keeps the references to slots traced. -/
theorem moves {retention : Retention} {phases phases' : List Phase} {marks : List Mark}
    (traced : map.Traced threads)
    (present : threads[thread]? = some phases)
    (moves : Phase.Moves retention thread (.slots map) phases marks (.slots after) phases') :
    after.Traced (threads.set thread phases') := by
  cases moves with
  | stay => exact traced.alter [] [] present rfl rfl rfl (by simp) (by simp) (by simp) (by simp) (by simp)
  | apply key =>
      exact traced.alter [] [_] present rfl rfl rfl (by simp [refers, Phase.references, Stage.place?])
        (by simp) (by simp [Phase.locksMap, Stage.locksMap, mapped?, leaving?, Stage.place?])
        (by simp [refers, Phase.references, Stage.place?])
        (by simp [Phase.references, Stage.place?])
  | count =>
      exact traced.alter [] [_] present rfl rfl rfl (by simp [refers, Phase.references])
        (by simp) (by simp [Phase.locksMap, mapped?, leaving?])
        (by simp [refers, Phase.references]) (by simp [Phase.references])
  | go moved => exact traced.go present moved
  | @compute _ key _ _ place moved =>
      obtain ⟨rfl, modified⟩ := Storage.eq_start_of_compute moved
      cases modified
      have found : map.find? key = some place := traced.mapped
        (show Phase.applying key (.start place) ∈ threads.getD thread [] by simp [present]) rfl
      refine traced.pass present rfl (by simp) rfl
        (fun _ => references_modify map place _ fun _ => rfl) rfl rfl ?_ ?_ ?_
      · rintro _ _ ⟨⟩
        exact found
      · rintro _ _ ⟨⟩
      · rintro _ ⟨⟩
  | @settle _ key place outcome =>
      have found : map.find? key = some place := traced.mapped
        (show Phase.computing key place ∈ threads.getD thread [] by simp [present]) rfl
      refine traced.pass present rfl rfl rfl (fun _ => rfl) rfl rfl ?_ ?_ ?_
      · rintro _ _ ⟨⟩
        exact found
      · rintro _ _ ⟨⟩
      · rintro _ ⟨⟩
  | @finish _ key _ _ outcome moved =>
      obtain ⟨place, rfl, dropped⟩ := Storage.eq_drop_of_finish moved
      cases dropped
      have releases := traced.references_release
        (show Phase.applying key (.drop place outcome) ∈ threads.getD thread [] by simp [present])
        (show place ∈ (Phase.applying key (.drop place outcome)).references by
          simp [Phase.references, Stage.place?])
      refine traced.alter [_] [] present rfl (by simp [release]) rfl (fun other => ?_)
        (by simp [Phase.locksMap, Stage.locksMap]) (by simp) (by simp) (by simp)
      rw [← releases other]
      simp [refers, Phase.references, Stage.place?, List.count_singleton]
  | tally moved => exact traced.tally present moved
  | @counted _ counting number moved =>
      have none : counting = .drop [] number := by
        cases counting with
        | collect traversal =>
            simp only [Storage.count] at moved
            split at moved <;> cases moved
        | visit ahead behind found =>
            cases ahead with
            | nil => cases moved
            | cons place ahead =>
                simp only [Storage.count] at moved
                split at moved <;> cases moved
        | drop held found =>
            cases held with
            | nil =>
                cases moved
                rfl
            | cons place held => cases moved
      subst none
      exact traced.alter [_] [] present rfl rfl rfl (by simp [refers, Phase.references])
        (by simp [Phase.locksMap]) (by simp) (by simp) (by simp)

/-- Nobody refers to the slots of a map that has none. -/
theorem of_idle {threads : List (List Phase)}
    (idle : ∀ phases ∈ threads, ∀ phase ∈ phases, phase.isFresh = true) :
    SlotMap.Traced {} threads := by
  have nothing : ∀ {phase : Phase}, phase.isFresh = true → phase.references = [] ∧
      phase.locksMap = false ∧ phase.mapped? = none ∧ phase.leaving? = none := by
    intro phase fresh
    unfold Phase.isFresh at fresh
    split at fresh <;>
      simp_all [Phase.references, Phase.locksMap, Stage.locksMap, Stage.place?, mapped?, leaving?]
  have shared : ∀ place, referrers threads place = 0 := by
    intro place
    simp only [referrers, allRefer, List.sum_eq_zero_iff_forall_eq_nat, List.mem_map,
      forall_exists_index, and_imp, forall_apply_eq_imp_iff₂]
    intro phases inside phase member
    simp [refers, (nothing (idle phases inside phase member)).1]
  refine ⟨fun thread => ?_, List.Pairwise.nil, List.nodup_nil, by simp [SlotMap.places], ?_,
    fun place => ?_, ?_, ?_, ?_⟩
  · simpa [List.countP_eq_zero] using fun phase member => (nothing (isFresh_of_idle idle member)).2.1
  · intro thread phase place member held
    rw [(nothing (isFresh_of_idle idle member)).1] at held
    cases held
  · rw [shared]
    rfl
  · intro thread phase key place member mapped
    rw [(nothing (isFresh_of_idle idle member)).2.2.1] at mapped
    cases mapped
  · intro thread phase key place member leaving
    rw [(nothing (isFresh_of_idle idle member)).2.2.2] at leaving
    cases leaving
  · intro thread phase place member clearing
    have locks := (refers_of_clearing? clearing).2
    rw [(nothing (isFresh_of_idle idle member)).2.1] at locks
    cases locks

/-- Threads that refer to nothing may be replaced by others that refer to nothing. -/
theorem restart {threads' : List (List Phase)} (traced : map.Traced threads)
    (idle : ∀ phases ∈ threads, phases = []) (idle' : ∀ phases ∈ threads', phases = []) :
    map.Traced threads' := by
  have same : ∀ thread, threads'.getD thread [] = threads.getD thread [] := by
    intro thread
    rw [getD_of_idle idle, getD_of_idle idle']
  have nothing : ∀ {threads : List (List Phase)} place, (∀ phases ∈ threads, phases = []) →
      referrers threads place = 0 := by
    intro threads place idle
    simp only [referrers, List.sum_eq_zero_iff_forall_eq_nat, List.mem_map, forall_exists_index,
      and_imp, forall_apply_eq_imp_iff₂]
    intro phases member
    rw [idle phases member, allRefer_nil]
  have shared : ∀ place, referrers threads' place = referrers threads place := by
    intro place
    rw [nothing place idle, nothing place idle']
  refine ⟨?_, traced.distinct, traced.nodup, traced.bounded, ?_, ?_, ?_, ?_, ?_⟩
  · simpa only [same] using traced.holder
  · intro thread phase place member
    exact traced.known (same thread ▸ member)
  · simpa only [shared] using traced.references
  · intro thread phase key place member
    exact traced.mapped (same thread ▸ member)
  · intro thread phase key place member
    rw [shared]
    exact traced.leaving (same thread ▸ member)
  · intro thread phase place member
    rw [shared]
    exact traced.clearing (same thread ▸ member)

end Traced

end SlotMap

end FunctionValues
