import FunctionValues.Proofs.Ledgers
import Mathlib.Data.Fintype.Card
import Mathlib.Data.Fintype.EquivFin
import Mathlib.Data.Multiset.Bind
import Mathlib.Order.WellFounded

/-!
# Balanced accounts

The accounts of a memoized function come out the same however its threads were interleaved. How often
the function was applied to an argument follows from how often it ran for greater ones, and how often
it ran for an argument from how often it was applied to it: every time if the result is not to be kept,
and once at most if it is.
-/

namespace FunctionValues

open scoped Classical

/-- The result that is stored in a cache for an argument. -/
def System.stored? (system : System) (number : Nat) (key : Value) : Option Result :=
  system.world.caches[number]?.bind (·.storage.stored? key)

namespace Setting

variable {setting : Setting} {less : Value → Value → Prop}

/-- What the log says is no application. -/
theorem count_applied_ofLog (entries : List Entry) (key : Value) :
    (Deed.ofLog entries).count (.applied key) = 0 := by
  rw [Multiset.count_eq_zero]
  intro member
  cases Deed.key?_of_mem_ofLog member

/-- While the function runs for an argument it is applied only to smaller ones. -/
theorem less_of_applied (pure : setting.IsPure) (descends : setting.Descends less)
    {key other : Value} {outcome : Outcome} {deeds : Multiset Deed} (exact : key.isExact = true)
    (yields : setting.Yields key outcome deeds)
    (applied : 0 < (setting.tale key).count (.applied other)) : less other key := by
  rw [tale_eq yields, account, Multiset.count_add, Multiset.count_add, count_applied_ofLog,
    count_applied_ofLog, Nat.zero_add, Nat.zero_add, Multiset.count_pos] at applied
  obtain ⟨open', frames, before, leads⟩ :=
    yields.exists_of_applied pure (pure.start exact) applied
  have policy : setting.policy = .perKey := by
    cases policy : setting.policy with
    | perKey => rfl
    | global => simp [refuses, policy] at open'
  exact descends policy key other frames before exact leads

namespace Tally.Fits

variable {tally tally' : Tally}

/-- How often the function ran for an argument follows from how often it was applied to it. -/
private theorem runs_le (fits : tally.Fits setting) (fits' : tally'.Fits setting) {key : Value}
    (applied : tally.hits.count key + tally.runs.count key =
      tally'.hits.count key + tally'.runs.count key) :
    tally.runs.count key ≤ tally'.runs.count key := by
  by_cases ran : key ∈ tally.runs
  · have unheld : ¬(setting.held? key).isSome = true := by simp [(fits.runs key ran).2.1]
    by_cases kept : ∃ result, setting.Keeps key result
    · obtain ⟨result, keeps⟩ := kept
      have ran' : key ∈ tally'.runs := by
        by_contra unknown
        have unseen : key ∉ tally'.hits := fun seen =>
          unknown ((fits'.hits key seen).resolve_left unheld).1
        have positive := Multiset.count_pos.mpr ran
        rw [Multiset.count_eq_zero_of_notMem unknown,
          Multiset.count_eq_zero_of_notMem unseen] at applied
        omega
      exact (fits.once key result keeps).trans (Multiset.count_pos.mpr ran')
    · have unseen : key ∉ tally'.hits := fun seen =>
        kept ((fits'.hits key seen).resolve_left unheld).2
      rw [Multiset.count_eq_zero_of_notMem unseen] at applied
      omega
  · rw [Multiset.count_eq_zero_of_notMem ran]
    exact Nat.zero_le _

theorem runs_eq (fits : tally.Fits setting) (fits' : tally'.Fits setting) {key : Value}
    (applied : tally.hits.count key + tally.runs.count key =
      tally'.hits.count key + tally'.runs.count key) :
    tally.runs.count key = tally'.runs.count key :=
  Nat.le_antisymm (runs_le fits fits' applied) (runs_le fits' fits applied.symm)

end Tally.Fits

/-- How often the function was applied to an argument: by the threads, and by its own runs. -/
theorem count_of_balance {tally : Tally} {entries : List Entry} {books : Multiset Deed}
    (balance : Deed.ofLog entries + (tally.hits + tally.runs).map .applied =
      books + (tally.runs.map setting.tale).sum + tally.hits.map setting.found) (key : Value) :
    tally.hits.count key + tally.runs.count key = books.count (.applied key) +
      (tally.runs.map fun other => (setting.tale other).count (.applied key)).sum := by
  have injective : Function.Injective Deed.applied := by
    intro first second same
    cases same
    rfl
  have unfound : Deed.applied key ∉ tally.hits.map setting.found := by
    simp [Setting.found]
  have counted := congrArg (Multiset.count (Deed.applied key)) balance
  rw [Multiset.count_add, Multiset.count_add, Multiset.count_add, count_applied_ofLog,
    Multiset.count_map_eq_count' _ _ injective, Multiset.count_eq_zero_of_notMem unfound,
    Multiset.count_add, Multiset.count_sum] at counted
  omega

/-- Accounts that balance for the same deeds of the threads are the same. -/
theorem Tally.eq_of_balance {tally tally' : Tally} {entries entries' : List Entry}
    {books : Multiset Deed} (pure : setting.IsPure) (founded : WellFounded less)
    (descends : setting.Descends less) (fits : tally.Fits setting) (fits' : tally'.Fits setting)
    (balance : Deed.ofLog entries + (tally.hits + tally.runs).map .applied =
      books + (tally.runs.map setting.tale).sum + tally.hits.map setting.found)
    (balance' : Deed.ofLog entries' + (tally'.hits + tally'.runs).map .applied =
      books + (tally'.runs.map setting.tale).sum + tally'.hits.map setting.found) :
    tally = tally' := by
  have applied := count_of_balance balance
  have applied' := count_of_balance balance'
  let known : Finset Value := (tally.runs + tally'.runs).toFinset
  have smaller : ∀ other ∈ known, ∀ key, 0 < (setting.tale other).count (.applied key) →
      less key other := by
    intro other member key
    rcases Multiset.mem_add.mp (Multiset.mem_toFinset.mp member) with ran | ran
    · obtain ⟨exact, -, outcome, deeds, yields⟩ := fits.runs other ran
      exact less_of_applied pure descends exact yields
    · obtain ⟨exact, -, outcome, deeds, yields⟩ := fits'.runs other ran
      exact less_of_applied pure descends exact yields
  have total : ∀ runs : Multiset Value, (∀ key ∈ runs, key ∈ known) → ∀ key,
      (runs.map fun other => (setting.tale other).count (.applied key)).sum =
        ∑ other ∈ known, runs.count other * (setting.tale other).count (.applied key) := by
    intro runs inside key
    rw [Finset.sum_multiset_map_count]
    refine Finset.sum_subset (fun other member => inside other (Multiset.mem_toFinset.mp member)) ?_
    intro other _ outside
    rw [Multiset.count_eq_zero_of_notMem (by simpa using outside), zero_nsmul]
  -- The arguments are finitely many, so the greatest may be compared first.
  have order : WellFounded fun first second : known => Relation.TransGen less second first := by
    have : IsTrans known fun first second => Relation.TransGen less second first :=
      ⟨fun _ _ _ first second => second.trans first⟩
    have : Std.Irrefl fun first second : known => Relation.TransGen less (second : Value) first :=
      ⟨fun key => founded.transGen.irrefl.irrefl key.1⟩
    exact Finite.wellFounded_of_trans_of_irrefl _
  have counts : ∀ key : known, tally.runs.count key.1 = tally'.runs.count key.1 := by
    intro key
    induction key using order.induction with
    | _ key induction =>
      refine fits.runs_eq fits' ?_
      rw [applied, applied', total tally.runs (by simp [known]; tauto),
        total tally'.runs (by simp [known]; tauto)]
      congr 1
      refine Finset.sum_congr rfl fun other member => ?_
      rcases Nat.eq_zero_or_pos ((setting.tale other).count (.applied key.1)) with none | some
      · rw [none, Nat.mul_zero, Nat.mul_zero]
      · rw [induction ⟨other, member⟩ (.single (smaller other member key some))]
  have runs : tally.runs = tally'.runs := by
    refine Multiset.ext' fun key => ?_
    by_cases member : key ∈ known
    · exact counts ⟨key, member⟩
    · simp only [known, Multiset.mem_toFinset, Multiset.mem_add, not_or] at member
      rw [Multiset.count_eq_zero_of_notMem member.1, Multiset.count_eq_zero_of_notMem member.2]
  have hits : tally.hits = tally'.hits := by
    refine Multiset.ext' fun key => ?_
    have same := applied key
    rw [runs, ← applied'] at same
    exact Nat.add_right_cancel same
  cases tally
  cases tally'
  simp_all

/-- The same is stored after the same runs. -/
theorem Holds.stored_eq {runs : Multiset Value} {storage after : Storage}
    (holds : setting.Holds runs storage) (holds' : setting.Holds runs after) (key : Value) :
    (storage.stored? key).map Result.anonymous = (after.stored? key).map Result.anonymous :=
  Option.ext fun result => (holds.stored key result).trans (holds'.stored key result).symm

namespace Ledger

variable {tasks : List (List Computation)} {earlier : List Entry} {tally tally' : Tally}
  {books books' : Thread → Multiset Deed} {system system' : System}

/-- When all threads are done every computation has ended by its course. -/
theorem ended (ledger : setting.Ledger tasks earlier tally books system)
    (done : ∀ worker ∈ system.workers, worker.isDone = true) {thread : Thread} {worker : Worker}
    (present : system.workers[thread]? = some worker) :
    ∃ computations, tasks[thread]? = some computations ∧
      setting.Ended computations worker.outcomes (books thread) := by
  obtain ⟨computations, mine, tracks⟩ := ledger.tracks present
  have idle := done worker (List.mem_of_getElem? present)
  refine ⟨computations, mine, ?_⟩
  generalize books thread = deeds at tracks ⊢
  cases tracks with
  | @idle before pending outcomes _ split ended =>
      cases pending with
      | nil => rwa [split, List.append_nil]
      | cons computation pending => simp [Worker.isDone] at idle
  | busy => simp [Worker.isDone] at idle

/-- Threads that are done have done the same, in whatever order they made steps. -/
theorem agree (ledger : setting.Ledger tasks earlier tally books system)
    (ledger' : setting.Ledger tasks earlier tally' books' system')
    (done : ∀ worker ∈ system.workers, worker.isDone = true)
    (done' : ∀ worker ∈ system'.workers, worker.isDone = true) (pure : setting.IsPure)
    (founded : WellFounded less) (descends : setting.Descends less) :
    system.outcomes.map (·.map Outcome.anonymous) =
        system'.outcomes.map (·.map Outcome.anonymous) ∧
      (system.world.log.filterMap Entry.unordered?).Perm
        (system'.world.log.filterMap Entry.unordered?) ∧
      ∀ key, (system.stored? setting.number key).map Result.anonymous =
        (system'.stored? setting.number key).map Result.anonymous := by
  have size := ledger.size.trans ledger'.size.symm
  have both : ∀ thread, thread < tasks.length → ∃ worker worker',
      system.workers[thread]? = some worker ∧ system'.workers[thread]? = some worker' ∧
      worker.outcomes.map Outcome.anonymous = worker'.outcomes.map Outcome.anonymous ∧
      books thread = books' thread := by
    intro thread inside
    obtain ⟨worker, present⟩ : ∃ worker, system.workers[thread]? = some worker :=
      ⟨_, List.getElem?_eq_getElem (ledger.size ▸ inside)⟩
    obtain ⟨worker', present'⟩ : ∃ worker', system'.workers[thread]? = some worker' :=
      ⟨_, List.getElem?_eq_getElem (ledger'.size ▸ inside)⟩
    obtain ⟨computations, mine, ended⟩ := ledger.ended done present
    obtain ⟨computations', mine', ended'⟩ := ledger'.ended done' present'
    obtain rfl := Option.some.inj (mine.symm.trans mine')
    exact ⟨worker, worker', present, present', ended.unique ended'⟩
  have same : ∑ thread ∈ Finset.range tasks.length, books thread =
      ∑ thread ∈ Finset.range tasks.length, books' thread := by
    refine Finset.sum_congr rfl fun thread member => ?_
    obtain ⟨_, _, _, _, _, deeds⟩ := both thread (Finset.mem_range.mp member)
    exact deeds
  obtain ⟨entries, log, balance⟩ := ledger.balance
  obtain ⟨entries', log', balance'⟩ := ledger'.balance
  rw [← same] at balance'
  obtain rfl := Tally.eq_of_balance pure founded descends ledger.fits ledger'.fits balance balance'
  refine ⟨?_, ?_, ?_⟩
  · refine List.ext_getElem? fun thread => ?_
    simp only [System.outcomes, List.map_map, List.getElem?_map]
    rcases Nat.lt_or_ge thread tasks.length with inside | outside
    · obtain ⟨worker, worker', present, present', outcomes, -⟩ := both thread inside
      simp [present, present', outcomes]
    · rw [List.getElem?_eq_none (ledger.size ▸ outside),
        List.getElem?_eq_none (ledger'.size ▸ outside)]
  · have deeds := add_right_cancel (balance.trans balance'.symm)
    have injective : Function.Injective Deed.noted := by
      intro first second same
      cases same
      rfl
    have perm := (List.map_perm_map_iff injective).mp (Multiset.coe_eq_coe.mp deeds)
    rw [log, log', List.filterMap_append, List.filterMap_append]
    exact perm.append_right _
  · intro key
    obtain ⟨storage, serves, holds⟩ := ledger.serves
    obtain ⟨storage', serves', holds'⟩ := ledger'.serves
    simpa [System.stored?, serves.found, serves'.found] using holds.stored_eq holds' key

end Ledger

end Setting

end FunctionValues
