/-!
# Tables of code points

A class of characters is written down as the intervals that its code points form. The intervals of
a table are in ascending order, so a search ends at the first interval beyond the code point.
-/

namespace FunctionValues

/-- The intervals of a class of characters: the first and the last code point of each. -/
abbrev CodeTable := List (Nat × Nat)

namespace CodeTable

/-- Whether the intervals of a table ascend from a bound on, without meeting. -/
def ascendsFrom (bound : Nat) : CodeTable → Bool
  | [] => true
  | (first, last) :: rest =>
    decide (bound ≤ first) && decide (first ≤ last) && ascendsFrom (last + 1) rest

/-- Search an ascending table for a code point. -/
def covers (code : Nat) : CodeTable → Bool
  | [] => false
  | (first, last) :: rest => decide (first ≤ code) && (decide (code ≤ last) || covers code rest)

/-- The number of code points in a table. -/
def size : CodeTable → Nat
  | [] => 0
  | (first, last) :: rest => last + 1 - first + size rest

theorem le_first_of_mem {table : CodeTable} {bound : Nat} {interval : Nat × Nat}
    (ascends : table.ascendsFrom bound = true) (mem : interval ∈ table) : bound ≤ interval.1 := by
  induction table generalizing bound with
  | nil => cases mem
  | cons head rest ih =>
      obtain ⟨first, last⟩ := head
      simp only [ascendsFrom, Bool.and_eq_true, decide_eq_true_eq] at ascends
      rcases List.mem_cons.mp mem with rfl | mem
      · exact ascends.1.1
      · have := ih ascends.2 mem
        omega

/-- The search finds exactly the code points of the intervals. -/
theorem covers_iff {table : CodeTable} {bound : Nat} (ascends : table.ascendsFrom bound = true)
    (code : Nat) :
    table.covers code = true ↔ ∃ interval ∈ table, interval.1 ≤ code ∧ code ≤ interval.2 := by
  induction table generalizing bound with
  | nil => simp [covers]
  | cons head rest ih =>
      obtain ⟨first, last⟩ := head
      simp only [ascendsFrom, Bool.and_eq_true, decide_eq_true_eq] at ascends
      simp only [covers, Bool.and_eq_true, Bool.or_eq_true, decide_eq_true_eq, ih ascends.2,
        List.mem_cons, or_and_right, exists_or, exists_eq_left]
      constructor
      · rintro ⟨first_le, le_last | found⟩
        · exact .inl ⟨first_le, le_last⟩
        · exact .inr found
      · rintro (⟨first_le, le_last⟩ | ⟨interval, mem, le_code, code_le⟩)
        · exact ⟨first_le, .inl le_last⟩
        · have := le_first_of_mem ascends.2 mem
          exact ⟨by omega, .inr ⟨interval, mem, le_code, code_le⟩⟩

end CodeTable

end FunctionValues
