import FunctionValues.Cache.Latch
import FunctionValues.Computation

/-!
# Tables of results

The results of all arguments behind one latch, which is how the global policy keeps them.
-/

namespace FunctionValues

/-- Results behind one latch, in the order in which they were first stored. -/
structure Table where
  latch : Latch := {}
  entries : List (Value × Result) := []
  deriving Inhabited

namespace Table

/-- The result stored for an argument. -/
def find? (table : Table) (key : Value) : Option Result :=
  (table.entries.find? (·.1.same key)).map (·.2)

/-- Store a result. An argument that has one already keeps its place among the entries. -/
def insert (table : Table) (key : Value) (result : Result) : Table :=
  match table.find? key with
  | none => { table with entries := table.entries ++ [(key, result)] }
  | some _ =>
    { table with
      entries := table.entries.map fun entry =>
        if entry.1.same key then (entry.1, result) else entry }

private theorem find?_overwrite (entries : List (Value × Result)) (key other : Value)
    (result : Result) :
    ((entries.map fun entry => if entry.1.same key then (entry.1, result) else entry).find?
        (·.1.same other)).map (·.2) =
      if key.same other then ((entries.find? (·.1.same key)).map fun _ => result)
      else (entries.find? (·.1.same other)).map (·.2) := by
  induction entries with
  | nil => simp
  | cons entry entries induction =>
      by_cases stored : entry.1.same key = true
      · by_cases asked : key.same other = true
        · simp [stored, asked, Value.same_trans stored asked]
        · have different : ¬entry.1.same other = true := fun equal =>
            asked (Value.same_trans (Value.same_symm stored) equal)
          simpa [stored, asked, different] using induction
      · by_cases asked : entry.1.same other = true
        · have different : ¬key.same other = true := fun equal =>
            stored (Value.same_trans asked (Value.same_symm equal))
          simp [stored, asked, different]
        · simpa [stored, asked] using induction

/-- A stored result is found for the same argument, and other arguments keep theirs. -/
theorem find?_insert (table : Table) (key other : Value) (result : Result) :
    (table.insert key result).find? other =
      if key.same other then some result else table.find? other := by
  unfold insert
  split
  next missing =>
    simp only [find?, Option.map_eq_none_iff] at missing
    by_cases asked : key.same other = true
    · have absent : table.entries.find? (·.1.same other) = none := by
        rw [List.find?_eq_none] at missing ⊢
        exact fun entry member equal =>
          missing entry member (Value.same_trans equal (Value.same_symm asked))
      simp [find?, List.find?_append, asked, absent]
    · simp [find?, List.find?_append, asked]
  next previous found =>
    obtain ⟨entry, present, -⟩ := Option.map_eq_some_iff.mp found
    simp only [find?, find?_overwrite, present, Option.map_some]

end Table

end FunctionValues
