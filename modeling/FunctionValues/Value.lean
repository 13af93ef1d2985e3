/-!
# Values

The first-order data that functions take and return, and the equality that decides whether two
values are the same argument. Texts marked as caseless compare without regard to ASCII letter
case; everything else compares by structure. `same_iff` reduces the comparison to equality of
folded values, so it is an equivalence, and on values without caseless texts it is equality.
-/

namespace FunctionValues

/-- A piece of first-order data. -/
inductive Value where
  | unit
  | bool (truth : Bool)
  | int (number : Int)
  | text (letters : String)
  /-- A text that compares without regard to ASCII letter case and keeps its own letters. -/
  | caseless (letters : String)
  | list (items : List Value)
  | pair (first second : Value)
  | present (content : Value)
  | absent
  | ok (content : Value)
  | err (content : Value)
  deriving Inhabited

namespace Value

/-- Lower the ASCII letters of a text. -/
def foldCase (letters : String) : String :=
  letters.map Char.toLower

mutual

/-- The representative of all values that count as the same: caseless texts in lower case. -/
def folded : Value → Value
  | .caseless letters => .caseless (foldCase letters)
  | .list items => .list (foldedAll items)
  | .pair first second => .pair first.folded second.folded
  | .present content => .present content.folded
  | .ok content => .ok content.folded
  | .err content => .err content.folded
  | value => value

/-- Fold every item of a list. -/
def foldedAll : List Value → List Value
  | [] => []
  | item :: items => item.folded :: foldedAll items

end

mutual

/-- Whether two values are the same argument. -/
def same : Value → Value → Bool
  | .unit, .unit => true
  | .bool left, .bool right => left == right
  | .int left, .int right => left == right
  | .text left, .text right => left == right
  | .caseless left, .caseless right => foldCase left == foldCase right
  | .list left, .list right => sameAll left right
  | .pair left₁ left₂, .pair right₁ right₂ => left₁.same right₁ && left₂.same right₂
  | .present left, .present right => left.same right
  | .absent, .absent => true
  | .ok left, .ok right => left.same right
  | .err left, .err right => left.same right
  | _, _ => false

/-- Whether two lists hold the same arguments in the same order. -/
def sameAll : List Value → List Value → Bool
  | [], [] => true
  | left :: lefts, right :: rights => left.same right && sameAll lefts rights
  | _, _ => false

end

mutual

theorem same_iff : ∀ left right : Value, left.same right = true ↔ left.folded = right.folded
  | .unit, right => by cases right <;> simp [same, folded]
  | .bool _, right => by cases right <;> simp [same, folded]
  | .int _, right => by cases right <;> simp [same, folded]
  | .text _, right => by cases right <;> simp [same, folded]
  | .caseless _, right => by cases right <;> simp [same, folded]
  | .list items, right => by
      cases right with
      | list others => simp [same, folded, sameAll_iff items others]
      | _ => simp [same, folded]
  | .pair first second, right => by
      cases right with
      | pair first' second' =>
          simp [same, folded, same_iff first first', same_iff second second']
      | _ => simp [same, folded]
  | .present content, right => by
      cases right with
      | present content' => simp [same, folded, same_iff content content']
      | _ => simp [same, folded]
  | .absent, right => by cases right <;> simp [same, folded]
  | .ok content, right => by
      cases right with
      | ok content' => simp [same, folded, same_iff content content']
      | _ => simp [same, folded]
  | .err content, right => by
      cases right with
      | err content' => simp [same, folded, same_iff content content']
      | _ => simp [same, folded]

theorem sameAll_iff : ∀ lefts rights : List Value,
    sameAll lefts rights = true ↔ foldedAll lefts = foldedAll rights
  | [], [] => by simp [sameAll]
  | [], _ :: _ => by simp [sameAll, foldedAll]
  | _ :: _, [] => by simp [sameAll, foldedAll]
  | left :: lefts, right :: rights => by
      simp [sameAll, foldedAll, same_iff left right, sameAll_iff lefts rights]

end

@[simp]
theorem same_refl (value : Value) : value.same value = true :=
  (same_iff value value).mpr rfl

theorem same_symm {left right : Value} (equal : left.same right = true) :
    right.same left = true :=
  (same_iff right left).mpr ((same_iff left right).mp equal).symm

theorem same_trans {left middle right : Value} (first : left.same middle = true)
    (second : middle.same right = true) : left.same right = true :=
  (same_iff left right).mpr (((same_iff left middle).mp first).trans
    ((same_iff middle right).mp second))

mutual

/-- Whether a value holds no caseless text. -/
def isExact : Value → Bool
  | .caseless _ => false
  | .list items => allExact items
  | .pair first second => first.isExact && second.isExact
  | .present content => content.isExact
  | .ok content => content.isExact
  | .err content => content.isExact
  | _ => true

/-- Whether no item of a list holds a caseless text. -/
def allExact : List Value → Bool
  | [] => true
  | item :: items => item.isExact && allExact items

end

mutual

theorem folded_of_isExact : ∀ value : Value, value.isExact = true → value.folded = value
  | .unit, _ => rfl
  | .bool _, _ => rfl
  | .int _, _ => rfl
  | .text _, _ => rfl
  | .caseless _, exact => by simp [isExact] at exact
  | .list items, exact => by
      simp only [folded, foldedAll_of_allExact items (by simpa [isExact] using exact)]
  | .pair first second, exact => by
      simp only [isExact, Bool.and_eq_true] at exact
      simp only [folded, folded_of_isExact first exact.1, folded_of_isExact second exact.2]
  | .present content, exact => by
      simp only [folded, folded_of_isExact content (by simpa [isExact] using exact)]
  | .absent, _ => rfl
  | .ok content, exact => by
      simp only [folded, folded_of_isExact content (by simpa [isExact] using exact)]
  | .err content, exact => by
      simp only [folded, folded_of_isExact content (by simpa [isExact] using exact)]

theorem foldedAll_of_allExact : ∀ items : List Value, allExact items = true →
    foldedAll items = items
  | [], _ => rfl
  | item :: items, exact => by
      simp only [allExact, Bool.and_eq_true] at exact
      simp only [foldedAll, folded_of_isExact item exact.1, foldedAll_of_allExact items exact.2]

end

/-- Values without caseless texts are the same argument only when they are equal. -/
theorem same_iff_eq {left right : Value} (leftExact : left.isExact = true)
    (rightExact : right.isExact = true) : left.same right = true ↔ left = right := by
  rw [same_iff, folded_of_isExact left leftExact, folded_of_isExact right rightExact]

/-- Exchange the two parts of a pair; any other value stays as it is. -/
def swap : Value → Value
  | .pair first second => .pair second first
  | value => value

@[simp]
theorem swap_swap (value : Value) : value.swap.swap = value := by
  cases value <;> rfl

end Value

end FunctionValues
