import FunctionValues.Callable
import FunctionValues.Value.Integer

/-!
# Expressions

The small language in which the bodies of functions are written. An expression becomes a
computation of its value: operands are evaluated from left to right, an operator that is given
operands it is not defined on fails and names itself, and `attempt` turns any failure into a value.
-/

namespace FunctionValues

/-- The operators of the language. -/
inductive Operator where
  | add | sub | mul | div | rem
  | lt | eq
  | cat | len | replicate | nth
  | str | parse
  | list | pair | fst | snd
  | present | absent | ok | err
  | panic
  /-- A word that is no operator. -/
  | unknown (head : String)

namespace Operator

/-- The operators that have a word. -/
def words : List (String × Operator) :=
  [("add", add), ("sub", sub), ("mul", mul), ("div", div), ("rem", rem), ("lt", lt), ("eq", eq),
    ("cat", cat), ("len", len), ("repeat", replicate), ("nth", nth), ("str", str),
    ("parse", parse), ("list", list), ("pair", pair), ("fst", fst), ("snd", snd),
    ("some", present), ("none", absent), ("ok", ok), ("err", err), ("panic", panic)]

/-- The operator that a word stands for. -/
def ofHead (head : String) : Operator :=
  (words.lookup head).getD (unknown head)

/-- The word of an operator. -/
def head : Operator → String
  | add => "add" | sub => "sub" | mul => "mul" | div => "div" | rem => "rem"
  | lt => "lt" | eq => "eq"
  | cat => "cat" | len => "len" | replicate => "repeat" | nth => "nth"
  | str => "str" | parse => "parse"
  | list => "list" | pair => "pair" | fst => "fst" | snd => "snd"
  | present => "some" | absent => "none" | ok => "ok" | err => "err"
  | panic => "panic"
  | unknown head => head

/-- Every operator is read back from its word. -/
theorem ofHead_head (operator : Operator) (known : ∀ head, operator ≠ unknown head) :
    ofHead operator.head = operator := by
  cases operator <;> first | rfl | exact absurd rfl (known _)

/-- The failure of an operator on operands that it is not defined on. -/
def mismatch (operator : Operator) : Reply :=
  Reply.raise ("type error: " ++ operator.head)

/-- The item of a list at a position counted from zero. -/
def item (items : List Value) (position : Int) : Reply :=
  match (if position < 0 then none else items[position.toNat]?) with
  | some value => .ok value
  | none => Reply.raise "index out of range"

/-- The integer that a text writes in a radix, as a success, or the text itself as an error. -/
def integerOf (letters : String) (radix : Nat) : Value :=
  match Integer.parse? radix letters with
  | some number => .ok (.int number)
  | none => .err (.text letters)

/-- A text a number of times over, none if the number is negative. No text is longer than the
greatest integer, in bytes. -/
def repeated (letters : String) (count : Int) : Reply :=
  if letters.isEmpty then .ok (.text "")
  else if Integer.greatest < letters.utf8ByteSize * count then .error .oversized
  else .ok (.text (String.join (List.replicate count.toNat letters)))

/-- Apply an operator to its operands. -/
def evaluate : Operator → List Value → Reply
  | add, [.int left, .int right] => Integer.checked (left + right)
  | sub, [.int left, .int right] => Integer.checked (left - right)
  | mul, [.int left, .int right] => Integer.checked (left * right)
  | div, [.int left, .int right] => Integer.divide left right
  | rem, [.int left, .int right] => Integer.remainder left right
  | lt, [.int left, .int right] => .ok (.bool (decide (left < right)))
  | eq, [left, right] => .ok (.bool (left.same right))
  | cat, [.text left, .text right] => .ok (.text (left ++ right))
  | cat, [.list left, .list right] => .ok (.list (left ++ right))
  | len, [.text letters] => .ok (.int letters.length)
  | len, [.list items] => .ok (.int items.length)
  | replicate, [.text letters, .int count] => repeated letters count
  | nth, [.list items, .int position] => item items position
  | str, [.int number] => .ok (.text (toString number))
  | str, [.text letters] => .ok (.text letters)
  | str, [.caseless letters] => .ok (.text letters)
  | parse, [.text letters, .int radix] =>
    if 2 ≤ radix ∧ radix ≤ 36 then .ok (integerOf letters radix.toNat) else mismatch parse
  | list, operands => .ok (.list operands)
  | pair, [first, second] => .ok (.pair first second)
  | fst, [.pair first _] => .ok first
  | snd, [.pair _ second] => .ok second
  | present, [content] => .ok (.present content)
  | absent, [] => .ok .absent
  | ok, [content] => .ok (.ok content)
  | err, [content] => .ok (.err content)
  | panic, [payload] => .error (.raised payload)
  | operator, _ => operator.mismatch

end Operator

/-- The body of a function. -/
inductive Expression where
  /-- A value that stands for itself. -/
  | literal (value : Value)
  /-- The argument at a position counted from zero. -/
  | argument (position : Nat)
  /-- Apply the function that has a name when this is evaluated. -/
  | call (name : String) (operands : List Expression)
  /-- Evaluate one of two branches, as a condition decides. -/
  | branch (condition consequent alternative : Expression)
  /-- Evaluate an expression that may fail. -/
  | attempt (body : Expression)
  /-- Read the tick counter and move it on. -/
  | tick
  /-- Apply an operator. -/
  | operation (operator : Operator) (operands : List Expression)
  deriving Inhabited

namespace Expression

/-- The expression that a word and its operands write. -/
def ofForm (head : String) (operands : List Expression) : Expression :=
  match head, operands with
  | "a", [] => argument 0
  | "b", [] => argument 1
  | "tick", [] => tick
  | "if", [condition, consequent, alternative] => branch condition consequent alternative
  | "try", [body] => attempt body
  | _, _ => operation (.ofHead head) operands

mutual

/-- The computation of an expression's value. -/
def compute (arguments : List Value) : Expression → Computation
  | literal value => .value value
  | argument position =>
    match arguments[position]? with
    | some value => .value value
    | none => .raise "no argument"
  | call name operands => computeAll arguments operands fun values => .call name values
  | branch condition consequent alternative =>
    (condition.compute arguments).andThen fun
      | .bool true => consequent.compute arguments
      | .bool false => alternative.compute arguments
      | _ => .finish (Operator.unknown "if").mismatch
  | attempt body => (body.compute arguments).attempt
  | tick => .tick
  | operation operator operands =>
    computeAll arguments operands fun values => .finish (operator.evaluate values)

/-- Compute expressions one after another and continue with their values. -/
def computeAll (arguments : List Value) : List Expression → (List Value → Computation) →
    Computation
  | [], next => next []
  | operand :: operands, next =>
    (operand.compute arguments).andThen fun value =>
      computeAll arguments operands fun values => next (value :: values)

end

/-- The code of a function that is written with a label: it notes that it was called, and with
which arguments, before its body is evaluated. -/
def code (body : Expression) (label : String) (arity : Nat) : Code := fun argument =>
  let arguments := match arity, argument with
    | 2, .pair first second => [first, second]
    | _, value => [value]
  .note label arguments (body.compute arguments)

end Expression

end FunctionValues
