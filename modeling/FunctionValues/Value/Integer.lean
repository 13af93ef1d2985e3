import FunctionValues.Failure

/-!
# Integers

Arithmetic on signed 64-bit integers, in which a result out of range is a failure, and reading an
integer from a text in a given radix.
-/

namespace FunctionValues

namespace Integer

/-- The smallest integer. -/
def least : Int := -9223372036854775808

/-- The largest integer. -/
def greatest : Int := 9223372036854775807

/-- Whether a number is an integer of 64 bits. -/
def fits (number : Int) : Bool :=
  decide (least ≤ number) && decide (number ≤ greatest)

/-- A number as the reply of an operation, or the failure of one that leaves the range. -/
def checked (number : Int) : Reply :=
  if fits number then .ok (.int number) else Reply.raise "overflow"

/-- Divide, rounding toward zero. -/
def divide (dividend divisor : Int) : Reply :=
  if divisor = 0 then Reply.raise "division by zero" else checked (dividend.tdiv divisor)

/-- The remainder of `divide`, which has the sign of the dividend. It fails where the quotient
leaves the range. -/
def remainder (dividend divisor : Int) : Reply :=
  if divisor = 0 then Reply.raise "division by zero"
  else if fits (dividend.tdiv divisor) then checked (dividend.tmod divisor)
  else Reply.raise "overflow"

/-- The value of a digit: `0` to `9`, then the letters of either case from ten on. -/
def digit? (character : Char) : Option Nat :=
  if '0' ≤ character ∧ character ≤ '9' then some (character.toNat - '0'.toNat)
  else if 'a' ≤ character ∧ character ≤ 'z' then some (character.toNat - 'a'.toNat + 10)
  else if 'A' ≤ character ∧ character ≤ 'Z' then some (character.toNat - 'A'.toNat + 10)
  else none

/-- Read digits of a radix after a part whose value is `read`. -/
def readDigits (radix : Nat) : Nat → List Char → Option Nat
  | read, [] => some read
  | read, character :: rest =>
    match digit? character with
    | some digit => if digit < radix then readDigits radix (read * radix + digit) rest else none
    | none => none

/-- Read a whole text as a natural number; there has to be a digit. -/
def readNatural (radix : Nat) : List Char → Option Nat
  | [] => none
  | characters => readDigits radix 0 characters

/-- Read an optional sign and digits. -/
def readSigned (radix : Nat) : List Char → Option Int
  | '+' :: digits => (readNatural radix digits).map Int.ofNat
  | '-' :: digits => (readNatural radix digits).map fun number => -Int.ofNat number
  | digits => (readNatural radix digits).map Int.ofNat

/-- Read a text as a 64-bit integer in a radix. -/
def parse? (radix : Nat) (letters : String) : Option Int :=
  (readSigned radix letters.toList).filter fits

end Integer

end FunctionValues
