import FunctionValues.Text.DefaultIgnorable
import FunctionValues.Text.GraphemeExtender
import FunctionValues.Text.Printable

/-!
# Quoted text

A text between double quotes, in which every character can be told from its neighbours: the quote,
the backslash and four control characters have a short escape, and a character that would not show,
or would be drawn into the one before it, is written by its code point.
-/

namespace FunctionValues

namespace Text

/-- Whether a character is one of the two sound marks of halfwidth katakana. They extend a grapheme,
but they are letters and take a place of their own. -/
def isHalfwidthSoundMark (character : Char) : Bool :=
  character == '\uff9e' || character == '\uff9f'

/-- Whether a character would be drawn into the one before it. -/
def isCombining (character : Char) : Bool :=
  isGraphemeExtender character && !isHalfwidthSoundMark character

/-- Whether a character would show, apart from the one before it. -/
def isVisible (character : Char) : Bool :=
  isPrintable character && !isDefaultIgnorable character && !isCombining character

/-- A character by its code point, in hexadecimal without leading zeros. -/
def codeEscape (character : Char) : String :=
  "\\u\x7b" ++ String.ofList (Nat.toDigits 16 character.toNat) ++ "\x7d"

/-- A character as it stands between quotes. -/
def escape (character : Char) : String :=
  match character with
  | '"' => "\\\""
  | '\\' => "\\\\"
  | '\n' => "\\n"
  | '\t' => "\\t"
  | '\r' => "\\r"
  | '\x00' => "\\0"
  | _ => if isVisible character then character.toString else codeEscape character

/-- A text between quotes. -/
def quote (letters : String) : String :=
  "\"" ++ String.join (letters.toList.map escape) ++ "\""

end Text

end FunctionValues
