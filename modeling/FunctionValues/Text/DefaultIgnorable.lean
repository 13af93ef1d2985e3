import FunctionValues.Text.CodeTable

/-!
# Default ignorable characters

The characters that are drawn as nothing where they have no effect: joiners, fillers, selectors and
what else Unicode 17 gives the property `Default_Ignorable_Code_Point`. Four of them are letters,
the fillers of Hangul, and so are not among the unprintable ones.
-/

namespace FunctionValues

namespace Text

/-- The code points with the property `Default_Ignorable_Code_Point` of Unicode 17. -/
def defaultIgnorables : CodeTable :=
  [(0xad, 0xad), (0x34f, 0x34f), (0x61c, 0x61c), (0x115f, 0x1160), (0x17b4, 0x17b5),
    (0x180b, 0x180f), (0x200b, 0x200f), (0x202a, 0x202e), (0x2060, 0x206f), (0x3164, 0x3164),
    (0xfe00, 0xfe0f), (0xfeff, 0xfeff), (0xffa0, 0xffa0), (0xfff0, 0xfff8), (0x1bca0, 0x1bca3),
    (0x1d173, 0x1d17a), (0xe0000, 0xe0fff)]

/-- Whether a character is drawn as nothing where it has no effect. -/
def isDefaultIgnorable (character : Char) : Bool :=
  defaultIgnorables.covers character.toNat

theorem defaultIgnorables_ascends : defaultIgnorables.ascendsFrom 0 = true := by
  decide +kernel

theorem size_defaultIgnorables : defaultIgnorables.size = 4174 := by
  decide +kernel

/-- No character before the soft hyphen is ignorable. -/
theorem isDefaultIgnorable_of_lt {character : Char} (early : character.toNat < 0xad) :
    isDefaultIgnorable character = false := by
  have all : ∀ code < 0xad, defaultIgnorables.covers code = false := by decide +kernel
  exact all _ early

end Text

end FunctionValues
