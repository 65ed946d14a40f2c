import Packaging.Text.Basic
import Packaging.Text.Range

/-!
# Blanks

Blank characters (the property `White_Space`), the narrower blanks of an indent, and what is
defined by them: trimming, words and blank lines.
-/

namespace Packaging.Text

/-- The characters with the property `White_Space`. -/
def blankRanges : List Range :=
  [(0x9, 0xD), (0x20, 0x20), (0x85, 0x85), (0xA0, 0xA0), (0x1680, 0x1680), (0x2000, 0x200A),
   (0x2028, 0x2029), (0x202F, 0x202F), (0x205F, 0x205F), (0x3000, 0x3000)]

/-- White space, in any script. -/
def isBlank (c : Char) : Bool := inRanges blankRanges c

/-- A space or a tab: the blanks an indent is made of. -/
def isIndent (c : Char) : Bool := c == ' ' || c == '\t'

/-- Nothing but white space. -/
def isBlankLine (t : Text) : Bool := t.all isBlank

/-- Without the leading characters of a class. -/
def trimStartOf (p : Char → Bool) (t : Text) : Text := t.dropWhile p

/-- Without the trailing characters of a class. -/
def trimEndOf (p : Char → Bool) (t : Text) : Text := (t.reverse.dropWhile p).reverse

/-- Without leading white space. -/
def trimStart (t : Text) : Text := trimStartOf isBlank t

/-- Without trailing white space. -/
def trimEnd (t : Text) : Text := trimEndOf isBlank t

/-- Without white space at both ends. -/
def trim (t : Text) : Text := trimEnd (trimStart t)

/-- The words of a text: its maximal runs of characters that are not white space. -/
def words (t : Text) : List Text := (t.splitOnP isBlank).filter (!·.isEmpty)

/-- The text up to its first white space, and the rest from there on. -/
def splitAtBlank (t : Text) : Text × Text := t.span (!isBlank ·)

end Packaging.Text
