import Packaging.Text.Blank

/-!
# Lines of a makefile

A logical line is one or more lines of the file, all but the last of which end with a backslash; it
keeps its backslashes and newlines. Lines that begin with a tab belong to a recipe whatever else
they look like.
-/

namespace Packaging.Makefile

open Text

/-- Joins lines that end with a backslash to the ones after them. A backslash at the very end stays
as it is. -/
def joinContinued : List Text → List Text
  | [] => []
  | line :: lines =>
    if endsWith ['\\'] line then
      match joinContinued lines with
      | [] => [line]
      | next :: rest => (line ++ '\n' :: next) :: rest
    else line :: joinContinued lines

/-- The logical lines of a text whose last newline was taken off. -/
def logicalLines (t : Text) : List Text := joinContinued (t.splitOn '\n')

/-- The first word of a line; empty for a blank line. -/
def firstWord (line : Text) : Text := (words line).headD []

/-- The line begins with a tab. -/
def isRecipe (line : Text) : Bool := startsWith ['\t'] line

/-- A comment, which may be indented, though not by a tab. -/
def isComment (line : Text) : Bool := !isRecipe line && startsWith ['#'] (trimStart line)

/-- The words that open a conditional. -/
def openingWords : List Text := ["ifeq".toList, "ifneq".toList, "ifdef".toList, "ifndef".toList]

/-- The line opens a conditional. -/
def opensConditional (line : Text) : Bool := openingWords.contains (firstWord line)

/-- The line closes a conditional. -/
def closesConditional (line : Text) : Bool := firstWord line == "endif".toList

/-- The line is between the branches of a conditional. -/
def isElse (line : Text) : Bool := firstWord line == "else".toList

/-- The line reads in another file. -/
def isInclude (line : Text) : Bool :=
  ["include".toList, "-include".toList, "sinclude".toList].contains (firstWord line)

/-- The line has a colon before any `=`, and this colon is not the start of `:=`, `::=` or `:::=`. -/
def isRuleHeader (line : Text) : Bool :=
  !isRecipe line && !isComment line &&
    match cut? ':' line with
    | none => false
    | some (before, after) =>
      !before.contains '=' &&
        !(startsWith ['='] after || startsWith [':', '='] after || startsWith [':', ':', '='] after)

end Packaging.Makefile
