import Packaging.Makefile.Basic

/-!
# Writing makefiles

The lines of the entries, in order. Cleared rules are left out, and where one stood between two
blank lines, or at an end with a blank line beside it, one of the blank lines goes with it.
-/

namespace Packaging.Makefile

open Text

/-- The state of writing. -/
structure Writer where
  /-- The lines so far. -/
  lines : List Text := []
  /-- A blank line that comes next is left out. -/
  skipsBlank : Bool := false
  /-- The last entry was a cleared rule. -/
  endsCleared : Bool := false
  deriving DecidableEq, Repr

namespace Writer

/-- The last line so far, if there is one, is blank. -/
def atBlank (w : Writer) : Bool := w.lines.getLast?.all isBlankLine

/-- Writes an entry. -/
def add (w : Writer) : Entry → Writer
  | .line l =>
    if w.skipsBlank && isBlankLine l then ⟨w.lines, false, false⟩
    else ⟨w.lines ++ [l], false, false⟩
  | .rule r =>
    if r.isCleared then ⟨w.lines, w.skipsBlank || w.atBlank, true⟩
    else ⟨w.lines ++ r.precomment ++ r.lines, false, false⟩

/-- The lines written. A blank line before cleared rules at the end is left out. -/
def finish (w : Writer) : List Text :=
  if w.endsCleared && w.skipsBlank && w.lines.getLast?.any isBlankLine then w.lines.dropLast
  else w.lines

end Writer

/-- The lines of a makefile. -/
def lines (mk : Makefile) : List Text := (mk.entries.foldl Writer.add {}).finish

/-- The text of a makefile. -/
def render (mk : Makefile) : Text :=
  join ['\n'] mk.lines ++ (if mk.lines.isEmpty || mk.lacksFinalNewline then [] else ['\n'])

end Packaging.Makefile
