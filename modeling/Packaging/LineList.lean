import Packaging.Text.Line

/-!
# Lists of lines

Any text can be edited as a list of lines. The list keeps the lines it began with, to tell whether
they changed, and whether the last line lacked its newline. Carriage returns belong to the lines.
-/

namespace Packaging

open Text

/-- The lines of a text that is being edited. -/
structure LineList where
  lines : List Text := []
  /-- The lines as they were read. -/
  asRead : List Text := []
  /-- The last line is written without a newline. -/
  lacksFinalNewline : Bool := false
  deriving DecidableEq, Repr

namespace LineList

/-- Reads the lines of a text. -/
def parse (t : Text) : LineList :=
  let (lines, lacksFinalNewline) := splitLines t
  { lines, asRead := lines, lacksFinalNewline }

/-- The text of the lines. -/
def render (l : LineList) : Text :=
  join ['\n'] l.lines ++ (if l.lines.isEmpty || l.lacksFinalNewline then [] else ['\n'])

/-- The number of lines. -/
def size (l : LineList) : Nat := l.lines.length

/-- There are no lines. -/
def isEmpty (l : LineList) : Bool := l.lines.isEmpty

/-- The line at an index. -/
def get? (l : LineList) (i : Nat) : Option Text := l.lines[i]?

/-- Replaces the line at an index; `none` if there is none. -/
def set? (l : LineList) (i : Nat) (line : Text) : Option LineList :=
  if i < l.size then some { l with lines := l.lines.set i line } else none

/-- Takes away the line at an index; `none` if there is none. -/
def erase? (l : LineList) (i : Nat) : Option LineList :=
  if i < l.size then some { l with lines := l.lines.eraseIdx i } else none

/-- Puts a line before the one at an index, or at the end; `none` if the index is greater. -/
def insert? (l : LineList) (i : Nat) (line : Text) : Option LineList :=
  if i ≤ l.size then some { l with lines := l.lines.insertIdx i line } else none

/-- Adds a line at the end. -/
def push (l : LineList) (line : Text) : LineList := { l with lines := l.lines ++ [line] }

/-- Keeps the lines for which `p` holds. -/
def filter (p : Text → Bool) (l : LineList) : LineList := { l with lines := l.lines.filter p }

/-- Changes every line. -/
def map (f : Text → Text) (l : LineList) : LineList := { l with lines := l.lines.map f }

/-- The lines are not those that were read. -/
def hasChanged (l : LineList) : Bool := l.lines != l.asRead

end LineList

end Packaging
