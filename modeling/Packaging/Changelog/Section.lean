import Packaging.Text.Blank

/-!
# Sections of an entry

The lines of an entry fall into sections, one for each author, where all but the first begin with a
marker `  [ Name ]`. A section falls into changes: a bullet `  * ` begins a change, and so does any
other line after a blank one.
-/

namespace Packaging.Changelog

open Text

/-- The name in an author marker. -/
def marker? (line : Text) : Option Text := do
  let name ← dropEnd? [' ', ']'] (← dropStart? [' ', ' ', '[', ' '] line)
  if name.contains '\n' then none else some name

/-- The author marker for a name. -/
def renderMarker (name : Text) : Text := "  [ ".toList ++ name ++ [' ', ']']

/-- What a bullet begins with. -/
def bulletStart : Text := [' ', ' ', '*', ' ']

/-- A change: its lines and their numbers. -/
structure Change where
  lineNumbers : List Nat := []
  lines : List Text := []
  deriving DecidableEq, Repr

namespace Change

/-- The change with one more line. -/
def add (c : Change) (n : Nat) (line : Text) : Change :=
  ⟨c.lineNumbers ++ [n], c.lines ++ [line]⟩

end Change

/-- A section: its author if a marker names one, the numbers of its lines, and its changes. Blank
lines belong to a section and to no change. -/
structure Section where
  author : Option Text := none
  lineNumbers : List Nat := []
  changes : List Change := []
  deriving DecidableEq, Repr

namespace Section

/-- There is an author or a change in the section. -/
def isPresent (s : Section) : Bool := s.author.isSome || !s.changes.isEmpty

end Section

/-- The state of dividing lines: the sections that are finished, the one being made and the change
being made in it, and whether there was a line that is not blank. -/
structure Divider where
  done : List Section := []
  current : Section := {}
  change : Option Change := none
  started : Bool := false
  deriving DecidableEq, Repr

namespace Divider

/-- Finishes the change being made. -/
def endChange (d : Divider) : Divider :=
  { d with
    current := { d.current with changes := d.current.changes ++ d.change.toList }
    change := none }

/-- Finishes the section being made, unless there is nothing in it. -/
def endSection (d : Divider) : Divider :=
  let d := d.endChange
  { d with done := if d.current.isPresent then d.done ++ [d.current] else d.done }

/-- Counts a line to the section being made. -/
def addNumber (d : Divider) (n : Nat) : Divider :=
  { d with current := { d.current with lineNumbers := d.current.lineNumbers ++ [n] } }

/-- Takes a line. -/
def feed (d : Divider) (n : Nat) (line : Text) : Divider :=
  if isBlankLine line then if d.started then d.endChange.addNumber n else d
  else
    let d := { d with started := true }
    match marker? line with
    | some name => { d.endSection with current := { author := name, lineNumbers := [n] } }
    | none =>
      let d := if startsWith bulletStart line then d.endChange else d
      let change := (d.change.getD {}).add n line
      { d.addNumber n with change := some change }

/-- Takes lines, the first of which has this number. -/
def run (d : Divider) (n : Nat) : List Text → Divider
  | [] => d
  | line :: lines => run (d.feed n line) (n + 1) lines

end Divider

/-- The sections of the lines of an entry. Lines are counted from zero. -/
def sections (lines : List Text) : List Section := (Divider.run {} 0 lines).endSection.done

/-- All changes with the authors of their sections. -/
def changesByAuthor (lines : List Text) : List (Option Text × Change) :=
  (sections lines).flatMap fun s => s.changes.map fun c => (s.author, c)

/-- The names in the author markers, each once. -/
def markedAuthors (lines : List Text) : List Text :=
  (lines.filterMap marker?).foldl (fun names n => if names.contains n then names else names ++ [n]) []

end Packaging.Changelog
