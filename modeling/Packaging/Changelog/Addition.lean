import Packaging.Changelog.Fill
import Packaging.Changelog.Printer
import Packaging.Changelog.Section

/-!
# Adding a change

A change is added to the first entry if that is still being made, or lacks its author or its date.
Where somebody else joins in, author markers say who did what. To a finished entry nothing is added:
a new entry for the next version is put on top.
-/

namespace Packaging.Changelog

open Text

/-- A sub-bullet: the blanks before its marker, the marker, and its text. -/
def splitSubBullet? (line : Text) : Option (Text × Char × Text) :=
  let (before, rest) := line.span isBlank
  match rest with
  | c :: ' ' :: text =>
    if (c == '+' || c == '*' || c == '-') && !text.contains '\n' then some (before, c, text)
    else none
  | _ => none

/-- The indent of the lines of a change below its first one. -/
def bodyIndent : Text := [' ', ' ', ' ', ' ']

/-- The lines of a further paragraph of a change. -/
def formatFurther (line : Text) : List Text :=
  match splitSubBullet? line with
  | some (before, c, text) => (Filler.hanging (bodyIndent ++ before ++ [c, ' '])).fill text
  | none => (Filler.hanging bodyIndent).fill line

/-- The lines of a change: a bullet with the first paragraph, and the further ones below it. -/
def formatSummary : List Text → List Text
  | [] => []
  | first :: further => (Filler.hanging bulletStart).fill first ++ further.flatMap formatFurther

/-- Lines that end with a blank line, if there are any. -/
def ensureTrailingBlank (lines : List Text) : List Text :=
  if lines.getLast?.any (!isBlankLine ·) then lines ++ [[]] else lines

/-- Lines without a blank line at their end, unless there is no other. -/
def dropTrailingBlank (lines : List Text) : List Text :=
  if lines.length > 1 && lines.getLast?.any isBlankLine then lines.dropLast else lines

/-- Lines to which a marker for `name` is added. -/
def addMarker (lines : List Text) (name : Text) : List Text :=
  ensureTrailingBlank lines ++ [renderMarker name]

/-- The lines of an entry made ready for a change by `name`. A marker for the author of the entry is
put in front of the lines that have none, when somebody else adds a change. -/
def prepareLines (maintainer? : Option (Text × Text)) (lines : List Text) (name : Text) : List Text :=
  match lines.findIdx? (!isBlankLine ·) with
  | none => [[]]
  | some start =>
    let parts := sections lines
    if parts.all (·.author.isNone) then
      match maintainer? with
      | some (author, _) =>
        if author ≠ name then addMarker (lines.insertIdx start (renderMarker author)) name
        else dropTrailingBlank lines
      | none => dropTrailingBlank lines
    else if (parts.getLast?.bind Section.author) = some name then dropTrailingBlank lines
    else addMarker lines name

namespace Entry

/-- A change may still be added to the entry. -/
def isOpen (e : Entry) : Bool := e.isUnreleased || e.author.isNone || e.date.isNone

/-- The entry made ready for a change by `name`; author and date are put in where they are missing. -/
def prepare (e : Entry) (name address date : Text) : Entry :=
  { e with
    changes := prepareLines e.maintainer? e.changes name
    author := e.author.getD (renderIdentity name address)
    date := e.date.getD date }

/-- The entry for the upload after this one. -/
def next (e : Entry) (name address date urgency : Text) : Except EntryError Entry :=
  match e.package, e.version with
  | none, _ => .error .noPackage
  | some package, none => .error (.noVersion package)
  | some package, some version =>
    .ok {
      package, version := version.increment, distributions := unreleased, urgency
      changes := [[]], author := renderIdentity name address, date }

/-- The entry with the lines of a change and an empty line at its end. -/
def addSummary (e : Entry) (summary : List Text) : Entry :=
  { e with changes := e.changes ++ formatSummary summary ++ [[]] }

end Entry

/-- Adds a change by the named person. -/
def addChange (c : Changelog) (summary : List Text) (name address date urgency : Text) :
    Except EntryError Changelog :=
  match summary, c.entries with
  | [], _ => .error .emptySummary
  | _, [] => .error .noEntries
  | summary, e :: es =>
    if e.isOpen then .ok ⟨(e.prepare name address date).addSummary summary :: es⟩
    else
      match e.next name address date urgency with
      | .error err => .error err
      | .ok new => .ok (c.prepend (new.addSummary summary))

/-! ### In place -/

/-- Steps on a changelog, of which any can fail. What the steps before it have done is not undone. -/
abbrev Steps := ExceptT EntryError (StateM Changelog)

/-- The first entry. -/
def firstEntry : Steps Entry := do
  match (← get).entries with
  | [] => throw .noEntries
  | e :: _ => return e

/-- Changes the first entry, if there is one. -/
def modifyFirst (f : Entry → Entry) : Steps Unit :=
  modify fun c => ⟨c.entries.modifyHead f⟩

/-- Adds a change by the named person to the changelog itself: to its first entry, once that is made
ready for it or a new one is put on top. -/
def addChangeInPlace (summary : List Text) (name address date urgency : Text) : Steps Unit := do
  if summary.isEmpty then throw .emptySummary
  let e ← firstEntry
  if e.isOpen then modifyFirst fun e => e.prepare name address date
  else
    let new ← e.next name address date urgency
    modify fun c => c.prepend new
  let _ ← firstEntry
  modifyFirst fun e => e.addSummary summary

end Packaging.Changelog
