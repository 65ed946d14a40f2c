import Packaging.Changelog.Basic
import Packaging.Changelog.Line
import Packaging.Text.Line
import Packaging.Text.Quoted
import Packaging.Text.Utf8

/-!
# Reading changelogs

Lines are taken one by one, with at most one entry open. A header line opens an entry and a trailer
line closes it; a header line in an open entry is an error. Between entries, lines belong to the
entry above them, and before the first entry only blank lines may stand.
-/

namespace Packaging.Changelog

open Text

/-- Why a text is no changelog. Lines are counted from one. -/
inductive ParseError where
  /-- A line should be the header of an entry. -/
  | invalidHeader (line : Nat) (text : Text)
  /-- A header stands in an entry that has no trailer yet. -/
  | unexpectedLine (line : Nat) (text : Text)
  /-- The entry with its header on this line has no trailer. -/
  | missingTrailer (line : Nat)
  /-- The version in a header is none. -/
  | invalidVersion (line : Nat) (version : Text)
  /-- The input could not be read, for the reason given. -/
  | io (reason : Text)
  deriving DecidableEq, Repr

namespace ParseError

/-- The text of the error. -/
def message : ParseError → Text
  | .invalidHeader line text =>
    "line ".toList ++ ofNat line ++ ": invalid changelog header: ".toList ++ quote text
  | .unexpectedLine line text =>
    "line ".toList ++ ofNat line ++ ": unexpected line: ".toList ++ quote text
  | .missingTrailer line =>
    "line ".toList ++ ofNat line ++ ": changelog entry has no trailer".toList
  | .invalidVersion line version =>
    "line ".toList ++ ofNat line ++ ": invalid version: ".toList ++ version
  | .io reason => "IO error: ".toList ++ reason

/-- The text of the error behind this one. -/
def source? : ParseError → Option Text
  | .io reason => some reason
  | _ => none

end ParseError

namespace Entry

/-- Adds a setting of a header. The first urgency is a part of its own. -/
def addSetting (e : Entry) (key value : Text) : Entry :=
  if eqIgnoreCase key "urgency".toList && e.urgency.isNone then
    let (urgency, urgencyComment) := splitAtBlank value
    { e with urgency := some urgency, urgencyComment }
  else { e with settings := e.settings ++ [(key, value)] }

/-- Adds the settings of a header; `none` if one of them is no pair. -/
def addSettings (e : Entry) : List Text → Option Entry
  | [] => some e
  | setting :: settings =>
    match cut? '=' setting with
    | some (key, value) => (e.addSetting key value).addSettings settings
    | none => none

/-- The settings of a header, as they stand between its commas. -/
def splitSettings (t : Text) : List Text :=
  ((t.splitOn ',').map trim).filter (!·.isEmpty)

/-- The entry that a header line begins. -/
def ofHeader (lineNumber : Nat) (line : Text) (h : Header) : Except ParseError Entry :=
  match Version.parse? h.version with
  | none => .error (.invalidVersion lineNumber h.version)
  | some version =>
    let e : Entry := { package := h.package, version, distributions := h.distributions }
    match e.addSettings (splitSettings h.settings) with
    | some e => .ok e
    | none => .error (.invalidHeader lineNumber line)

/-- The entry with what a trailer says. -/
def close (e : Entry) (t : Trailer) : Entry := { e with author := t.author, date := t.date }

/-- The entry with one more line after its trailer. -/
def addTrailing (e : Entry) (line : Text) : Entry := { e with trailing := e.trailing ++ [line] }

/-- The entry with one more line. -/
def addChange (e : Entry) (line : Text) : Entry := { e with changes := e.changes ++ [line] }

end Entry

/-- The state of reading: the entries that are closed, and the open one with the number of its header
line. -/
structure Reader where
  entries : List Entry := []
  current : Option (Nat × Entry) := none
  deriving DecidableEq, Repr

namespace Reader

/-- Takes a line in an open entry. -/
def feedInside (r : Reader) (start : Nat) (e : Entry) (lineNumber : Nat) (line : Text) :
    Except ParseError Reader :=
  match Trailer.parse? line with
  | some t => .ok ⟨r.entries ++ [e.close t], none⟩
  | none =>
    if (Header.parse? line).isSome then .error (.unexpectedLine lineNumber line)
    else .ok { r with current := some (start, e.addChange line) }

/-- Takes a line between entries. -/
def feedBetween (r : Reader) (lineNumber : Nat) (line : Text) : Except ParseError Reader :=
  match Header.parse? line with
  | some h =>
    match Entry.ofHeader lineNumber line h with
    | .ok e => .ok { r with current := some (lineNumber, e) }
    | .error e => .error e
  | none =>
    match r.entries.getLast? with
    | some last => .ok { r with entries := r.entries.dropLast ++ [last.addTrailing line] }
    | none => if isBlankLine line then .ok r else .error (.invalidHeader lineNumber line)

/-- Takes a line. -/
def feed (r : Reader) (lineNumber : Nat) (line : Text) : Except ParseError Reader :=
  match r.current with
  | some (start, e) => r.feedInside start e lineNumber line
  | none => r.feedBetween lineNumber line

/-- Takes lines, the first of which has this number, up to the first error. -/
def run (r : Reader) (lineNumber : Nat) : List Text → Except ParseError Reader
  | [] => .ok r
  | line :: lines =>
    match r.feed lineNumber line with
    | .ok r => run r (lineNumber + 1) lines
    | .error e => .error e

end Reader

/-- Reads a changelog. -/
def parse (t : Text) : Except ParseError Changelog :=
  match Reader.run {} 1 (lines t) with
  | .error e => .error e
  | .ok r =>
    match r.current with
    | some (start, _) => .error (.missingTrailer start)
    | none => .ok ⟨r.entries⟩

/-- Reads a changelog from UTF-8. -/
def ofBytes (bytes : List UInt8) : Except ParseError Changelog :=
  match decode bytes with
  | .ok t => parse t
  | .error _ => .error (.io "stream did not contain valid UTF-8".toList)

end Packaging.Changelog
