import Packaging.Text.Blank
import Packaging.Text.Line
import Packaging.Text.Quoted
import Packaging.WatchFile.Basic

/-!
# Reading watch files

A line that ends with a backslash goes on with the next line. From version 4 on the indent of that
next line does not count. Blank lines and lines that start with `#` are passed over, unless they
continue a line. The first line gives the version of the format; each line after it is an entry, or
options for all entries.
-/

namespace Packaging.WatchFile

open Text

/-- Why a text is no watch file. -/
inductive ParseError where
  /-- The first line does not give the version. -/
  | missingVersion
  /-- The quoted options of a line have no closing quote. -/
  | unterminatedQuote (line : Text)
  deriving DecidableEq, Repr

/-- The text of the error. -/
def ParseError.message : ParseError → Text
  | .missingVersion => "watch file does not start with a version line".toList
  | .unterminatedQuote line => "unterminated quote in options: ".toList ++ quote line

/-! ### Logical lines -/

/-- The number that a version line gives, which is less than 2³². -/
def versionNumber? (line : Text) : Option Nat := do
  let rest ← dropStart? ['='] (trimStart (← dropStart? "version".toList line))
  let digits := trim rest
  if digits.isEmpty || !digits.all Char.isDigit then none
  else if digitsValue digits < 0x100000000 then some (digitsValue digits)
  else none

/-- The state of joining lines. -/
structure Joiner where
  /-- The version, once the first line has given it. -/
  version : Option Nat := none
  /-- The logical lines so far. -/
  lines : List Text := []
  /-- A line that the next one continues, without its backslash. -/
  pending : Option Text := none
  deriving DecidableEq, Repr

namespace Joiner

/-- The indent of a line that continues another does not count. -/
def dropsIndent (j : Joiner) : Bool := j.version.any (4 ≤ ·)

/-- A line that is passed over where it continues no other. -/
def isSkipped (line : Text) : Bool := startsWith ['#'] line || isBlankLine line

/-- A line together with the one it continues. -/
def joined (j : Joiner) (line : Text) : Text :=
  match j.pending with
  | some start => start ++ if j.dropsIndent then trimStart line else line
  | none => line

/-- Adds a logical line; the first one may give the version. -/
def push (j : Joiner) (line : Text) : Joiner :=
  { version := if j.lines.isEmpty && j.version.isNone then versionNumber? line else j.version
    lines := j.lines ++ [line]
    pending := none }

/-- Takes a line. -/
def feed (j : Joiner) (line : Text) : Joiner :=
  if j.pending.isNone && isSkipped line then j
  else
    let line := j.joined line
    match dropEnd? ['\\'] (trimEnd line) with
    | some start => { j with pending := some start }
    | none => j.push line

/-- The logical lines, with one that nothing continues as the last. -/
def finish (j : Joiner) : List Text := j.lines ++ j.pending.toList

end Joiner

/-- The logical lines of a text, and the version that the first one gives. -/
def logicalLines (t : Text) : Option Nat × List Text :=
  let j := (lines t).foldl Joiner.feed {}
  (j.version, j.finish)

/-! ### Entries -/

/-- What the options of a line begin with. -/
def optionsStart : Text := "opts=".toList

/-- A location whose last component is a pattern with parentheses, taken apart. -/
def splitPattern? (url : Text) : Option (Text × Text) := do
  let (before, last) ← cutLast? '/' url
  let (_, inside) ← cut? '(' last
  if inside.contains ')' then some (before ++ ['/'], last) else none

/-- An entry from its words; `none` if there are none. Words after the script are passed over. -/
def Entry.ofWords? (options : Options) : List Text → Option Entry
  | [] => none
  | word :: more =>
    match splitPattern? word with
    | some (url, pattern) =>
      some { url, pattern, version := more[0]?, script := more[1]?, options }
    | none =>
      some { url := word, pattern := more[0]?, version := more[1]?, script := more[2]?, options }

/-- The options of a list with commas. -/
def splitOptions (t : Text) : Options := (t.splitOn ',').map trim

/-- The options at the start of a line, which stand between quotes or go up to the first blank, and
the rest of the line. -/
def takeOptions (line : Text) : Except ParseError (Options × Text) :=
  match dropStart? optionsStart line with
  | none => .ok ([], line)
  | some ('"' :: quoted) =>
    match cut? '"' quoted with
    | some (options, rest) => .ok (splitOptions options, rest)
    | none => .error (.unterminatedQuote line)
  | some rest =>
    let (options, rest) := splitAtBlank rest
    .ok (splitOptions options, rest)

/-- Adds what a logical line says: an entry, or options for all entries. -/
def readLine (w : WatchFile) (line : Text) : Except ParseError WatchFile :=
  match takeOptions line with
  | .error e => .error e
  | .ok (options, rest) =>
    match Entry.ofWords? options (words rest) with
    | some entry => .ok (w.push entry)
    | none => .ok { w with options := w.options ++ options }

/-- Adds what each logical line says, up to the first error. -/
def readLines (w : WatchFile) : List Text → Except ParseError WatchFile
  | [] => .ok w
  | line :: lines =>
    match w.readLine line with
    | .ok w' => readLines w' lines
    | .error e => .error e

/-- Reads a watch file; `none` if there is nothing in the text but comments and blank lines. -/
def parse (t : Text) : Except ParseError (Option WatchFile) :=
  match logicalLines t with
  | (_, []) => .ok none
  | (none, _) => .error .missingVersion
  | (some version, _ :: lines) => (readLines { version } lines).map some

/-- Reads a watch file from a text that has to hold one. -/
def parseSome (t : Text) : Except ParseError WatchFile :=
  match parse t with
  | .ok (some w) => .ok w
  | .ok none => .error .missingVersion
  | .error e => .error e

end Packaging.WatchFile
