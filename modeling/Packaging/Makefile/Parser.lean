import Packaging.Makefile.Basic
import Packaging.Text.Utf8

/-!
# Reading makefiles

Logical lines are taken one by one. A rule header opens a rule, which takes the comment lines
directly before it with it; a first line `#!` is no such comment. Recipe lines, blank lines and
comments go to the open rule, and so does a conditional that begins inside it, up to its `endif`.
Any other line closes the rule; the blank and comment lines at its end then stand after it.
-/

namespace Packaging.Makefile

open Text

/-- The state of reading: the entries so far, the open rule, and how many conditionals are open in
it. -/
structure Reader where
  entries : List Entry := []
  current : Option Rule := none
  depth : Nat := 0
  deriving DecidableEq, Repr

namespace Reader

/-- A line that does not stay with a rule at its end. -/
def isLoose (line : Text) : Bool := isBlankLine line || isComment line

/-- A comment that belongs to the rule after it. -/
def isRuleComment (line : Text) : Bool := isComment line && !startsWith ['#', '!'] line

/-- A rule and, after it, the loose lines at the end of its body. -/
def closedEntries (r : Rule) : List Entry :=
  let loose := (r.body.reverse.takeWhile isLoose).reverse
  let body := (r.body.reverse.dropWhile isLoose).reverse
  .rule { r with body } :: loose.map .line

/-- Closes the open rule. -/
def closeRule (s : Reader) : Reader :=
  match s.current with
  | none => { s with depth := 0 }
  | some r => { entries := s.entries ++ closedEntries r, current := none, depth := 0 }

/-- The comment lines at the end of a list of entries, and the entries before them. -/
def splitComment (entries : List Entry) : List Entry × List Text :=
  match entries with
  | [] => ([], [])
  | e :: es =>
    match splitComment es, e with
    | ([], comment), .line l => if isRuleComment l then ([], l :: comment) else ([e], comment)
    | (before, comment), e => (e :: before, comment)

/-- Opens a rule with this header. -/
def openRule (s : Reader) (header : Text) : Reader :=
  let s := s.closeRule
  let (entries, precomment) := splitComment s.entries
  { s with entries, current := some { Rule.ofHeader header with precomment } }

/-- Puts a line into the open rule, or outside of rules if none is open. -/
def addLine (s : Reader) (line : Text) : Reader :=
  match s.current with
  | some r => { s with current := some (r.addLine line) }
  | none => { s with entries := s.entries ++ [.line line] }

/-- Puts a line into the open rule. It is lost if none is open. -/
def addRuleLine (s : Reader) (line : Text) : Reader :=
  { s with current := s.current.map (·.addLine line) }

/-- Takes a logical line. -/
def feed (s : Reader) (line : Text) : Reader :=
  if isRecipe line || isLoose line then s.addLine line
  else if opensConditional line then
    let depth := if s.current.isSome then s.depth + 1 else s.depth
    { s.addLine line with depth }
  else if (isElse line || closesConditional line) && s.depth > 0 then
    let depth := if closesConditional line then s.depth - 1 else s.depth
    { s.addRuleLine line with depth }
  else if isRuleHeader line && !isInclude line then s.openRule line
  else s.closeRule.addLine line

end Reader

/-- Reads a makefile. Every text is one. -/
def parse (t : Text) : Makefile :=
  if t.isEmpty then {}
  else
    let (body, lacksFinalNewline) :=
      match dropEnd? ['\n'] t with
      | some body => (body, false)
      | none => (t, true)
    let s := (logicalLines body).foldl Reader.feed {}
    { entries := s.closeRule.entries, lacksFinalNewline }

/-- Reads a makefile from UTF-8. -/
def ofBytes (bytes : List UInt8) : Except Utf8Error Makefile := (decode bytes).map parse

/-- The text of the error for bytes that are not UTF-8. -/
def utf8Message (e : Utf8Error) : Text := "invalid UTF-8: ".toList ++ e.message

end Packaging.Makefile
