import Packaging.Text.Blank
import Packaging.Text.Line

/-!
# Tokens of a stanza file

A stanza file is read line by line. Each line gives a few tokens, and the texts of all tokens, one
after the other, are the file again: a line break is a token too, and so is the carriage return
before it.
-/

namespace Packaging.Stanza

open Text

/-- What a token is. -/
inductive TokenKind where
  /-- A field name at the start of a line. -/
  | key
  /-- The colon after a field name. -/
  | colon
  /-- White space after a colon, a line of white space, or the carriage return of a line break. -/
  | whitespace
  /-- The text of a field, up to the end of the line. -/
  | value
  /-- A line break. -/
  | newline
  /-- The white space a continuation line begins with. -/
  | indent
  /-- A comment line, with its `#`. -/
  | comment
  /-- A line that is none of these. -/
  | error
  deriving DecidableEq, Repr

/-- A piece of a stanza file. -/
structure Token where
  kind : TokenKind
  text : Text
  deriving DecidableEq, Repr

namespace Token

/-- A token of the given kind, unless its text is empty. -/
def ofNonempty (kind : TokenKind) (text : Text) : List Token :=
  if text.isEmpty then [] else [⟨kind, text⟩]

/-- The tokens of what follows the colon of a field. -/
def ofFieldText (text : Text) : List Token :=
  ofNonempty .whitespace (text.takeWhile isIndent) ++ ofNonempty .value (text.dropWhile isIndent)

/-- A field name is not empty and has no white space in it. -/
def isKey (name : Text) : Bool := !name.isEmpty && !name.any isBlank

/-- The tokens of a line without its line break. -/
def ofLine (line : Text) : List Token :=
  if line.isEmpty then []
  else if isBlankLine line then [⟨.whitespace, line⟩]
  else if startsWith ['#'] line then [⟨.comment, line⟩]
  else if line.head?.any isIndent then
    [⟨.indent, line.takeWhile isIndent⟩, ⟨.value, line.dropWhile isIndent⟩]
  else
    match cut? ':' line with
    | none => [⟨.error, line⟩]
    | some (name, text) =>
      if isKey name then ⟨.key, name⟩ :: ⟨.colon, [':']⟩ :: ofFieldText text
      else [⟨.error, line⟩]

/-- The tokens of a line without its newline: one carriage return at its end is a token of its own. -/
def ofLineWithReturn (line : Text) : List Token :=
  match dropEnd? ['\r'] line with
  | some body => ofLine body ++ [⟨.whitespace, ['\r']⟩]
  | none => ofLine line

/-- The tokens of lines each of which, the last one apart, ends with a newline. -/
def ofLines : List Text → List Token
  | [] => []
  | [line] => ofLineWithReturn line
  | line :: lines => ofLineWithReturn line ++ ⟨.newline, ['\n']⟩ :: ofLines lines

/-- The tokens of a text. -/
def ofText (t : Text) : List Token := ofLines (t.splitOn '\n')

end Token

end Packaging.Stanza
