import Packaging.Stanza.Basic
import Packaging.Stanza.Token
import Packaging.Text.Quoted
import Packaging.Text.Utf8

/-!
# Reading stanza files

A reader goes over the tokens once. It holds the paragraphs that are finished, the one it is in, the
field that a continuation line would extend, and what it expects on the current line. A blank line
ends a paragraph; a comment line does not. A field that comes again in a paragraph replaces the
value of the first and keeps its place.
-/

namespace Packaging.Stanza

open Text

/-- Why a text is no stanza file. Lines are counted from one. -/
inductive ParseError where
  /-- A continuation line comes before any field of its paragraph. -/
  | continuationWithoutField (line : Nat)
  /-- A line is no field, no continuation line and no comment. -/
  | missingColon (line : Nat) (text : Text)
  /-- One paragraph was wanted and there are several. -/
  | multipleParagraphs
  /-- The input is not UTF-8. -/
  | invalidUtf8 (error : Utf8Error)
  /-- The input could not be read, for the reason given. -/
  | io (reason : Text)
  deriving DecidableEq, Repr

namespace ParseError

/-- The text of the error. -/
def message : ParseError → Text
  | .continuationWithoutField line =>
    "line ".toList ++ ofNat line ++ ": continuation line outside of a field".toList
  | .missingColon line text =>
    "line ".toList ++ ofNat line ++ ": expected field, got ".toList ++ quote text
  | .multipleParagraphs => "expected a single paragraph".toList
  | .invalidUtf8 e => "invalid UTF-8: ".toList ++ e.message
  | .io reason => "IO error: ".toList ++ reason

/-- The text of the error behind this one. -/
def source? : ParseError → Option Text
  | .invalidUtf8 e => some e.message
  | .io reason => some reason
  | _ => none

end ParseError

/-- What the reader takes the next token of a line for. -/
inductive Expectation where
  /-- Anything a line may go on with. -/
  | anything
  /-- The colon after the name of the field at this index. -/
  | colon (index : Nat)
  /-- White space, or the value of the field at this index. -/
  | value (index : Nat)
  /-- The rest of a continuation line of the field at this index. -/
  | continuation (index : Nat)
  deriving DecidableEq, Repr

/-- The state of reading. -/
structure Reader where
  /-- The paragraphs that are finished. -/
  done : List Paragraph := []
  /-- The paragraph being read. -/
  current : Paragraph := {}
  /-- The index of the field that a continuation line extends. -/
  last : Option Nat := none
  /-- The number of the current line. -/
  line : Nat := 1
  /-- So far the current line holds white space only. -/
  blank : Bool := true
  expecting : Expectation := .anything
  deriving DecidableEq, Repr

namespace Reader

/-- Changes the value of the field at an index of the paragraph being read. -/
def editValue (r : Reader) (index : Nat) (change : Text → Text) : Reader :=
  { r with
    current := ⟨r.current.fields.modify index fun f => { f with value := change f.value }⟩
    expecting := .anything }

/-- Starts a field, whose value is empty until one is read. -/
def startField (r : Reader) (name : Text) : Reader :=
  let index := (r.current.fields.findIdx? (·.name == name)).getD r.current.size
  { r with
    current := r.current.set name []
    last := some index
    blank := false
    expecting := .colon index }

/-- Ends a line; a blank one ends the paragraph, if there is one. -/
def endLine (r : Reader) : Reader :=
  let r' := { r with line := r.line + 1, blank := true, expecting := .anything }
  if r.blank && !r.current.isEmpty then
    { r' with done := r.done ++ [r.current], current := {}, last := none }
  else r'

/-- Takes a token that nothing before it on the line asked for. -/
def begin (r : Reader) (t : Token) : Except ParseError Reader :=
  match t.kind with
  | .newline => .ok r.endLine
  | .whitespace => .ok { r with expecting := .anything }
  | .comment => .ok { r with blank := false, expecting := .anything }
  | .key => .ok (r.startField t.text)
  | .indent =>
    match r.last with
    | none => .error (.continuationWithoutField r.line)
    | some i =>
      .ok { r.editValue i (· ++ '\n' :: t.text) with blank := false, expecting := .continuation i }
  | .error | .value | .colon => .error (.missingColon r.line t.text)

/-- Takes the next token. -/
def step (r : Reader) (t : Token) : Except ParseError Reader :=
  match r.expecting, t.kind with
  | .colon i, _ => .ok { r with expecting := .value i }
  | .value _, .whitespace => .ok r
  | .value i, .value => .ok (r.editValue i fun _ => t.text)
  | .continuation i, .value => .ok (r.editValue i (· ++ t.text))
  | _, _ => r.begin t

/-- Takes tokens one after the other, up to the first error. -/
def run (r : Reader) : List Token → Except ParseError Reader
  | [] => .ok r
  | t :: ts =>
    match r.step t with
    | .ok r' => run r' ts
    | .error e => .error e

/-- The document read, with the paragraph being read as its last. -/
def document (r : Reader) : Document :=
  if r.current.isEmpty then ⟨r.done⟩ else ⟨r.done ++ [r.current]⟩

end Reader

namespace Document

/-- Reads a document. -/
def parse (t : Text) : Except ParseError Document :=
  match Reader.run {} (Token.ofText t) with
  | .ok r => .ok r.document
  | .error e => .error e

/-- Reads a document from UTF-8. -/
def ofBytes (bytes : List UInt8) : Except ParseError Document :=
  match decode bytes with
  | .ok t => parse t
  | .error e => .error (.invalidUtf8 e)

end Document

/-- Reads a text that holds one paragraph at most. -/
def Paragraph.parse (t : Text) : Except ParseError Paragraph :=
  match Document.parse t with
  | .ok ⟨[]⟩ => .ok {}
  | .ok ⟨[p]⟩ => .ok p
  | .ok _ => .error .multipleParagraphs
  | .error e => .error e

end Packaging.Stanza
