import Packaging.Stanza.Basic
import Packaging.Text.Blank
import Packaging.Text.Line

/-!
# Writing stanza files

A field is its name, a colon and its value; a value that starts on a line of its own leaves nothing
after the colon. Each further line of a value begins with white space, its own or one space.
Paragraphs are separated by one empty line, and a paragraph without fields is left out.
-/

namespace Packaging.Stanza

open Text

namespace Field

/-- The first line of a field. -/
def firstLine (name value : Text) : Text :=
  if value.isEmpty then name ++ [':'] else name ++ [':', ' '] ++ value

/-- A further line of a value: indented, by one space if it is not so already. -/
def furtherLine (line : Text) : Text := if line.head?.any isIndent then line else ' ' :: line

/-- The lines of a field. -/
def renderLines (f : Field) : List Text :=
  match f.value.splitOn '\n' with
  | [] => [firstLine f.name []]
  | first :: further => firstLine f.name first :: further.map furtherLine

/-- The text of a field. -/
def render (f : Field) : Text := unlines f.renderLines

end Field

/-- The text of a paragraph. -/
def Paragraph.render (p : Paragraph) : Text := p.fields.flatMap Field.render

/-- The text of a document. -/
def Document.render (d : Document) : Text :=
  join ['\n'] (d.compact.paragraphs.map Paragraph.render)

end Packaging.Stanza
