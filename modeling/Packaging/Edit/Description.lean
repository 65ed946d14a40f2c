import Packaging.Edit.OpenFile
import Packaging.Text.Quoted

/-!
# Descriptions of open files

What an open file holds, on one line, for messages that help to find a mistake.
-/

namespace Packaging.Edit

open Text

/-- A record with named parts. -/
def describeRecord (name : String) (parts : List (String × Text)) : Text :=
  let part (p : String × Text) : Text := p.1.toList ++ [':', ' '] ++ p.2
  name.toList ++ [' ', '{', ' '] ++ join [',', ' '] (parts.map part) ++ [' ', '}']

/-- A list. -/
def describeList {α : Type} (describe : α → Text) (items : List α) : Text :=
  '[' :: join [',', ' '] (items.map describe) ++ [']']

/-- A truth value. -/
def describeBool (b : Bool) : Text := (if b then "true" else "false").toList

/-- Options. -/
def Options.describe (o : Options) : Text :=
  describeRecord "EditorOptions" [("allow_generated", describeBool o.allowGenerated),
    ("allow_reformatting", describeBool o.allowReformatting),
    ("allow_missing", describeBool o.allowMissing)]

/-- A list of lines. -/
def describeLines (l : LineList) : Text :=
  describeRecord "Lines" [("lines", describeList quote l.lines),
    ("original", describeList quote l.asRead),
    ("missing_final_newline", describeBool l.lacksFinalNewline)]

/-- A document of paragraphs. -/
def describeDocument (d : Stanza.Document) : Text :=
  let field (f : Stanza.Field) : Text :=
    describeRecord "Field" [("name", quote f.name), ("value", quote f.value)]
  let paragraph (p : Stanza.Paragraph) : Text :=
    describeRecord "Paragraph" [("fields", describeList field p.fields)]
  "Deb822(".toList ++ describeList paragraph d.paragraphs ++ [')']

/-- An open file. -/
def OpenFile.describe {M : Type} (describeModel : M → Text) (file : OpenFile M) : Text :=
  describeRecord "Editor" [("path", quote file.path), ("options", file.options.describe),
    ("model", describeModel file.model)]

end Packaging.Edit
