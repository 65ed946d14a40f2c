import Packaging.Stanza.Basic
import Packaging.Value

/-!
# Documents as plain values

A document is the list of its paragraphs; a paragraph is a record with its `fields`, and a field a
record with its `name` and its `value`.
-/

namespace Packaging.Stanza

/-- A field as a record. -/
def Field.toValue (f : Field) : Value :=
  .ofEntries [("name", .text f.name), ("value", .text f.value)]

/-- Reads a field. -/
def Field.ofValue? (v : Value) : Option Field :=
  match v.asRecord? ["name".toList, "value".toList] with
  | some [some name, some value] => return ⟨← name.asText?, ← value.asText?⟩
  | _ => none

/-- A paragraph as a record. -/
def Paragraph.toValue (p : Paragraph) : Value :=
  .ofEntries [("fields", .list (p.fields.map Field.toValue))]

/-- Reads a paragraph. -/
def Paragraph.ofValue? (v : Value) : Option Paragraph :=
  match v.asRecord? ["fields".toList] with
  | some [some fields] => return ⟨← fields.asList? Field.ofValue?⟩
  | _ => none

/-- A document as a list of records. -/
def Document.toValue (d : Document) : Value := .list (d.paragraphs.map Paragraph.toValue)

/-- Reads a document. -/
def Document.ofValue? (v : Value) : Option Document :=
  return ⟨← v.asList? Paragraph.ofValue?⟩

end Packaging.Stanza
