import Packaging.Text.Basic

/-!
# Documents of paragraphs of fields

A document is a list of paragraphs and a paragraph a list of fields, in the order in which they are
written. Fields are found by name, and where several have the same name the first one counts.
-/

namespace Packaging.Stanza

open Text

/-- A name and its value. The lines of a value are separated by newlines; those after the first keep
the white space in front of them. -/
structure Field where
  name : Text
  value : Text
  deriving DecidableEq, Repr

/-- A list of fields. -/
structure Paragraph where
  fields : List Field := []
  deriving DecidableEq, Repr

/-- A list of paragraphs. -/
structure Document where
  paragraphs : List Paragraph := []
  deriving DecidableEq, Repr

namespace Paragraph

/-- The paragraph without fields. -/
def empty : Paragraph := {}

/-- The paragraph has no fields. -/
def isEmpty (p : Paragraph) : Bool := p.fields.isEmpty

/-- The number of fields. -/
def size (p : Paragraph) : Nat := p.fields.length

/-- The names of the fields, in order. -/
def names (p : Paragraph) : List Text := p.fields.map Field.name

/-- The value of the first field with this name. -/
def get? (p : Paragraph) (name : Text) : Option Text :=
  (p.fields.find? (·.name == name)).map Field.value

/-- The value of the first field with this name up to the case of ASCII letters. -/
def getIgnoreCase? (p : Paragraph) (name : Text) : Option Text :=
  (p.fields.find? fun f => eqIgnoreCase f.name name).map Field.value

/-- Some field has this name. -/
def contains (p : Paragraph) (name : Text) : Bool := p.fields.any (·.name == name)

/-- Changes the first field with this name. -/
def updateFirst (name : Text) (change : Field → Field) : List Field → List Field
  | [] => []
  | f :: fs => if f.name == name then change f :: fs else f :: updateFirst name change fs

/-- Gives the field with this name a value. A field that is there keeps its place, a new one goes to
the end. -/
def set (p : Paragraph) (name value : Text) : Paragraph :=
  if p.contains name then ⟨updateFirst name (fun f => { f with value }) p.fields⟩
  else ⟨p.fields ++ [⟨name, value⟩]⟩

/-- Gives the first field called `old` the name `new`; `none` if there is no such field. -/
def rename? (p : Paragraph) (old new : Text) : Option Paragraph :=
  if p.contains old then some ⟨updateFirst old (fun f => { f with name := new }) p.fields⟩
  else none

/-- The paragraph without its first field of this name. -/
def erase (p : Paragraph) (name : Text) : Paragraph := ⟨p.fields.eraseP (·.name == name)⟩

/-- Changes every value. -/
def mapValues (change : Text → Text) (p : Paragraph) : Paragraph :=
  ⟨p.fields.map fun f => { f with value := change f.value }⟩

/-- The paragraph that comes of setting each name to its value, in order. -/
def ofList (pairs : List (Text × Text)) : Paragraph :=
  pairs.foldl (fun p (name, value) => p.set name value) empty

/-- The names and values, in order. -/
def toList (p : Paragraph) : List (Text × Text) := p.fields.map fun f => (f.name, f.value)

end Paragraph

namespace Document

/-- The document without paragraphs. -/
def empty : Document := {}

/-- The document has no paragraphs. -/
def isEmpty (d : Document) : Bool := d.paragraphs.isEmpty

/-- The number of paragraphs, those without fields included. -/
def size (d : Document) : Nat := d.paragraphs.length

/-- The paragraph at an index. -/
def get? (d : Document) (i : Nat) : Option Paragraph := d.paragraphs[i]?

/-- Puts a paragraph in the place of the one at an index. -/
def set (d : Document) (i : Nat) (p : Paragraph) : Document := ⟨d.paragraphs.set i p⟩

/-- Changes the paragraph at an index. -/
def modify (d : Document) (i : Nat) (change : Paragraph → Paragraph) : Document :=
  ⟨d.paragraphs.modify i change⟩

/-- The index of the first paragraph whose field has exactly this value. -/
def findIdx? (d : Document) (field value : Text) : Option Nat :=
  d.paragraphs.findIdx? fun p => p.get? field == some value

/-- The first paragraph whose field has exactly this value. -/
def find? (d : Document) (field value : Text) : Option Paragraph :=
  d.paragraphs.find? fun p => p.get? field == some value

/-- Adds a paragraph at the end. -/
def push (d : Document) (p : Paragraph) : Document := ⟨d.paragraphs ++ [p]⟩

/-- Puts a paragraph before the one at an index, or at the end; `none` beyond that. -/
def insert? (d : Document) (i : Nat) (p : Paragraph) : Option Document :=
  if i ≤ d.size then some ⟨d.paragraphs.insertIdx i p⟩ else none

/-- The document without the paragraph at an index. -/
def eraseIdx (d : Document) (i : Nat) : Document := ⟨d.paragraphs.eraseIdx i⟩

/-- The paragraphs that have fields. -/
def compact (d : Document) : Document := ⟨d.paragraphs.filter (!·.isEmpty)⟩

/-- The paragraphs in the opposite order. -/
def reverse (d : Document) : Document := ⟨d.paragraphs.reverse⟩

end Document

end Packaging.Stanza
