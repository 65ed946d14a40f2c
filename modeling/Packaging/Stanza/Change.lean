import Packaging.Stanza.Basic
import Packaging.Text.Quoted

/-!
# Changes to a document

A list of changes names paragraphs by the value of one of their fields and says, field by field,
which value is expected and which one is wanted. Where the value found is another one, the change
is a conflict: a resolver chooses the value, and without one nothing is changed.
-/

namespace Packaging.Stanza

open Text

/-- Names a paragraph by the value of one of its fields. -/
structure ParagraphKey where
  field : Text
  value : Text
  deriving DecidableEq, Repr

namespace ParagraphKey

/-- The field of the paragraph has the value. -/
def isKeyOf (key : ParagraphKey) (p : Paragraph) : Bool := p.get? key.field == some key.value

/-- The key as a field. -/
def render (key : ParagraphKey) : Text := key.field ++ ": ".toList ++ key.value

end ParagraphKey

/-- A change to one field: the value it is expected to have and the value it is to get, where `none`
is for a field that is not there. -/
structure FieldChange where
  field : Text
  old : Option Text
  new : Option Text
  deriving DecidableEq, Repr

/-- The changes to a paragraph. -/
structure ParagraphChange where
  key : ParagraphKey
  fields : List FieldChange
  deriving DecidableEq, Repr

/-- A field did not have the value that a change expected. -/
structure ChangeConflict where
  key : ParagraphKey
  field : Text
  expected : Option Text
  actual : Option Text
  new : Option Text
  deriving DecidableEq, Repr

/-- The text of a conflict. -/
def ChangeConflict.message (c : ChangeConflict) : Text :=
  c.key.render ++ ": conflict in field ".toList ++ c.field ++ ": expected ".toList
    ++ quoteOption c.expected ++ ", found ".toList ++ quoteOption c.actual
    ++ " (wanted ".toList ++ quoteOption c.new ++ [')']

/-- Chooses the value to store on a conflict, `none` for no field, or gives up with a conflict. -/
abbrev Resolver (m : Type → Type) := ChangeConflict → ExceptT ChangeConflict m (Option Text)

namespace Paragraph

/-- Gives a field a value, or takes it away. -/
def put (p : Paragraph) (name : Text) : Option Text → Paragraph
  | some value => p.set name value
  | none => p.erase name

variable {m : Type → Type} [Monad m]

/-- The value that a change leads to. -/
def chooseValue (resolver? : Option (Resolver m)) (key : ParagraphKey) (p : Paragraph)
    (change : FieldChange) : ExceptT ChangeConflict m (Option Text) :=
  let actual := p.get? change.field
  if actual = change.old then pure change.new
  else
    let conflict : ChangeConflict := ⟨key, change.field, change.old, actual, change.new⟩
    match resolver? with
    | some resolve => resolve conflict
    | none => throw conflict

/-- Makes changes to a paragraph, in order. -/
def applyChanges (resolver? : Option (Resolver m)) (key : ParagraphKey) (p : Paragraph) :
    List FieldChange → ExceptT ChangeConflict m Paragraph
  | [] => pure p
  | change :: changes => do
    let value ← chooseValue resolver? key p change
    applyChanges resolver? key (p.put change.field value) changes

end Paragraph

namespace Document

/-- A document being changed, with the paragraphs that were added to it and their keys. -/
structure Amended where
  document : Document
  created : List (ParagraphKey × Nat) := []

namespace Amended

/-- The index of the paragraph that a key stands for: one added for this key, or the first one that
has it. -/
def findIdx? (a : Amended) (key : ParagraphKey) : Option Nat :=
  (a.created.lookup key).or (a.document.paragraphs.findIdx? key.isKeyOf)

/-- The index of the paragraph that a key stands for, which is added if there is none. -/
def locate (a : Amended) (key : ParagraphKey) : Amended × Nat :=
  match a.findIdx? key with
  | some i => (a, i)
  | none =>
    let i := a.document.size
    (⟨a.document.push {}, (key, i) :: a.created⟩, i)

variable {m : Type → Type} [Monad m]

/-- Makes the changes to one paragraph. -/
def apply (resolver? : Option (Resolver m)) (a : Amended) (change : ParagraphChange) :
    ExceptT ChangeConflict m Amended := do
  let (a, i) := a.locate change.key
  let p ← ((a.document.get? i).getD {}).applyChanges resolver? change.key change.fields
  return { a with document := a.document.set i p }

/-- Makes changes, in order. -/
def applyAll (resolver? : Option (Resolver m)) (a : Amended) :
    List ParagraphChange → ExceptT ChangeConflict m Amended
  | [] => pure a
  | change :: changes => do applyAll resolver? (← a.apply resolver? change) changes

end Amended

/-- Makes a list of changes to a document. A key that no paragraph has gets a new paragraph at the
end, and a key that comes again means the same paragraph. Either all changes are made, or the result
is the conflict that stopped them. -/
def applyChanges {m : Type → Type} [Monad m] (resolver? : Option (Resolver m)) (d : Document)
    (changes : List ParagraphChange) : ExceptT ChangeConflict m Document := do
  return (← Amended.applyAll resolver? ⟨d, []⟩ changes).document

end Document

end Packaging.Stanza
