import Packaging.Edit.OpenFile

/-!
# Control files

A control file has a paragraph for the source package, known by its field `Source`, and paragraphs
for binary packages, known by their field `Package`.
-/

namespace Packaging

open Text

namespace Stanza

/-- The paragraph is that of a source package. -/
def Paragraph.isSource (p : Paragraph) : Bool := p.contains "Source".toList

/-- The paragraph is that of a binary package. -/
def Paragraph.isBinary (p : Paragraph) : Bool := p.contains "Package".toList

namespace Document

/-- The first paragraph of a source package. -/
def source? (d : Document) : Option Paragraph := d.paragraphs.find? Paragraph.isSource

/-- The index of the first paragraph of a source package. -/
def sourceIdx? (d : Document) : Option Nat := d.paragraphs.findIdx? Paragraph.isSource

/-- The paragraphs of binary packages. -/
def binaries (d : Document) : List Paragraph := d.paragraphs.filter Paragraph.isBinary

/-- Changes every paragraph in turn. -/
def mapParagraphsM {m : Type → Type} [Monad m] (f : Paragraph → m Paragraph) (d : Document) :
    m Document := do
  return ⟨← d.paragraphs.mapM f⟩

end Document

end Stanza

namespace Edit

open Stanza

/-- Changes a control file: `source` is done to the paragraphs of source packages, and `binary` to
the other ones of binary packages. The result says whether the file was written. -/
def updateControl {m : Type → Type} [Monad m] (files : FileTree) (path : Path) (options : Options)
    (source binary : Paragraph → m Paragraph) : m (Outcome Bool) :=
  update .stanzas files path options (Document.mapParagraphsM fun p =>
    if p.isSource then source p else if p.isBinary then binary p else pure p)

end Edit

end Packaging
