import Packaging.Edit.Failure
import Packaging.Text.Blank
import Packaging.Text.Utf8

/-!
# Generated files

A file that is generated should not be edited. It is taken for generated if a template stands beside
it, or if one of its first lines says so, in letters of either case. Only ASCII letters count here:
of the others just two have an ASCII letter in their small form, the Kelvin sign a `k`, which no mark
has, and the dotted capital `I` an `i` with a dot after it, which no mark has either.
-/

namespace Packaging.Edit

open Text

/-- What is added to the name of a file to get the names of its templates. -/
def templateEndings : List Text := [".in".toList, ".m4".toList]

/-- The number of lines that are looked at. -/
def scannedLines : Nat := 20

/-- A line that says that its file is generated. -/
def isGeneratedMark (line : Text) : Bool :=
  let mentions (mark : String) (t : Text) : Bool := occursIn mark.toList (toLower t)
  mentions "do not edit" line ||
    match dropStart? ['#'] (trimStart line) with
    | some comment => mentions "generated by" comment || mentions "autogenerated" comment
    | none => false

/-- The first lines of a file, with U+FFFD for what is not UTF-8. -/
def firstLines (bytes : List UInt8) : List Text :=
  ((bytes.splitOn 0x0A).take scannedLines).map decodeLossy

/-- The template of a file that stands beside it. -/
def template? (files : FileTree) (path : Path) : Option Path :=
  (templateEndings.map (path ++ ·)).find? files.contains

/-- Fails if a file is generated. A file that is not there is not. -/
def checkGenerated (files : FileTree) (path : Path) : Except Failure Unit :=
  match template? files path with
  | some template => .error (.generated path (some template))
  | none =>
    match files.read path with
    | .error .notFound => .ok ()
    | .error e => .error (.io e)
    | .ok bytes =>
      if (firstLines bytes).any isGeneratedMark then .error (.generated path none) else .ok ()

end Packaging.Edit
