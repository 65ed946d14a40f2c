import Packaging.Text.Blank

/-!
# Filling lines

Text is filled into lines word by word: a word goes to the current line if the line stays within the
width, and otherwise begins the next line. Words are never broken, and a word that announces a
bug number stays together with the word after it.
-/

namespace Packaging.Changelog

open Text

/-- The words after which no line ends. -/
def isAnnouncement (word : Text) : Bool :=
  endsWith "Closes:".toList word || endsWith "LP:".toList word

/-- Joins every word that announces a number to the word after it. -/
def glue : List Text → List Text
  | [] => []
  | [w] => [w]
  | w :: v :: ws => if isAnnouncement w then (w ++ ' ' :: v) :: glue ws else w :: glue (v :: ws)

/-- The pieces of a text that no line break may divide. -/
def chunks (t : Text) : List Text := glue (words t)

/-- How lines are filled. -/
structure Filler where
  /-- The width that lines should keep to. -/
  width : Nat
  /-- What the first line begins with. -/
  first : Text
  /-- What the other lines begin with. -/
  further : Text
  deriving DecidableEq, Repr

namespace Filler

/-- The usual width of a line. -/
def usualWidth : Nat := 80

/-- The filler whose other lines are indented as far as the first one begins. -/
def hanging (first : Text) : Filler :=
  { width := usualWidth, first, further := List.replicate first.length ' ' }

/-- The lines from the current one on. -/
def fillFrom (f : Filler) (line : Text) : List Text → List Text
  | [] => [line]
  | c :: cs =>
    if line.length + 1 + c.length ≤ f.width then fillFrom f (line ++ ' ' :: c) cs
    else line :: fillFrom f (f.further ++ c) cs

/-- The lines that chunks fill. -/
def fillChunks (f : Filler) : List Text → List Text
  | [] => []
  | c :: cs => f.fillFrom (f.first ++ c) cs

/-- The lines that a text fills. -/
def fill (f : Filler) (t : Text) : List Text := f.fillChunks (chunks t)

end Filler

end Packaging.Changelog
