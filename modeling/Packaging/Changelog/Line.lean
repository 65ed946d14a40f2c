import Packaging.Text.Blank
import Packaging.Text.WordChar

/-!
# Header and trailer lines

The first line of an entry is `package (version) distributions; key=value, …`, the last one
` -- author <address>  date`. Every other line is part of the text of the changelog.
-/

namespace Packaging.Changelog

open Text

/-- A character of a package name or a distribution. The long s and the Kelvin sign are there as
other forms of the letters s and k. -/
def isNameChar (c : Char) : Bool :=
  c.isAlphanum || c == '-' || c == '+' || c == '.' || c == '\u017f' || c == '\u212a'

/-- A character of the text between the parentheses of a header. -/
def isVersionText (c : Char) : Bool := c != '(' && c != ')' && c != ' ' && c != '\t'

/-- The parts of a header line. -/
structure Header where
  package : Text
  version : Text
  distributions : Text
  settings : Text
  deriving DecidableEq, Repr

/-- Reads a header line. A package name begins with a word character, and distributions have blanks
before and between them. -/
def Header.parse? : Text → Option Header
  | [] => none
  | c :: t => do
    let (name, t) := t.span isNameChar
    let (version, t) := (← dropStart? [' ', '('] t).span isVersionText
    let t ← dropStart? [')'] t
    let distributions := t.takeWhile fun c => isBlank c || isNameChar c
    let settings ← dropStart? [';'] (t.drop distributions.length)
    if isWordChar c && !version.isEmpty && distributions.head?.any isBlank
        && distributions.getLast?.any isNameChar then
      some ⟨c :: name, version, trim distributions, trimStart settings⟩
    else none

/-- The parts of a trailer line. -/
structure Trailer where
  author : Text
  date : Option Text
  deriving DecidableEq, Repr

/-- The date in what follows the address: nothing, or what comes after one or two spaces. -/
def trailerDate? : Text → Option (Option Text)
  | [] => some none
  | ' ' :: ' ' :: date => some (some date)
  | ' ' :: date => some (some date)
  | _ => none

/-- Reads a trailer line. The address begins at the last `<` and ends at the last `>` for which the
line is a trailer. -/
def Trailer.parse? (line : Text) : Option Trailer := do
  let t ← dropStart? [' ', '-', '-', ' '] line
  (cutsAt [' ', '<'] t).findSome? fun (name, rest) =>
    (cutsAt ['>'] rest).findSome? fun (address, rest) =>
      (trailerDate? rest).map fun date => ⟨name ++ [' ', '<'] ++ address ++ ['>'], date⟩

end Packaging.Changelog
