import Packaging.Text.Blank
import Packaging.Text.Scan
import Packaging.Text.WordChar

/-!
# Thanks

Changes thank people: `Thanks to Jane Doe`, `thank you Jane`. The name is the words after it that
begin with a capital letter from A to Z.
-/

namespace Packaging.Changelog

open Text

/-- A character of a name after its first letter. -/
def isNameLetter (c : Char) : Bool := isWordChar c || c == '\'' || c == '.' || c == '-'

/-- A word of a name with the blanks after it; it ends at a blank or at the end of the text. -/
def nameWord? : Recogniser Text
  | [] => none
  | c :: t =>
    let (letters, rest) := t.span isNameLetter
    let (blanks, after) := rest.span isBlank
    if c.isUpper && (rest.isEmpty || !blanks.isEmpty) then some (c :: letters ++ blanks, after)
    else none

/-- The words of a name that a text begins with. `fuel` is a bound on their number. -/
def nameWords (fuel : Nat) (t : Text) : Text × Text :=
  match fuel with
  | 0 => ([], t)
  | fuel + 1 =>
    match nameWord? t with
    | some (word, rest) =>
      let (words, rest) := nameWords fuel rest
      (word ++ words, rest)
    | none => ([], t)

/-- What follows `word`, if the text begins with it. -/
def optional (word t : Text) : Text := (dropStart? word t).getD t

/-- What follows one or more blanks. -/
def blanks? (t : Text) : Option Text := if t.head?.any isBlank then some (trimStart t) else none

/-- What follows `word` and the blanks after it, if the text begins with both. -/
def optionalWord (word t : Text) : Text := ((dropStart? word t).bind blanks?).getD t

/-- The name of somebody thanked at the start of a text. -/
def thanked? : Recogniser Text
  | [] => none
  | c :: t => do
    let t := optional ['s'] (← dropStart? "hank".toList t)
    let t := optionalWord "to".toList (optionalWord "you".toList (← blanks? t))
    let (name, rest) := nameWords t.length t
    if (c == 'T' || c == 't') && !name.isEmpty then some (name, rest) else none

/-- The name without blanks around it and full stops at its end. -/
def tidyName (name : Text) : Text := trimEndOf (· == '.') (trim name)

/-- The names of the people thanked in the lines, each once. -/
def thankedNames (lines : List Text) : List Text :=
  (lines.flatMap fun l => (findAll thanked? l).map tidyName).foldl
    (fun names n => if n.isEmpty || names.contains n then names else names ++ [n]) []

end Packaging.Changelog
