import Packaging.Text.Blank

/-!
# Target patterns

In a target pattern `%` stands for any text within a line, and every other character for itself.
-/

namespace Packaging.Makefile.Pattern

open Text

/-- `accept` holds of what is left of a text after some characters of its first line. -/
def afterSome (accept : Text → Bool) : Text → Bool
  | [] => accept []
  | c :: t => accept (c :: t) || (c != '\n' && afterSome accept t)

/-- The text is an instance of the pattern. -/
def accepts : (pattern text : Text) → Bool
  | [], t => t.isEmpty
  | c :: p, t =>
    if c = '%' then afterSome (accepts p) t
    else
      match t with
      | [] => false
      | d :: t => c = d && accepts p t

/-- The characters that a regular expression gives a meaning of their own. -/
def metaCharacters : List Char :=
  ['\\', '.', '+', '*', '?', '(', ')', '|', '[', ']', '{', '}', '^', '$', '#', '&', '-', '~']

/-- The regular expression for one character of a pattern. -/
def regexOfChar (c : Char) : Text :=
  if c = '%' then ['.', '*'] else if metaCharacters.contains c then ['\\', c] else [c]

/-- The regular expression that matches the instances of a pattern. -/
def toRegex (pattern : Text) : Text := ['^'] ++ pattern.flatMap regexOfChar ++ ['$']

end Packaging.Makefile.Pattern
