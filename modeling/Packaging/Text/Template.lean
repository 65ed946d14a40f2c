import Packaging.Text.Basic

/-!
# Templates

A template is a text with references to numbered groups: `$2`, or `${2}` where a digit, a letter or
an underscore follows. A reference to a group that there is not, or by a name, stands for nothing.
Two dollar signs stand for one, and so does a dollar sign that begins no reference.
-/

namespace Packaging.Text.Template

/-- A character of a name without braces. -/
def isNameChar (c : Char) : Bool := c.isAlphanum || c == '_'

/-- The number that a name is, with a plus sign in front of it or not. -/
def number? (name : Text) : Option Nat :=
  let digits := (dropStart? ['+'] name).getD name
  if !digits.isEmpty && digits.all Char.isDigit then some (digitsValue digits) else none

/-- The text of the group that a name refers to. -/
def group (groups : List Text) (name : Text) : Text :=
  ((number? name).bind fun n => groups[n]?).getD []

/-- The name in the reference that a text after a dollar sign begins with, and the number of
characters the reference takes. -/
def reference? : Text → Option (Text × Nat)
  | '{' :: t => (cut? '}' t).map fun (name, _) => (name, name.length + 2)
  | t =>
    let name := t.takeWhile isNameChar
    if name.isEmpty then none else some (name, name.length)

/-- The template with the groups in the place of the references. `skip` characters are part of a
reference that was already replaced. -/
def expandFrom (groups : List Text) (skip : Nat) : Text → Text
  | [] => []
  | c :: t =>
    match skip with
    | skip + 1 => expandFrom groups skip t
    | 0 =>
      if c = '$' then
        if startsWith ['$'] t then '$' :: expandFrom groups 1 t
        else
          match reference? t with
          | some (name, length) => group groups name ++ expandFrom groups length t
          | none => '$' :: expandFrom groups 0 t
      else c :: expandFrom groups 0 t

/-- The template with the groups in the place of the references. -/
def expand (groups : List Text) (template : Text) : Text := expandFrom groups 0 template

end Packaging.Text.Template
