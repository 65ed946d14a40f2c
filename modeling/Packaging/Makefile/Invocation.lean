import Packaging.Text.Blank
import Packaging.Text.Scan
import Packaging.Text.Template

/-!
# Invocations of dh

A rules file calls `dh` with a target and options, and the option `--with`, after a blank and with
`=` or a space behind it, lists addons separated by commas. These functions read and edit a command
line as text, so that everything they do not mean to change stays as it is. A blank is a space or a
tab here.
-/

namespace Packaging.Makefile.Invocation

open Text

/-! ### Addons -/

/-- The option itself. -/
def withOption : Text := "--with".toList

/-- A blank, the option and its separator: the blank and the separator, and what comes after. -/
def withStart? : Recogniser (Char × Char)
  | blank :: t =>
    if isIndent blank then
      match dropStart? withOption t with
      | some (separator :: rest) =>
        if separator == '=' || separator == ' ' then some ((blank, separator), rest) else none
      | _ => none
    else none
  | [] => none

/-- An option with its list of addons, up to the next blank. -/
structure WithList where
  blank : Char
  separator : Char
  addons : Text
  deriving DecidableEq, Repr

/-- The option before its list. -/
def optionText (blank separator : Char) : Text := blank :: withOption ++ [separator]

/-- The text of the option and its list. -/
def WithList.render (w : WithList) : Text := optionText w.blank w.separator ++ w.addons

/-- An option with a list that is not empty. -/
def withList? : Recogniser WithList := fun t =>
  match withStart? t with
  | some ((blank, separator), rest) =>
    let (addons, rest) := rest.span (!isIndent ·)
    if addons.isEmpty then none else some (⟨blank, separator, addons⟩, rest)
  | none => none

/-- The addons that a command line asks for. -/
def addons (line : Text) : List Text :=
  (findAll withList? line).flatMap fun w => w.addons.splitOn ','

/-- The command line with one more addon in its first list, or in a list of its own. A dollar sign in
the addon refers to a group of the option it is added to: the option, its blank, its separator and
its list. -/
def addAddon (line addon : Text) : Text :=
  if (addons line).contains addon then line
  else
    let extended (w : WithList) : Text :=
      let groups := [w.render, [w.blank], [w.separator], w.addons]
      w.render ++ ',' :: Template.expand groups addon
    (replaceFirst? withList? extended line).getD (line ++ ' ' :: withOption ++ '=' :: addon)

/-- All ways to cut a text in two after at least one character of its first line, the longest first
part first. -/
def cuts : Text → List (Text × Text)
  | [] => []
  | c :: t =>
    if c = '\n' then [] else (cuts t).map (fun (a, b) => (c :: a, b)) ++ [([c], t)]

/-- The option with the addon alone in its list, at the end of the command line or with arguments
after it on the same line. What is kept are the arguments. -/
def onlyAddon? (addon : Text) : Recogniser Text := fun t =>
  match withStart? t with
  | some (_, rest) =>
    match dropStart? addon rest with
    | some [] => some ([], [])
    | some (' ' :: arguments) =>
      if !arguments.isEmpty && !arguments.contains '\n' then some (' ' :: arguments, []) else none
    | _ => none
  | none => none

/-- The option with the addon and a comma at the start of its list. -/
def firstAddon? (addon : Text) : Recogniser Text := fun t =>
  match withStart? t with
  | some ((blank, separator), rest) =>
    (dropStart? (addon ++ [',']) rest).map fun rest => (optionText blank separator, rest)
  | none => none

/-- The option and, further on in the same line, a comma, the addon, and a space or a comma; of
several such places the last. What is kept is all but the comma and the addon. -/
def middleAddon? (addon : Text) : Recogniser Text := fun t =>
  match withStart? t with
  | some ((blank, separator), rest) =>
    (cuts rest).findSome? fun (before, after) =>
      match dropStart? (',' :: addon) after with
      | some (c :: rest) =>
        if c == ' ' || c == ',' then some (optionText blank separator ++ before ++ [c], rest)
        else none
      | _ => none
  | none => none

/-- The option and, further on in the same line, a comma and the addon at the end of the command
line. What is kept is all but these. -/
def lastAddon? (addon : Text) : Recogniser Text := fun t =>
  match withStart? t with
  | some ((blank, separator), rest) =>
    (cuts rest).findSome? fun (before, after) =>
      if after = ',' :: addon then some (optionText blank separator ++ before, []) else none
  | none => none

/-- The command line without an addon: without the option where the addon is alone in its list, and
otherwise without the addon at the start, in the middle and at the end of a list. -/
def dropAddon (line addon : Text) : Text :=
  if occursIn addon line then
    [onlyAddon? addon, firstAddon? addon, middleAddon? addon, lastAddon? addon].foldl
      (fun line recognise => replaceAll recognise id line) line
  else line

/-! ### Arguments -/

/-- An argument between blanks: the blanks around it. -/
def standalone? (argument : Text) : Recogniser (Char × Char)
  | before :: t =>
    if isIndent before then
      match dropStart? argument t with
      | some (after :: rest) => if isIndent after then some ((before, after), rest) else none
      | _ => none
    else none
  | [] => none

/-- What comes before an argument that ends a command line, if it ends with a blank. -/
def beforeLast? (argument line : Text) : Option Text :=
  match dropEnd? argument line with
  | some before => if before.getLast?.any isIndent then some before else none
  | none => none

/-- The command line without an argument: at its end, with all blanks before it, and elsewhere with
the blank behind it. -/
def dropArgument (line argument : Text) : Text :=
  if occursIn argument line then
    let line :=
      match beforeLast? argument line with
      | some before => trimEndOf isIndent before
      | none => line
    replaceAll (standalone? argument) (fun (before, _) => [before]) line
  else line

/-- The command line with another argument in the place of one, at its end and elsewhere. -/
def replaceArgument (line old new : Text) : Text :=
  if occursIn old line then
    let line :=
      match beforeLast? old line with
      | some before => before ++ new
      | none => line
    replaceAll (standalone? old) (fun (before, after) => before :: new ++ [after]) line
  else line

end Packaging.Makefile.Invocation
