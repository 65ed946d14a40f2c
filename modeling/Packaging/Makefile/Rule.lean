import Packaging.Makefile.Line
import Packaging.Makefile.Pattern

/-!
# Rules of a makefile

A rule keeps the text of its header as it was read, and beside it the targets and prerequisites that
the header names. The text is made anew when one of them changes. A rule without header and body is
cleared: it stays in its place and is left out when the makefile is written.
-/

namespace Packaging.Makefile

open Text

/-- A rule, with the comment lines directly before it. -/
structure Rule where
  header : Text := []
  targets : List Text := []
  prerequisites : List Text := []
  body : List Text := []
  precomment : List Text := []
  deriving DecidableEq, Repr

namespace Rule

/-- The words of one side of a header; a backslash between words only continues the line. -/
def headerWords (side : Text) : List Text := (words side).filter (· != ['\\'])

/-- The rule that a header names. -/
def ofHeader (header : Text) : Rule :=
  let (left, right) := (cut? ':' header).getD (header, [])
  { header
    targets := headerWords left
    prerequisites := headerWords ((dropStart? [':'] right).getD right) }

/-- The header with these targets and prerequisites. -/
def headerText (targets prerequisites : List Text) : Text :=
  if prerequisites.isEmpty then join [' '] targets ++ [':']
  else join [' '] targets ++ [':', ' '] ++ join [' '] prerequisites

/-- The rule with its header made anew from its targets and prerequisites. -/
def withHeader (r : Rule) : Rule := { r with header := headerText r.targets r.prerequisites }

/-- A rule for the targets that the words of `target` are. -/
def make (target : Text) (prerequisites precomment : List Text) : Rule :=
  withHeader { targets := words target, prerequisites, precomment }

/-- The cleared rule. -/
def cleared : Rule := {}

/-- The rule has neither header nor body. -/
def isCleared (r : Rule) : Bool := r.header.isEmpty && r.body.isEmpty

/-- The rule names exactly this target. -/
def hasTarget (r : Rule) (target : Text) : Bool := r.targets.contains target

/-- One of the rule's targets is a pattern for this target. -/
def appliesTo (r : Rule) (target : Text) : Bool := r.targets.any (Pattern.accepts · target)

/-- The rule with every target `old` called `new`. -/
def renameTarget (r : Rule) (old new : Text) : Rule :=
  if r.hasTarget old then
    withHeader { r with targets := r.targets.map fun t => if t = old then new else t }
  else r

/-- The rule without this target. -/
def removeTarget (r : Rule) (target : Text) : Rule :=
  if r.hasTarget target then withHeader { r with targets := r.targets.filter (· != target) } else r

/-- The rule names this prerequisite. -/
def hasPrerequisite (r : Rule) (prerequisite : Text) : Bool := r.prerequisites.contains prerequisite

/-- The rule with one more prerequisite. -/
def addPrerequisite (r : Rule) (prerequisite : Text) : Rule :=
  withHeader { r with prerequisites := r.prerequisites ++ [prerequisite] }

/-- The rule without this prerequisite. -/
def removePrerequisite (r : Rule) (prerequisite : Text) : Rule :=
  if r.hasPrerequisite prerequisite then
    withHeader { r with prerequisites := r.prerequisites.filter (· != prerequisite) }
  else r

/-- The command of a recipe line: the line without its tab. -/
def command? (line : Text) : Option Text := dropStart? ['\t'] line

/-- The commands of the recipe. -/
def commands (r : Rule) : List Text := r.body.filterMap command?

/-- The rule with one more line in its body. -/
def addLine (r : Rule) (line : Text) : Rule := { r with body := r.body ++ [line] }

/-- The rule with one more command. -/
def addCommand (r : Rule) (command : Text) : Rule := r.addLine ('\t' :: command)

/-- The lines of the rule, without the comment before it. -/
def lines (r : Rule) : List Text := if r.header.isEmpty then r.body else r.header :: r.body

/-- Puts commands in the place of each command. `f` is given the command and the rule's targets. -/
def replaceCommandsM {m : Type → Type} [Monad m] (f : Text → List Text → m (List Text)) (r : Rule) :
    m Rule := do
  let parts ← r.body.mapM fun line =>
    match command? line with
    | some command => do return (← f command r.targets).map ('\t' :: ·)
    | none => pure [line]
  return { r with body := parts.flatten }

/-- Puts commands in the place of each command. -/
def replaceCommands (f : Text → List Text → List Text) (r : Rule) : Rule :=
  { r with
    body := r.body.flatMap fun line =>
      match command? line with
      | some command => (f command r.targets).map ('\t' :: ·)
      | none => [line] }

end Rule

end Packaging.Makefile
