import Packaging.Edit.OpenFile
import Packaging.Makefile.Edit

/-!
# Rules files

A rules file is the makefile that builds a package. It is changed as a whole, then rule by rule,
then line by line; at the end rules that have become pointless are dropped.
-/

namespace Packaging.Edit

open Makefile

/-- What is done to a rules file; by default nothing. -/
structure RulesChange (m : Type → Type) [Monad m] where
  /-- Done to the makefile first. -/
  makefile : Makefile → m Makefile := pure
  /-- The commands to put in the place of a command of a rule with some targets. -/
  command : Text → List Text → m (List Text) := fun command _ => pure [command]
  /-- Done to every rule that is not cleared, after its commands. -/
  rule : Rule → m Rule := pure
  /-- The lines to put in the place of a line outside of rules. -/
  line : Text → m (List Text) := fun line => pure [line]

variable {m : Type → Type} [Monad m]

/-- Changes the commands of a rule. A rule that thereby loses all its commands is cleared, unless it
has prerequisites. -/
def changeCommands (change : RulesChange m) (r : Rule) : m Rule := do
  let new ← r.replaceCommandsM change.command
  return if !r.commands.isEmpty && new.commands.isEmpty && new.prerequisites.isEmpty then .cleared
    else new

/-- Changes a rule. -/
def changeRule (change : RulesChange m) (r : Rule) : m Rule := do
  let new ← changeCommands change r
  if new.isCleared then return new else change.rule new

/-- Changes a makefile. The result also has the targets of the pointless rules that were dropped. -/
def changeRules (change : RulesChange m) (mk : Makefile) : m (Makefile × List Text) := do
  let mk ← change.makefile mk
  let mk ← mk.mapRulesM (changeRule change)
  let mk ← mk.replaceGlobalLinesM change.line
  return mk.discardPointlessOverrides false

/-- Changes a rules file. The result says whether the file was written. -/
def updateRules (files : FileTree) (path : Path) (options : Options) (change : RulesChange m) :
    m (Outcome Bool) :=
  match openFile .makefile files path options with
  | .error e => pure ⟨.error e, files, []⟩
  | .ok file => do
    let (model, dropped) ← changeRules change file.model
    let outcome := { file with model }.commit .makefile files
    return { outcome with notes := dropped.map .pointlessOverride ++ outcome.notes }

end Packaging.Edit
