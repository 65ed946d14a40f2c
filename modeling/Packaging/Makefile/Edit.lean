import Packaging.Makefile.Basic

/-!
# Editing makefiles

Variables are looked up outside of rules only. Rules are dropped by clearing them, and a target that
no longer has a rule is taken off the list of phony targets as well. An override rule that does
nothing but run the command it overrides is pointless and can be discarded.
-/

namespace Packaging.Makefile

open Text

/-! ### Variables -/

/-- What follows one or more blanks at the start of a text, the longest run of blanks first. -/
def afterBlanks : Text → List Text
  | [] => []
  | c :: t => if isBlank c then afterBlanks t ++ [t] else []

/-- The value that a line which begins with `name` assigns, by `=`, `:=` or `?=`. -/
def assignedTo? (name line : Text) : Option Text := do
  let rest := trimStart (← dropStart? name line)
  let rest :=
    match rest with
    | ':' :: r | '?' :: r => r
    | r => r
  return trim (← dropStart? ['='] rest)

/-- The value that a line assigns to `name`; the word `export` may stand before the name. -/
def assignment? (name line : Text) : Option Text :=
  ((dropStart? "export".toList line).bind fun rest =>
    (afterBlanks rest).findSome? (assignedTo? name)).or (assignedTo? name line)

/-- The value of a variable by its first assignment outside of rules. -/
def valueOf? (mk : Makefile) (name : Text) : Option Text :=
  mk.globalLines.findSome? (assignment? name)

/-! ### Rules -/

/-- The last entry is a rule that is not cleared. -/
def endsWithRule (mk : Makefile) : Bool :=
  (mk.entries.getLast?.bind Entry.rule?).any (!·.isCleared)

/-- Adds a rule at the end, after an empty line if a rule would come directly before it. -/
def addRule (mk : Makefile) (r : Rule) : Makefile :=
  let gap : List Entry := if mk.endsWithRule then [.line []] else []
  { mk with entries := mk.entries ++ gap ++ [.rule r] }

/-- The target whose prerequisites are the targets that are no files. -/
def phony : Text := ".PHONY".toList

/-- A rule without this prerequisite, cleared if that leaves it without any. -/
def Rule.dropPrerequisite (target : Text) (r : Rule) : Rule :=
  if r.hasPrerequisite target then
    let r := r.removePrerequisite target
    if r.prerequisites.isEmpty then .cleared else r
  else r

/-- Takes a target off the lists of phony targets. -/
def dropPhony (mk : Makefile) (target : Text) : Makefile :=
  mk.mapRulesIf (·.hasTarget phony) (Rule.dropPrerequisite target)

/-- A rule without this target, cleared if it has no other. -/
def Rule.dropTarget (target : Text) (r : Rule) : Rule :=
  if r.targets.length > 1 then r.removeTarget target else .cleared

/-- Drops the rules for a target, which a rule for several targets merely loses. -/
def dropRule (mk : Makefile) (target : Text) : Makefile :=
  if mk.rules.any (·.hasTarget target) then
    (mk.mapRulesIf (·.hasTarget target) (Rule.dropTarget target)).dropPhony target
  else mk

/-- A rule without this target, and a note that it had it. -/
def Rule.dropTargetNoting (target : Text) (r : Rule) : StateM Bool Rule :=
  if r.hasTarget target then do
    set true
    return r.dropTarget target
  else return r

/-- Drops the rules for a target, and says whether there were any. -/
def dropRuleNoting (mk : Makefile) (target : Text) : Makefile × Bool :=
  let (mk, found) := (mk.mapRulesM (Rule.dropTargetNoting target)).run false
  (if found then mk.dropPhony target else mk, found)

/-! ### Pointless overrides -/

/-- What the target of an override rule begins with. -/
def overrideStart : Text := "override_".toList

/-- The lines of a body that count: not blank, and no comments if those are ignored. -/
def Rule.effectiveLines (ignoreComments : Bool) (r : Rule) : List Text :=
  r.body.filter fun l => !isBlankLine l && !(ignoreComments && isComment l)

/-- The rule has this one target and no prerequisites, and does nothing but run the command. -/
def Rule.onlyRuns (ignoreComments : Bool) (target command : Text) (r : Rule) : Bool :=
  r.targets == [target] && r.prerequisites.isEmpty
    && r.effectiveLines ignoreComments == ['\t' :: command]

/-- Clears the pointless override rules for one target. The result has the target once for every
rule that was cleared. -/
def discardPointlessOverride (mk : Makefile) (target : Text) (ignoreComments : Bool) :
    Makefile × List Text :=
  match dropStart? overrideStart target with
  | none => (mk, [])
  | some command =>
    let pointless := Rule.onlyRuns ignoreComments target command
    let discarded := (mk.rules.filter pointless).map fun _ => target
    if discarded.isEmpty then (mk, [])
    else ((mk.mapRulesIf pointless fun _ => .cleared).dropPhony target, discarded)

/-- The targets of override rules, in order. -/
def overrideTargets (mk : Makefile) : List Text :=
  (mk.rules.flatMap Rule.targets).filter (startsWith overrideStart)

/-- Clears all pointless override rules, target by target. The result has the target of every rule
that was cleared. -/
def discardPointlessOverrides (mk : Makefile) (ignoreComments : Bool) : Makefile × List Text :=
  mk.overrideTargets.foldl (fun (mk, done) target =>
    let (mk, discarded) := mk.discardPointlessOverride target ignoreComments
    (mk, done ++ discarded)) (mk, [])

/-! ### Replacing commands and lines -/

/-- Puts commands in the place of each command of every rule. -/
def replaceCommands (f : Text → List Text → List Text) (mk : Makefile) : Makefile :=
  mk.mapRules (Rule.replaceCommands f)

/-- Puts lines in the place of each line outside of rules. -/
def replaceGlobalLinesM {m : Type → Type} [Monad m] (f : Text → m (List Text)) (mk : Makefile) :
    m Makefile := do
  let parts ← mk.entries.mapM fun
    | .line l => do return (← f l).map .line
    | .rule r => pure [.rule r]
  return { mk with entries := parts.flatten }

/-- Puts lines in the place of each line outside of rules. -/
def replaceGlobalLines (f : Text → List Text) (mk : Makefile) : Makefile :=
  { mk with
    entries := mk.entries.flatMap fun
      | .line l => (f l).map .line
      | .rule r => [.rule r] }

end Packaging.Makefile
