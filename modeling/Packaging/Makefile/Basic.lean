import Packaging.Makefile.Rule

/-!
# Makefiles

A makefile is a list of entries: rules, and lines outside of rules, which are kept as they are. It
also keeps whether the text ended with a newline.
-/

namespace Packaging

open Text

namespace Makefile

/-- A line outside of rules, or a rule. -/
inductive Entry where
  | line (text : Text)
  | rule (rule : Rule)
  deriving DecidableEq, Repr

namespace Entry

/-- The rule, of an entry that is one. -/
def rule? : Entry → Option Rule
  | .rule r => some r
  | .line _ => none

/-- Changes the rule of an entry that is one. -/
def mapRule (f : Rule → Rule) : Entry → Entry
  | .rule r => .rule (f r)
  | .line l => .line l

end Entry

end Makefile

/-- A list of entries. -/
structure Makefile where
  entries : List Makefile.Entry := []
  /-- The last line is written without a newline. -/
  lacksFinalNewline : Bool := false
  deriving DecidableEq, Repr

namespace Makefile

/-- The makefile without entries. -/
def empty : Makefile := {}

/-- The rules, cleared ones included. -/
def rules (mk : Makefile) : List Rule := mk.entries.filterMap Entry.rule?

/-- Changes every rule. -/
def mapRules (f : Rule → Rule) (mk : Makefile) : Makefile :=
  { mk with entries := mk.entries.map (Entry.mapRule f) }

/-- Changes the rules for which `p` holds. -/
def mapRulesIf (p : Rule → Bool) (f : Rule → Rule) (mk : Makefile) : Makefile :=
  mk.mapRules fun r => if p r then f r else r

/-- Changes every rule in turn. -/
def mapRulesM {m : Type → Type} [Monad m] (f : Rule → m Rule) (mk : Makefile) : m Makefile := do
  let entries ← mk.entries.mapM fun
    | .rule r => do return .rule (← f r)
    | .line l => pure (.line l)
  return { mk with entries }

/-- The rules that name exactly this target. -/
def rulesNaming (mk : Makefile) (target : Text) : List Rule := mk.rules.filter (·.hasTarget target)

/-- The rules that apply to this target, by name or by pattern. -/
def rulesFor (mk : Makefile) (target : Text) : List Rule := mk.rules.filter (·.appliesTo target)

/-- The lines outside of rules. -/
def globalLines (mk : Makefile) : List Text :=
  mk.entries.filterMap fun
    | .line l => some l
    | .rule _ => none

end Makefile

end Packaging
