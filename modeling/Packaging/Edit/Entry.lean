import Packaging.Changelog.Addition
import Packaging.Edit.OpenFile

/-!
# Changelog entries

A change is added to a changelog in the name of the person who edits, and with the date of the edit.
-/

namespace Packaging.Edit

open Text

/-- The urgency of new entries. -/
def defaultUrgency : Text := "low".toList

/-- The name and the address that a change is added under: those given, or the ones of the
environment. -/
def chooseMaintainer (env : Environment) (given? : Option (Text × Text)) :
    Except Failure (Text × Text) :=
  match given? with
  | some maintainer => .ok maintainer
  | none =>
    match maintainer? env with
    | .ok (some maintainer) => .ok maintainer
    | .ok none => .error .noMaintainer
    | .error key => .error (.invalidVariable key)

/-- Adds a change to a changelog. -/
def addEntry (env : Environment) (c : Changelog) (summary : List Text)
    (given? : Option (Text × Text)) (now : Changelog.Moment) : Except Failure Changelog := do
  let (name, address) ← chooseMaintainer env given?
  (c.addChange summary name address now.render defaultUrgency).mapError .changelog

/-- Adds a change to a changelog file. The result says whether the file was written. -/
def addChangelogEntry (env : Environment) (files : FileTree) (path : Path) (options : Options)
    (summary : List Text) (given? : Option (Text × Text)) (now : Changelog.Moment) : Outcome Bool :=
  let outcome := Id.run (edit .changelog files path options fun c =>
    pure ((addEntry env c summary given? now).map fun c => ((), c)))
  { outcome with result := outcome.result.map (·.2) }

end Packaging.Edit
