import Packaging.Changelog.Basic
import Packaging.Text.Utf8

/-!
# Settings

What may be edited is decided by options, and who edits by a name and an address. Both can come from
environment variables.
-/

namespace Packaging.Edit

open Text

/-- The variables that are set, with the bytes of their values. -/
abbrev Environment := List (Text × List UInt8)

/-- What may be edited and how. -/
structure Options where
  /-- Files that are generated from others may be edited. -/
  allowGenerated : Bool := false
  /-- Formatting that cannot be kept may be lost. -/
  allowReformatting : Bool := false
  /-- A file that is not there counts as empty. -/
  allowMissing : Bool := false
  deriving DecidableEq, Repr

/-- The options by the environment: reformatting is allowed by `REFORMATTING=allow`. -/
def Options.ofEnvironment (env : Environment) : Options :=
  { allowReformatting :=
      match (env.lookup "REFORMATTING".toList).map decode with
      | some (.ok value) => value == "allow".toList
      | _ => false }

/-- A name and an address, where the address may be given as `Name <address>`; that name counts
only if there is no other. -/
def resolveMaintainer (name? address? : Option Text) : Option (Text × Text) :=
  match address?.bind Changelog.identity? with
  | some (name, address) => some (name?.getD name, address)
  | none => do return (← name?, ← address?)

/-- The value of the first of some variables that is set and not empty; an error names a variable
before it that is not UTF-8. -/
def firstSet (env : Environment) : List Text → Except Text (Option Text)
  | [] => .ok none
  | key :: keys =>
    match (env.lookup key).map decode with
    | some (.ok []) | none => firstSet env keys
    | some (.ok value) => .ok (some value)
    | some (.error _) => .error key

/-- The name and the address of the person who edits, by `DEBFULLNAME` or `NAME` and `DEBEMAIL` or
`EMAIL`; an error names a variable that is not UTF-8. -/
def maintainer? (env : Environment) : Except Text (Option (Text × Text)) := do
  let name? ← firstSet env ["DEBFULLNAME".toList, "NAME".toList]
  let address? ← firstSet env ["DEBEMAIL".toList, "EMAIL".toList]
  return resolveMaintainer name? address?

end Packaging.Edit
