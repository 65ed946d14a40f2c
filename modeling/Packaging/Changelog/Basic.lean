import Packaging.Changelog.Moment
import Packaging.Changelog.Version

/-!
# Changelogs

A changelog is a list of entries, the most recent one first. An entry has what its header and its
trailer say, the lines between them as they are, and the lines that follow the trailer.
-/

namespace Packaging

open Text

namespace Changelog

/-- One entry. Parts that an entry which is still being made may lack are optional. -/
structure Entry where
  package : Option Text := none
  version : Option Version := none
  /-- The distributions, with the blanks between them. -/
  distributions : Text := []
  urgency : Option Text := none
  /-- What follows the urgency, with the blanks before it. -/
  urgencyComment : Text := []
  /-- The other settings of the header. -/
  settings : List (Text × Text) := []
  /-- The lines between header and trailer, blank ones included. -/
  changes : List Text := []
  author : Option Text := none
  /-- The date, as it stands in the trailer. -/
  date : Option Text := none
  /-- The lines after the trailer that belong to no other entry. -/
  trailing : List Text := []
  deriving DecidableEq, Repr

/-- The name and the address in a text of the form `Name <address>`. -/
def identity? (t : Text) : Option (Text × Text) := do
  let (name, rest) ← cut? '<' t
  let address ← dropEnd? ['>'] rest
  return (trim name, trim address)

/-- The text of an identity. -/
def renderIdentity (name address : Text) : Text := name ++ [' ', '<'] ++ address ++ ['>']

namespace Entry

/-- The distribution of an entry that is still being made. -/
def unreleased : Text := "UNRELEASED".toList

/-- The entry is still being made. -/
def isUnreleased (e : Entry) : Bool := (words e.distributions).contains unreleased

/-- The name and the address of the author. -/
def maintainer? (e : Entry) : Option (Text × Text) := e.author.bind identity?

/-- The date of the trailer, read. -/
def moment? (e : Entry) : Option Moment := e.date.bind Moment.parse?

/-- The same entry, where versions count as the same if neither comes before the other. -/
def agreesWith (a b : Entry) : Bool :=
  { a with version := none } == { b with version := none } &&
    match a.version, b.version with
    | some v, some w => v.sameOrder w
    | none, none => true
    | _, _ => false

end Entry

end Changelog

/-- A list of entries. -/
structure Changelog where
  entries : List Changelog.Entry := []
  deriving DecidableEq, Repr

namespace Changelog

/-- The number of entries. -/
def size (c : Changelog) : Nat := c.entries.length

/-- There are no entries. -/
def isEmpty (c : Changelog) : Bool := c.entries.isEmpty

/-- The entry at an index. -/
def get? (c : Changelog) (i : Nat) : Option Entry := c.entries[i]?

/-- Puts an entry in the place of the one at an index. -/
def set (c : Changelog) (i : Nat) (e : Entry) : Changelog := ⟨c.entries.set i e⟩

/-- Puts a new entry on top. An empty line goes between it and the entries below. -/
def prepend (c : Changelog) (e : Entry) : Changelog :=
  ⟨{ e with trailing := if c.isEmpty then [] else [[]] } :: c.entries⟩

/-- The same entries, where versions count as the same if neither comes before the other. -/
def agreesWith (a b : Changelog) : Bool :=
  a.entries.length == b.entries.length &&
    (a.entries.zip b.entries).all fun (e, f) => e.agreesWith f

end Changelog

end Packaging
