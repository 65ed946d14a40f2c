import Packaging.Changelog.Basic
import Packaging.Text.Line

/-!
# Writing changelogs

An entry is its header, its lines, its trailer and the lines after it. It can be written when it has
a package, a version and an author. The urgency comes first of the settings in a header, and two
spaces are put before the date of a trailer.
-/

namespace Packaging.Changelog

open Text

/-- Why an entry cannot be made or written. -/
inductive EntryError where
  /-- There is nothing to add. -/
  | emptySummary
  /-- There is no entry to go by. -/
  | noEntries
  /-- The entry lacks a package. -/
  | noPackage
  /-- The entry for this package lacks a version. -/
  | noVersion (package : Text)
  /-- The entry for this version lacks an author. -/
  | noAuthor (version : Version)
  deriving DecidableEq, Repr

namespace EntryError

/-- What is wrong. -/
def reason : EntryError → Text
  | .emptySummary => "empty summary".toList
  | .noEntries => "changelog has no entries".toList
  | .noPackage => "entry has no package name".toList
  | .noVersion package => "entry for ".toList ++ package ++ " has no version".toList
  | .noAuthor version => "entry ".toList ++ version.render ++ " has no author".toList

/-- The text of the error. -/
def message (e : EntryError) : Text := "unable to create changelog entry: ".toList ++ e.reason

end EntryError

namespace Entry

/-- The settings of a header. -/
def settingTexts (e : Entry) : List Text :=
  (e.urgency.map fun u => "urgency=".toList ++ u ++ e.urgencyComment).toList
    ++ e.settings.map fun (key, value) => key ++ ['='] ++ value

/-- The header line. -/
def headerLine (package : Text) (version : Version) (e : Entry) : Text :=
  let start := package ++ [' ', '('] ++ version.render ++ [')', ' '] ++ e.distributions ++ [';']
  match e.settingTexts with
  | [] => start
  | settings => start ++ [' '] ++ join [',', ' '] settings

/-- The trailer line. -/
def trailerLine (author : Text) (date : Option Text) : Text :=
  [' ', '-', '-', ' '] ++ author ++
    match date with
    | some date => [' ', ' '] ++ date
    | none => []

/-- The lines of an entry. -/
def renderLines (e : Entry) : Except EntryError (List Text) :=
  match e.package, e.version, e.author with
  | none, _, _ => .error .noPackage
  | some package, none, _ => .error (.noVersion package)
  | _, some version, none => .error (.noAuthor version)
  | some package, some version, some author =>
    .ok (headerLine package version e :: e.changes ++ trailerLine author e.date :: e.trailing)

end Entry

/-- The lines of entries, up to the first that cannot be written. -/
def entryLines : List Entry → Except EntryError (List Text)
  | [] => .ok []
  | e :: es =>
    match e.renderLines with
    | .error err => .error err
    | .ok ls =>
      match entryLines es with
      | .error err => .error err
      | .ok rest => .ok (ls ++ rest)

/-- The text of a changelog. -/
def render (c : Changelog) : Except EntryError Text := (entryLines c.entries).map unlines

end Packaging.Changelog
