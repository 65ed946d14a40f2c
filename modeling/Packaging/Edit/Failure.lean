import Packaging.Changelog.Printer
import Packaging.FileTree
import Packaging.Stanza.Change
import Packaging.Text.Diff

/-!
# Failures and notes

Why a file cannot be edited, and what is noted on the way.
-/

namespace Packaging.Edit

open Text

/-- Why a file cannot be edited. -/
inductive Failure where
  /-- There is no file. -/
  | notFound (path : Path)
  /-- The file is generated, from a template if one is known. -/
  | generated (path : Path) (template : Option Path)
  /-- Writing the file would change more than was edited: `after` is what becomes of `before`
  without any edit. -/
  | unpreservable (path : Path) (before after : Text)
  /-- The file cannot be read as what it should be. -/
  | unreadable (path : Path) (reason : Text)
  /-- What the file was edited to cannot be written. -/
  | unwritable (path : Path) (reason : Text)
  /-- A change expected another value. -/
  | conflict (conflict : Stanza.ChangeConflict)
  /-- A changelog entry cannot be made. -/
  | changelog (error : Changelog.EntryError)
  /-- A setting is missing or invalid. -/
  | settings (reason : Text)
  /-- The path cannot be read or written. -/
  | io (error : IoError)
  deriving DecidableEq, Repr

namespace Failure

/-- A variable of the environment that is not UTF-8. -/
def invalidVariable (key : Text) : Failure :=
  .settings ("environment variable $".toList ++ key ++ " is not valid UTF-8".toList)

/-- Nothing says who edits. -/
def noMaintainer : Failure :=
  .settings "unable to determine maintainer; set $DEBFULLNAME and $DEBEMAIL".toList

/-- The text of the failure. -/
def message : Failure → Text
  | .notFound path => path ++ " does not exist".toList
  | .generated path (some template) => path ++ " is generated from ".toList ++ template
  | .generated path none => path ++ " is a generated file".toList
  | .unpreservable path before after =>
    "unable to preserve formatting of ".toList ++ path ++
      '\n' :: unifiedDiff "original".toList "rewritten".toList before after
  | .unreadable path reason => "failed to parse ".toList ++ path ++ [':', ' '] ++ reason
  | .unwritable path reason => "failed to serialize ".toList ++ path ++ [':', ' '] ++ reason
  | .conflict c => c.message
  | .changelog e => "changelog error: ".toList ++ e.message
  | .settings reason => reason
  | .io e => "IO error: ".toList ++ e.message

/-- The text of the error behind the failure. -/
def source? : Failure → Option Text
  | .unreadable _ reason | .unwritable _ reason => some reason
  | .conflict c => some c.message
  | .changelog e => some e.message
  | .io e => some e.message
  | _ => none

end Failure

/-- How much a note matters. -/
inductive Level where
  | debug
  | warning
  deriving DecidableEq, Repr

/-- What is noted about an edit. -/
inductive Note where
  /-- There was nothing to write. -/
  | unchanged (path : Path)
  /-- The file was written. -/
  | updated (path : Path)
  /-- Formatting is lost. -/
  | reformatted (path : Path)
  /-- What was edited is not written. -/
  | discarded (path : Path)
  /-- A rule that does nothing of its own was dropped. -/
  | pointlessOverride (target : Text)
  deriving DecidableEq, Repr

namespace Note

/-- How much the note matters. -/
def level : Note → Level
  | .reformatted _ => .warning
  | _ => .debug

/-- The text of the note. -/
def message : Note → Text
  | .unchanged path => path ++ ": no changes".toList
  | .updated path => path ++ ": updated".toList
  | .reformatted path => path ++ ": formatting is not preserved, rewriting anyway".toList
  | .discarded path => path ++ ": discarding uncommitted edits".toList
  | .pointlessOverride target => "discarding pointless override rule ".toList ++ target

end Note

/-- What an operation leads to: a result or a failure, the files as they are afterwards, and what
was noted. -/
structure Outcome (α : Type) where
  result : Except Failure α
  files : FileTree
  notes : List Note := []

end Packaging.Edit
