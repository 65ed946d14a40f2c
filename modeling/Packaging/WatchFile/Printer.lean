import Packaging.Text.Blank
import Packaging.Text.Line
import Packaging.WatchFile.Basic

/-!
# Writing watch files

The version comes first, then the options for all entries, if there are any, and then the entries,
each on a line of its own. Options are put between quotes where one of them has white space in it.
-/

namespace Packaging.WatchFile

open Text

/-- The options of a line. -/
def Options.render (options : Options) : Text :=
  let list := join [','] options
  if list.any isBlank then "opts=\"".toList ++ list ++ ['"'] else "opts=".toList ++ list

/-- The words of an entry. -/
def Entry.wordList (e : Entry) : List Text :=
  e.url :: (e.pattern.toList ++ e.version.toList ++ e.script.toList)

/-- The line of an entry. -/
def Entry.render (e : Entry) : Text :=
  (if e.options.isEmpty then [] else e.options.render ++ [' ']) ++ join [' '] e.wordList

/-- The lines of a watch file. -/
def renderLines (w : WatchFile) : List Text :=
  ("version=".toList ++ ofNat w.version)
    :: ((if w.options.isEmpty then [] else [w.options.render]) ++ w.entries.map Entry.render)

/-- The text of a watch file. -/
def render (w : WatchFile) : Text := unlines w.renderLines

end Packaging.WatchFile
