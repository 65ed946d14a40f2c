import Packaging.Changelog.Parser
import Packaging.Changelog.Printer
import Packaging.LineList
import Packaging.Makefile.Parser
import Packaging.Makefile.Printer
import Packaging.Stanza.Parser
import Packaging.Stanza.Printer
import Packaging.WatchFile.Parser
import Packaging.WatchFile.Printer

/-!
# Formats

What an editor has to know of a kind of file: how to read it, how to write it, and what stands for a
file that is not there yet.
-/

namespace Packaging.Edit

/-- A format whose files are read as values of `M`. Errors are their texts. -/
structure Format (M : Type) where
  parse : Text → Except Text M
  render : M → Except Text Text
  /-- What is edited when there is no file. -/
  blank : M

namespace Format

/-- Files of stanzas, such as control files. -/
def stanzas : Format Stanza.Document where
  parse t := (Stanza.Document.parse t).mapError Stanza.ParseError.message
  render d := .ok d.render
  blank := {}

/-- Makefiles. -/
def makefile : Format Makefile where
  parse t := .ok (Makefile.parse t)
  render mk := .ok mk.render
  blank := {}

/-- Changelogs. -/
def changelog : Format Changelog where
  parse t := (Changelog.parse t).mapError Changelog.ParseError.message
  render c := c.render.mapError Changelog.EntryError.message
  blank := {}

/-- Watch files, which may hold nothing but comments and blank lines. -/
def watchFile : Format (Option WatchFile) where
  parse t := (WatchFile.parse t).mapError WatchFile.ParseError.message
  render w := .ok ((w.map WatchFile.render).getD [])
  blank := none

/-- Any files, line by line. -/
def lineList : Format LineList where
  parse t := .ok (LineList.parse t)
  render l := .ok l.render
  blank := {}

end Format

end Packaging.Edit
