import Packaging.Value
import Packaging.WatchFile.Basic

/-!
# Watch files as plain values

A watch file and its entries are records. In an entry, the parts that may be missing may be missing
from the record as well.
-/

namespace Packaging.WatchFile

/-- A list of options as a list of texts. -/
def Options.toValue (options : Options) : Value := .list (options.map .text)

/-- Reads a list of options. -/
def Options.ofValue? (v : Value) : Option Options := v.asList? Value.asText?

namespace Entry

/-- The names of the fields of an entry. -/
def fieldNames : List Text :=
  ["url", "matching_pattern", "version", "script", "options"].map String.toList

/-- An entry as a record. -/
def toValue (e : Entry) : Value :=
  .object (fieldNames.zip [.text e.url, .ofOption e.pattern, .ofOption e.version,
    .ofOption e.script, e.options.toValue])

/-- Reads a text that may be missing. -/
def readPart? (v : Option Value) : Option (Option Text) :=
  (v.getD .null).asOption? Value.asText?

/-- Reads an entry. -/
def ofValue? (v : Value) : Option Entry :=
  match v.asRecord? fieldNames with
  | some [some url, pattern, version, script, some options] => do
    return {
      url := ← url.asText?, pattern := ← readPart? pattern, version := ← readPart? version,
      script := ← readPart? script, options := ← Options.ofValue? options }
  | _ => none

end Entry

/-- The names of the fields of a watch file. -/
def fieldNames : List Text := ["version", "options", "entries"].map String.toList

/-- A watch file as a record. -/
def toValue (w : WatchFile) : Value :=
  .object (fieldNames.zip
    [.integer w.version, w.options.toValue, .list (w.entries.map Entry.toValue)])

/-- Reads a watch file. -/
def ofValue? (v : Value) : Option WatchFile :=
  match v.asRecord? fieldNames with
  | some [some version, some options, some entries] => do
    return {
      version := ← version.asWord?, options := ← Options.ofValue? options,
      entries := ← entries.asList? Entry.ofValue? }
  | _ => none

end Packaging.WatchFile
