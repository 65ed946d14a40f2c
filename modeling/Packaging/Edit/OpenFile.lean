import Packaging.Edit.Format
import Packaging.Edit.Generated
import Packaging.Edit.Settings

/-!
# Open files

A file is opened, edited as a value, and committed. Opening rehearses what committing would do: it
writes the value just read, and if that is not the text of the file, then its formatting cannot be
kept. A commit writes only what was edited; it refuses to lose formatting unless that is allowed.
-/

namespace Packaging.Edit

open Text

/-- What was read when a file was opened. -/
structure Reading where
  /-- The text of the file. -/
  text : Text
  /-- What is written for the value read from it. -/
  rehearsal : Text
  deriving DecidableEq, Repr

/-- A file that is being edited as a value of `M`. -/
structure OpenFile (M : Type) where
  path : Path
  options : Options
  /-- What was read; `none` if there was no file. -/
  reading : Option Reading
  model : M
  deriving Repr

variable {M α : Type}

/-- The text that is written for a value. -/
def renderAt (format : Format M) (path : Path) (model : M) : Except Failure Text :=
  (format.render model).mapError (.unwritable path)

/-- Reads bytes as a value, and writes it on trial. -/
def readModel (format : Format M) (path : Path) (bytes : List UInt8) : Except Failure (Reading × M) := do
  let text ← (decode bytes).mapError fun e => .unreadable path e.message
  let model ← (format.parse text).mapError (.unreadable path)
  let rehearsal ← renderAt format path model
  return (⟨text, rehearsal⟩, model)

/-- Opens a file. Nothing is written. -/
def openFile (format : Format M) (files : FileTree) (path : Path) (options : Options) :
    Except Failure (OpenFile M) := do
  if !options.allowGenerated then checkGenerated files path
  match files.read path with
  | .error .notFound =>
    if options.allowMissing then return { path, options, reading := none, model := format.blank }
    else throw (.notFound path)
  | .error e => throw (.io e)
  | .ok bytes =>
    let (reading, model) ← readModel format path bytes
    return { path, options, reading := some reading, model }

namespace OpenFile

/-- The text is what was read, or what is written for it unedited; an absent file counts as empty. -/
def isUnchanged (file : OpenFile M) (updated : Text) : Bool :=
  match file.reading with
  | some r => updated == r.text || updated == r.rehearsal
  | none => updated.isEmpty

/-- The formatting of the file is not kept. -/
def losesFormatting (file : OpenFile M) : Bool :=
  file.reading.any fun r => r.text != r.rehearsal

/-- A commit would write something, as far as formatting allows. -/
def hasChanged (format : Format M) (file : OpenFile M) : Except Failure Bool := do
  return !file.isUnchanged (← renderAt format file.path file.model)

/-- Writes a text that is not unchanged. -/
def write (files : FileTree) (file : OpenFile M) (updated : Text) : Outcome Bool :=
  let warning := if file.losesFormatting then [Note.reformatted file.path] else []
  match files.replace file.path (encode updated) with
  | .ok files => ⟨.ok true, files, warning ++ [.updated file.path]⟩
  | .error e => ⟨.error (.io e), files, warning⟩

/-- Writes what was edited. The result says whether the file was written. -/
def commit (format : Format M) (files : FileTree) (file : OpenFile M) : Outcome Bool :=
  match renderAt format file.path file.model with
  | .error e => ⟨.error e, files, []⟩
  | .ok updated =>
    if file.isUnchanged updated then ⟨.ok false, files, [.unchanged file.path]⟩
    else
      match file.reading with
      | some r =>
        if r.text ≠ r.rehearsal ∧ !file.options.allowReformatting then
          ⟨.error (.unpreservable file.path r.text r.rehearsal), files, []⟩
        else file.write files updated
      | none => file.write files updated

/-- What is noted when a file is given up. -/
def discard (file : OpenFile M) : List Note := [.discarded file.path]

/-- Commits a file to which something was done, or gives it up if that failed. The result has the
value that came of it. -/
def finish (format : Format M) (files : FileTree) (file : OpenFile M)
    (done : Except Failure (α × M)) : Outcome (α × Bool) :=
  match done with
  | .error e => ⟨.error e, files, file.discard⟩
  | .ok (value, model) =>
    let outcome := { file with model }.commit format files
    { outcome with result := outcome.result.map (value, ·) }

end OpenFile

/-- Opens a file, changes the value, and commits it. Nothing is written if the change fails. The
result has the value that came of the change, and whether the file was written. -/
def edit {m : Type → Type} [Monad m] (format : Format M) (files : FileTree) (path : Path)
    (options : Options) (change : M → m (Except Failure (α × M))) : m (Outcome (α × Bool)) :=
  match openFile format files path options with
  | .error e => pure ⟨.error e, files, []⟩
  | .ok file => do return file.finish format files (← change file.model)

/-- Opens a file, changes the value by something that cannot fail, and commits it. The result says
whether the file was written. -/
def update {m : Type → Type} [Monad m] (format : Format M) (files : FileTree) (path : Path)
    (options : Options) (change : M → m M) : m (Outcome Bool) := do
  let outcome ← edit format files path options fun model => do return .ok ((), ← change model)
  return { outcome with result := outcome.result.map (·.2) }

end Packaging.Edit
