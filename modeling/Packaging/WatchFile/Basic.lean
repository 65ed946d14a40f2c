import Packaging.Text.Scan

/-!
# Watch files

A watch file says where new releases of a package are found. It has a format version, options for
all its entries, and the entries: a location each, a pattern for the file names there, and what to
do with a new release.

Options are written `name=value`, or as a name alone. The first option with a name is the one that
counts, so that a list of options is read and edited as a map that keeps its order.
-/

namespace Packaging

open Text

namespace WatchFile

/-! ### Options -/

/-- The options of an entry or of a file, in order. -/
abbrev Options := List Text

namespace Options

/-- The name of an option: the text before its first `=`, or all of it. -/
def nameOf (option : Text) : Text :=
  match cut? '=' option with
  | some (name, _) => name
  | none => option

/-- The value of an option: the text after its first `=`, or nothing. -/
def valueOf (option : Text) : Text :=
  match cut? '=' option with
  | some (_, value) => value
  | none => []

/-- An option with a value, or one that is a name alone. -/
def make (name : Text) : Option Text → Text
  | some value => name ++ '=' :: value
  | none => name

/-- The value of the first option with a name. -/
def get? (options : Options) (name : Text) : Option Text :=
  (options.find? (nameOf · == name)).map valueOf

/-- There is an option with the name. -/
def contains (options : Options) (name : Text) : Bool := options.any (nameOf · == name)

/-- Puts an option in the place of the first one with a name, or at the end. -/
def put (name option : Text) : Options → Options
  | [] => [option]
  | o :: options => if nameOf o = name then option :: options else o :: put name option options

/-- Sets an option, which keeps its place if there is one with its name. -/
def set (options : Options) (name : Text) (value : Option Text) : Options :=
  put name (make name value) options

/-- Takes away the first option with a name. -/
def erase (options : Options) (name : Text) : Options := options.eraseP (nameOf · == name)

/-- Takes away the first option with a name, and notes whether there was one. -/
def eraseNoting (options : Options) (name : Text) : Options × Bool :=
  match options.findIdx? (nameOf · == name) with
  | some i => (options.eraseIdx i, true)
  | none => (options, false)

end Options

/-! ### Entries -/

/-- An entry. -/
structure Entry where
  /-- The location, in which `@PACKAGE@` stands for the name of the package. -/
  url : Text
  /-- The pattern for the names of the files there. -/
  pattern : Option Text := none
  /-- Which releases count as newer. -/
  version : Option Text := none
  /-- What is run on a new release. -/
  script : Option Text := none
  options : Options := []
  deriving DecidableEq, Repr

namespace Entry

/-- What stands for the name of the package in a location. -/
def placeholder : Text := "@PACKAGE@".toList

/-- The placeholder at the start of a text, and the rest. -/
def placeholder? : Recogniser Unit := fun t => (dropStart? placeholder t).map fun rest => ((), rest)

/-- The location depends on the name of the package. -/
def namesPackage (e : Entry) : Bool := occursIn placeholder e.url

/-- The location for a package of this name. -/
def urlFor (e : Entry) (package : Text) : Text := replaceAll placeholder? (fun _ => package) e.url

/-- The location for a package whose name is worked out, once, only if the location depends on it. -/
def urlForM {m : Type → Type} [Monad m] (e : Entry) (package : m Text) : m Text :=
  if e.namesPackage then do return e.urlFor (← package) else pure e.url

end Entry

end WatchFile

/-- A watch file. -/
structure WatchFile where
  /-- The version of the format. -/
  version : Nat := 4
  /-- The options for all entries. -/
  options : WatchFile.Options := []
  entries : List WatchFile.Entry := []
  deriving DecidableEq, Repr

namespace WatchFile

/-- Adds an entry at the end. -/
def push (w : WatchFile) (e : Entry) : WatchFile := { w with entries := w.entries ++ [e] }

/-- Changes the entry at an index, if there is one. -/
def modifyEntry (w : WatchFile) (i : Nat) (change : Entry → Entry) : WatchFile :=
  { w with entries := w.entries.modify i change }

end WatchFile

end Packaging
