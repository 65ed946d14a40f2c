import Packaging.Text.Basic
import Packaging.Text.Utf8

/-!
# File trees

The files that are edited, as a value: which places there are, and for each whether it is a
directory or a file with some bytes and a mode.

A path leads from name to name, and each name is looked up in the directory that the names before it
lead to. An empty name and `.` stay in that directory and `..` goes up from it, and so a path that
goes on after a file leads nowhere, be it only by a slash: `f/` is no way to write `f`. Paths are
relative to the root of the tree. Of what lies outside it only the directories count that it lies in.
-/

namespace Packaging

open Text

/-- A path, as it is written. -/
abbrev Path := Text

/-- Why a path cannot be read or written. -/
inductive IoError where
  /-- There is nothing at the path, or no directory for it. -/
  | notFound
  /-- The path goes on after something that is no directory. -/
  | notADirectory
  /-- There is a directory at the path. -/
  | isADirectory
  /-- The path ends in no name, and so nothing can take its place. -/
  | busy
  /-- The path or one of its names is too long. -/
  | nameTooLong
  /-- The path has a character that no path can have. -/
  | invalidPath
  /-- Anything else, described by a text. -/
  | other (reason : Text)
  deriving DecidableEq, Repr

/-- The text of the error. -/
def IoError.message : IoError → Text
  | .notFound => "no such file or directory".toList
  | .notADirectory => "not a directory".toList
  | .isADirectory => "is a directory".toList
  | .busy => "resource busy".toList
  | .nameTooLong => "file name too long".toList
  | .invalidPath => "invalid file name".toList
  | .other reason => reason

/-- What there is at a place. -/
inductive Node where
  | file (bytes : List UInt8) (mode : Nat)
  | directory (mode : Nat)
  deriving DecidableEq, Repr

/-- A place, by the names that lead to it from the root of the tree; none of them is empty or `.`.
For the directories that the tree lies in all of them are `..`. -/
abbrev Place := List Text

namespace Place

/-- Where absolute paths begin. It is told apart by an empty name. -/
def top : Place := [[]]

/-- The place is outside of the tree, or its root, and there is always a directory. -/
def isOutermost (place : Place) : Bool := place == top || place.all (· == ['.', '.'])

/-- The directory that a place lies in. -/
def up (place : Place) : Place :=
  if place == top then top
  else if place.isOutermost then place ++ [['.', '.']]
  else place.dropLast

end Place

/-- The nodes, by their places. Of several nodes at the same place the first one counts. -/
structure FileTree where
  nodes : List (Place × Node) := []
  deriving DecidableEq, Repr

namespace FileTree

/-- The mode of a new directory. -/
def directoryMode : Nat := 0o755

/-- The mode of a new file that is written directly. -/
def fileMode : Nat := 0o644

/-- The mode of a new file that is put in place by `replace`. -/
def replacementMode : Nat := 0o600

/-- A name has at most so many bytes. -/
def nameLimit : Nat := 255

/-- A path has fewer bytes than this. -/
def pathLimit : Nat := 4096

/-- What there is at a place. -/
def node? (t : FileTree) (place : Place) : Option Node :=
  t.nodes.lookup place <|> if place.isOutermost then some (.directory directoryMode) else none

/-- Fails unless there is a directory at a place. -/
def enter (t : FileTree) (place : Place) : Except IoError Unit :=
  match t.node? place with
  | some (.directory _) => .ok ()
  | some (.file ..) => .error .notADirectory
  | none => .error .notFound

/-- The name is too long. -/
def isTooLong (name : Text) : Bool := nameLimit < (encode name).length

/-- The name leads nowhere else than where it is looked up. -/
def stays (name : Text) : Bool := name.isEmpty || name == ['.']

/-- Where names lead from a place. There is something, if there is something at the first place. -/
def follow (t : FileTree) (place : Place) : List Text → Except IoError Place
  | [] => .ok place
  | name :: names => do
    t.enter place
    if stays name then t.follow place names
    else if name == ['.', '.'] then t.follow place.up names
    else if isTooLong name then .error .nameTooLong
    else if (t.node? (place ++ [name])).isNone then .error .notFound
    else t.follow (place ++ [name]) names

/-- Where a path begins, and its names. The empty path leads nowhere. -/
def waypoints (path : Path) : Except IoError (Place × List Text) :=
  if path.contains '\x00' then .error .invalidPath
  else if pathLimit ≤ (encode path).length then .error .nameTooLong
  else if path.isEmpty then .error .notFound
  else .ok (if path.head? = some '/' then .top else [], path.splitOn '/')

/-- The place that a path leads to. There is something at it. -/
def locate (t : FileTree) (path : Path) : Except IoError Place := do
  let (start, names) ← waypoints path
  t.follow start names

/-- The place where a file of this path is or can be put: the last name, in the directory that those
before it lead to. The last name must be the name of something, with no slash after it. -/
def target (t : FileTree) (path : Path) : Except IoError Place := do
  let (start, names) ← waypoints path
  match names.reverse.dropWhile List.isEmpty with
  | [] => .error .busy
  | last :: before =>
    let parent ← t.follow start before.reverse
    t.enter parent
    if stays last || last == ['.', '.'] then .error .busy
    else if isTooLong last then .error .nameTooLong
    else if names.getLast? ≠ some last then .error .notADirectory
    else .ok (parent ++ [last])

/-- What there is at a path. -/
def get (t : FileTree) (path : Path) : Except IoError Node := do
  match t.node? (← t.locate path) with
  | some node => return node
  | none => .error .notFound

/-- There is something at a path. -/
def contains (t : FileTree) (path : Path) : Bool := (t.get path).toOption.isSome

/-- The bytes of a file. -/
def read (t : FileTree) (path : Path) : Except IoError (List UInt8) := do
  match ← t.get path with
  | .file bytes _ => return bytes
  | .directory _ => .error .isADirectory

/-- The mode of what there is at a path. -/
def mode? (t : FileTree) (path : Path) : Option Nat :=
  match t.get path with
  | .ok (.file _ mode) | .ok (.directory mode) => some mode
  | .error _ => none

/-- The tree with this node at a place. -/
def put (t : FileTree) (place : Place) (node : Node) : FileTree := ⟨(place, node) :: t.nodes⟩

/-- The tree without a node at a place. -/
def erase (t : FileTree) (place : Place) : FileTree := ⟨t.nodes.filter (·.1 != place)⟩

/-- Puts bytes into the file at a place. An existing file keeps its mode; a new one gets `newMode`. -/
def putFile (t : FileTree) (place : Place) (bytes : List UInt8) (newMode : Nat) :
    Except IoError FileTree :=
  match t.node? place with
  | some (.directory _) => .error .isADirectory
  | some (.file _ mode) => .ok (t.put place (.file bytes mode))
  | none => .ok (t.put place (.file bytes newMode))

/-- Puts bytes in the place of a file, all at once. The directory has to be there. -/
def replace (t : FileTree) (path : Path) (bytes : List UInt8) : Except IoError FileTree := do
  t.putFile (← t.target path) bytes replacementMode

/-- Makes the directories that names lead to from a place, as far as there is nothing. Nothing is
made below a file. -/
def makeDirectories (t : FileTree) (place : Place) : List Text → FileTree
  | [] => t
  | name :: names =>
    match t.follow place [name] with
    | .ok place => t.makeDirectories place names
    | .error .notFound =>
      let place := place ++ [name]
      (t.put place (.directory directoryMode)).makeDirectories place names
    | .error _ => t

/-- Makes a directory and those it lies in. -/
def makeDirectory (t : FileTree) (path : Path) : FileTree :=
  match waypoints path with
  | .ok (start, names) => t.makeDirectories start names
  | .error _ => t

/-- Writes a file, and makes the directories it lies in. No file is written where the path goes
through a file or names a directory. -/
def write (t : FileTree) (path : Path) (bytes : List UInt8) : FileTree :=
  let t :=
    match waypoints path with
    | .ok (start, names) => t.makeDirectories start (names.reverse.dropWhile stays).tail.reverse
    | .error _ => t
  match t.target path with
  | .ok place => (t.putFile place bytes fileMode).toOption.getD t
  | .error _ => t

/-- Takes away a file. -/
def delete (t : FileTree) (path : Path) : FileTree :=
  match t.target path with
  | .ok place =>
    match t.node? place with
    | some (.file ..) => t.erase place
    | _ => t
  | .error _ => t

/-- Changes the mode of a file or directory. -/
def setMode (t : FileTree) (path : Path) (mode : Nat) : FileTree :=
  match t.locate path with
  | .ok place =>
    match t.node? place with
    | some (.file bytes _) => t.put place (.file bytes mode)
    | some (.directory _) => t.put place (.directory mode)
    | none => t
  | .error _ => t

end FileTree

end Packaging
