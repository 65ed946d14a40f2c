import Packaging.Text.Basic

/-!
# Lines

A text falls into lines at its newlines; what follows the last newline is a line of its own unless
it is empty. The formats differ in what they do with a carriage return at the end of a line, so
that is a separate function.
-/

namespace Packaging.Text

/-- The lines of a text without their newlines, and whether the last one lacks its newline. -/
def splitLines (t : Text) : List Text × Bool :=
  let pieces := t.splitOn '\n'
  match pieces.getLast? with
  | some [] => (pieces.dropLast, false)
  | _ => (pieces, true)

/-- A line without a carriage return at its end. -/
def dropReturn (line : Text) : Text :=
  match line.getLast? with
  | some '\r' => line.dropLast
  | _ => line

/-- The lines of a text, with a newline or a carriage return and a newline as terminator. A
carriage return that no newline follows belongs to its line. -/
def lines (t : Text) : List Text :=
  let pieces := t.splitOn '\n'
  match pieces.getLast? with
  | some [] => pieces.dropLast.map dropReturn
  | some last => pieces.dropLast.map dropReturn ++ [last]
  | none => []

/-- Every line followed by a newline. -/
def unlines (ls : List Text) : Text := ls.flatMap (· ++ ['\n'])

end Packaging.Text
