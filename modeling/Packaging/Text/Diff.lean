import Packaging.Text.Line

/-!
# Differences

Two texts compared line by line, written as a unified diff: runs of deleted and inserted lines with
three unchanged lines around them. The edit script is a shortest one, found by tabulating the
shortest scripts between all pairs of endings of the two lists of lines.
-/

namespace Packaging.Text

/-- One step of an edit script. -/
inductive Edit where
  | keep (line : Text)
  | delete (line : Text)
  | insert (line : Text)
  deriving DecidableEq, Repr

namespace Edit

/-- The script is of the old text's lines and ends with these of the new. -/
abbrev Script := List Edit

/-- How a script and its number of changes grow by one step. -/
def prepend (e : Edit) (s : Nat × Script) : Nat × Script :=
  match e with
  | .keep _ => (s.1, e :: s.2)
  | _ => (s.1 + 1, e :: s.2)

/-- The script with fewer changes. -/
def shorter (a b : Nat × Script) : Nat × Script := if a.1 ≤ b.1 then a else b

/-- The scripts that only insert: one for each ending of the new lines. -/
def insertions : List Text → List (Nat × Script)
  | [] => [(0, [])]
  | y :: ys =>
    match insertions ys with
    | [] => []
    | s :: row => prepend (.insert y) s :: s :: row

/-- From the scripts for the old lines after `x`, one for each ending of the new lines, those for
the old lines from `x` on. -/
def addRow (x : Text) : List Text → List (Nat × Script) → List (Nat × Script)
  | y :: ys, here :: below@(diagonal :: _) =>
    match addRow x ys below with
    | [] => []
    | right :: row =>
      let best :=
        if x = y then prepend (.keep x) diagonal
        else shorter (prepend (.delete x) here) (prepend (.insert y) right)
      best :: right :: row
  | _, row => row.map (prepend (.delete x))

/-- A script with the fewest deletions and insertions that leads from `old` to `new`. -/
def script (old new : List Text) : Script :=
  match old.foldr (fun x row => addRow x new row) (insertions new) with
  | [] => []
  | best :: _ => best.2

end Edit

/-- A run of kept lines, or of deleted and inserted ones. -/
inductive Run where
  | same (lines : List Text)
  | changed (deleted inserted : List Text)
  deriving DecidableEq, Repr

/-- Groups a script into runs, kept and changed ones by turns. -/
def runs : Edit.Script → List Run
  | [] => []
  | .keep l :: s =>
    match runs s with
    | .same ls :: rs => .same (l :: ls) :: rs
    | rs => .same [l] :: rs
  | .delete l :: s =>
    match runs s with
    | .changed ds is :: rs => .changed (l :: ds) is :: rs
    | rs => .changed [l] [] :: rs
  | .insert l :: s =>
    match runs s with
    | .changed ds is :: rs => .changed ds (l :: is) :: rs
    | rs => .changed [] [l] :: rs

/-- A part of the two texts to be shown: where it starts in each, and its runs. -/
structure Hunk where
  oldStart : Nat
  newStart : Nat
  runs : List Run
  deriving DecidableEq, Repr

/-- How many unchanged lines are shown before and after a change. -/
def contextSize : Nat := 3

/-- Cuts runs into hunks. `hunk` is the open hunk, `old` and `new` count the lines before `runs`. -/
def hunksFrom (hunk : Option Hunk) (old new : Nat) : List Run → List Hunk
  | [] => hunk.toList
  | .changed ds is :: rs =>
    let h := hunk.getD ⟨old, new, []⟩
    hunksFrom (some { h with runs := h.runs ++ [.changed ds is] })
      (old + ds.length) (new + is.length) rs
  | .same ls :: rs =>
    let n := ls.length
    let tail := ls.drop (n - contextSize)
    let next : Hunk := ⟨old + n - tail.length, new + n - tail.length, [.same tail]⟩
    match hunk with
    | none => hunksFrom (some next) (old + n) (new + n) rs
    | some h =>
      if rs.isEmpty then [{ h with runs := h.runs ++ [.same (ls.take contextSize)] }]
      else if n ≤ 2 * contextSize then
        hunksFrom (some { h with runs := h.runs ++ [.same ls] }) (old + n) (new + n) rs
      else
        { h with runs := h.runs ++ [.same (ls.take contextSize)] } ::
          hunksFrom (some next) (old + n) (new + n) rs

/-- The hunks of a list of runs; none if nothing changed. -/
def hunks : List Run → List Hunk
  | [.same _] => []
  | rs => hunksFrom none 0 0 rs

namespace Run

/-- How many lines of the old text the run covers. -/
def oldLength : Run → Nat
  | .same ls => ls.length
  | .changed ds _ => ds.length

/-- How many lines of the new text the run covers. -/
def newLength : Run → Nat
  | .same ls => ls.length
  | .changed _ is => is.length

end Run

/-- One line of the diff; a line that no line break ends is followed by a remark. -/
def diffLine (mark : Char) (line : Text) : Text :=
  match line.getLast? with
  | some '\n' | some '\r' => mark :: line
  | _ => mark :: line ++ "\n\\ No newline at end of file\n".toList

/-- The lines of a run, deletions before insertions. -/
def Run.render : Run → Text
  | .same ls => ls.flatMap (diffLine ' ')
  | .changed ds is => ds.flatMap (diffLine '-') ++ is.flatMap (diffLine '+')

/-- The range of lines of a hunk: the first line, counted from one, and the number of lines unless
it is one. An empty range names the line before it. -/
def renderRange (start length : Nat) : Text :=
  match length with
  | 0 => ofNat start ++ [',', '0']
  | 1 => ofNat (start + 1)
  | n => ofNat (start + 1) ++ [','] ++ ofNat n

/-- A hunk: its header and its lines. -/
def Hunk.render (h : Hunk) : Text :=
  "@@ -".toList ++ renderRange h.oldStart (h.runs.foldl (fun n r => n + r.oldLength) 0)
    ++ " +".toList ++ renderRange h.newStart (h.runs.foldl (fun n r => n + r.newLength) 0)
    ++ " @@\n".toList ++ h.runs.flatMap Run.render

/-- The lines of a text with their line breaks, which are a newline, a carriage return, or a carriage
return and a newline. -/
def linesWithBreaks : Text → List Text
  | [] => []
  | '\n' :: t => ['\n'] :: linesWithBreaks t
  | '\r' :: '\n' :: t => ['\r', '\n'] :: linesWithBreaks t
  | '\r' :: t => ['\r'] :: linesWithBreaks t
  | c :: t =>
    match linesWithBreaks t with
    | [] => [[c]]
    | l :: ls => (c :: l) :: ls

/-- The unified diff of two texts, with the given names in its heading; empty if they have the same
lines. -/
def unifiedDiff (oldName newName old new : Text) : Text :=
  match hunks (runs (Edit.script (linesWithBreaks old) (linesWithBreaks new))) with
  | [] => []
  | hs =>
    "--- ".toList ++ oldName ++ "\n+++ ".toList ++ newName ++ ['\n'] ++ hs.flatMap Hunk.render

end Packaging.Text
