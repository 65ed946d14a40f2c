import Packaging.Changelog.Fill
import Packaging.Text.Uppercase

/-!
# Rewrapping bullets

A bullet is a line with a marker and the lines after it that are indented as far as its text. Where a
line of a bullet is too long, it and the lines that it can be joined with are filled anew; all other
lines stay as they are.
-/

namespace Packaging.Changelog

open Text

/-- One line may go on with the text of another: it does not end with a colon, and if the other
begins with a capital letter it ends with a full stop. -/
def canJoin (line next : Text) : Bool :=
  !endsWith [':'] line && !(next.head?.any isUppercase && !endsWith ['.'] line)

/-- Some line is longer than `width`. -/
def anyLonger (width : Nat) (lines : List Text) : Bool := lines.any (·.length > width)

/-- The line is too long. -/
def isLong (line : Text) : Bool := line.length > Filler.usualWidth

/-- The marker of a bullet, with the blanks before and after it, and the text after it. -/
def splitBullet? (line : Text) : Option (Text × Text) :=
  let (before, rest) := line.span isBlank
  match rest with
  | [] => none
  | c :: rest =>
    let (after, text) := rest.span isBlank
    if (c == '*' || c == '+' || c == '-') && !after.isEmpty && !text.contains '\n' then
      some (before ++ c :: after, text)
    else none

/-- The line begins a bullet. -/
def isBullet (line : Text) : Bool := (splitBullet? line).isSome

/-- Lines that are filled together if one of them is too long. -/
structure Passage where
  /-- What the first line begins with. -/
  indent : Text
  /-- The lines without their indent. -/
  texts : List Text
  /-- The lines as they are. -/
  lines : List Text
  deriving DecidableEq, Repr

namespace Passage

/-- A passage of one line. -/
def single (indent text line : Text) : Passage := ⟨indent, [text], [line]⟩

/-- One of the lines is too long. -/
def isLong (p : Passage) : Bool := p.lines.any Changelog.isLong

/-- The passage with one more line. -/
def add (p : Passage) (text line : Text) : Passage :=
  { p with texts := p.texts ++ [text], lines := p.lines ++ [line] }

/-- A line can be joined to the passage. -/
def takes (p : Passage) (text line : Text) : Bool :=
  (p.isLong || Changelog.isLong line) && canJoin (p.texts.getLast?.getD []) text

/-- The lines of the passage, filled anew if one of them is too long. -/
def render (p : Passage) : List Text :=
  if p.isLong then (Filler.hanging p.indent).fill (join [' '] p.texts) else p.lines

end Passage

/-- Divides the lines of a change into passages. `current` is the passage being made, and `hanging`
the indent of the lines below the last marker. -/
def passages (current : Option Passage) (hanging : Text) : List Text → List Passage
  | [] => current.toList
  | line :: lines =>
    match splitBullet? line with
    | some (marker, text) =>
      current.toList ++
        passages (some (.single marker text line)) (List.replicate marker.length ' ') lines
    | none =>
      let text := trimStart line
      match current with
      | some p =>
        if p.takes text line then passages (some (p.add text line)) hanging lines
        else p :: passages (some (.single hanging text line)) hanging lines
      | none => passages (some (.single hanging text line)) hanging lines

/-- Rewraps one bullet. Lines that begin with no marker, and a bullet without a line that is too long,
stay as they are. -/
def rewrapChange (lines : List Text) : List Text :=
  if lines.any isLong && lines.head?.any isBullet then
    (passages none [] lines).flatMap Passage.render
  else lines

/-- The line is a further line of a bullet whose text is indented this far. -/
def continuesBullet (indent : Nat) (line : Text) : Bool :=
  !isBlankLine line && (line.take indent).all (· == ' ') && line.length > indent

/-- Rewraps the bullets among lines. `change` are the lines of the bullet being read, whose text is
indented by `indent`; there are none outside of bullets. -/
def rewrapFrom (change : List Text) (indent : Nat) : List Text → List Text
  | [] => rewrapChange change
  | line :: lines =>
    match splitBullet? line with
    | some (marker, _) => rewrapChange change ++ rewrapFrom [line] marker.length lines
    | none =>
      if !change.isEmpty && continuesBullet indent line then
        rewrapFrom (change ++ [line]) indent lines
      else rewrapChange change ++ line :: rewrapFrom [] indent lines

/-- Rewraps the bullets among the lines of an entry. -/
def rewrapChanges (lines : List Text) : List Text := rewrapFrom [] 0 lines

end Packaging.Changelog
