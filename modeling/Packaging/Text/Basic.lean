/-!
# Texts

A text is a list of characters, so that every function on it is recursion on a list. This module
has what the formats share: joining and splitting, leading and trailing pieces, and comparison
without regard to the case of ASCII letters.

Splitting at every separator is `List.splitOn`; joining with a separator is `List.intercalate`.
-/

namespace Packaging

/-- A text, as the list of its characters. -/
abbrev Text := List Char

namespace Text

/-- What follows `start` in `t`, if `t` begins with `start`. -/
def dropStart? : (start t : Text) → Option Text
  | [], t => some t
  | _ :: _, [] => none
  | a :: start, c :: t => if a = c then dropStart? start t else none

/-- What comes before `tail` in `t`, if `t` ends with `tail`. -/
def dropEnd? (tail t : Text) : Option Text :=
  (dropStart? tail.reverse t.reverse).map List.reverse

/-- `t` begins with `start`. -/
def startsWith (start t : Text) : Bool := start.isPrefixOf t

/-- `t` ends with `tail`. -/
def endsWith (tail t : Text) : Bool := tail.isSuffixOf t

/-- `piece` occurs somewhere in `t`. -/
def occursIn (piece : Text) : Text → Bool
  | [] => piece.isEmpty
  | c :: t => startsWith piece (c :: t) || occursIn piece t

/-- The texts before and after the first `sep`, if there is one. -/
def cut? (sep : Char) : Text → Option (Text × Text)
  | [] => none
  | c :: t => if c = sep then some ([], t) else (cut? sep t).map fun (a, b) => (c :: a, b)

/-- The texts before and after the last `sep`, if there is one. -/
def cutLast? (sep : Char) : Text → Option (Text × Text)
  | [] => none
  | c :: t =>
    match cutLast? sep t with
    | some (a, b) => some (c :: a, b)
    | none => if c = sep then some ([], t) else none

/-- The texts before and after each place where `sep` is, the last place first. -/
def cutsAt (sep : Text) : Text → List (Text × Text)
  | [] => []
  | c :: t =>
    (cutsAt sep t).map (fun (a, b) => (c :: a, b)) ++
      ((dropStart? sep (c :: t)).map fun rest => ([], rest)).toList

/-- The texts, one after the other, with `sep` between them. -/
def join (sep : Text) (ts : List Text) : Text := sep.intercalate ts

/-- The same letters, up to the case of ASCII letters. -/
def eqIgnoreCase (a b : Text) : Bool := a.map Char.toLower == b.map Char.toLower

/-- ASCII letters in upper case, everything else as it is. -/
def toUpper (t : Text) : Text := t.map Char.toUpper

/-- ASCII letters in lower case, everything else as it is. -/
def toLower (t : Text) : Text := t.map Char.toLower

/-- The decimal digits of `n`. -/
def ofNat (n : Nat) : Text := Nat.toDigits 10 n

/-- The decimal digits of `n`, with zeros in front up to the given width. -/
def ofNatPadded (width n : Nat) : Text :=
  List.replicate (width - (ofNat n).length) '0' ++ ofNat n

/-- The number written by a run of ASCII digits. -/
def digitsValue (t : Text) : Nat := t.foldl (fun n c => 10 * n + (c.toNat - '0'.toNat)) 0

end Text

end Packaging
