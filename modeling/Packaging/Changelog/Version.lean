import Packaging.Text.Basic

/-!
# Versions

A version is written `epoch:release-revision`; epoch and revision may be missing. The revision is
what follows the last hyphen, if it can be one. Versions are ordered by epoch, release and
revision, where a missing epoch is zero and a missing revision is `0`, so versions that are written
differently can be equal in this order.
-/

namespace Packaging.Changelog

open Text

/-- A version by its parts. -/
structure Version where
  epoch : Option Nat := none
  release : Text
  revision : Option Text := none
  deriving DecidableEq, Repr

namespace Version

/-! ### Reading and writing -/

/-- A character of a revision. -/
def isRevisionChar (c : Char) : Bool := c.isAlphanum || c == '.' || c == '+' || c == '~'

/-- A character of a release. -/
def isReleaseChar (c : Char) : Bool := isRevisionChar c || c == ':' || c == '-'

/-- Splits what follows the epoch. -/
def ofParts (epoch : Option Nat) (t : Text) : Option Version :=
  if t.isEmpty || !t.all isReleaseChar then none
  else
    match cutLast? '-' t with
    | some (release, revision) =>
      if !release.isEmpty && !revision.isEmpty && revision.all isRevisionChar then
        some ⟨epoch, release, some revision⟩
      else some ⟨epoch, t, none⟩
    | none => some ⟨epoch, t, none⟩

/-- The digits before the first colon, and what follows it. -/
def splitEpoch? (t : Text) : Option (Text × Text) :=
  match t.span Char.isDigit with
  | (digits@(_ :: _), ':' :: rest@(_ :: _)) => some (digits, rest)
  | _ => none

/-- Reads a version. An epoch is less than 2³². -/
def parse? (t : Text) : Option Version :=
  match splitEpoch? t with
  | some (digits, rest) =>
    let epoch := digitsValue digits
    if epoch < 0x100000000 then ofParts (some epoch) rest else none
  | none => ofParts none t

/-- The text of a version. -/
def render (v : Version) : Text :=
  (match v.epoch with
    | some n => ofNat n ++ [':']
    | none => [])
  ++ v.release ++
  (match v.revision with
    | some r => '-' :: r
    | none => [])

/-! ### Order -/

/-- The weight of a character outside of numbers: tildes come before the end of a part, letters after
it, and everything else after letters. -/
def weight (c : Char) : Int :=
  if c = '~' then -1 else if c.isAlpha then c.toNat else c.toNat + 256

/-- Compares runs of characters by their weights; the end of a run weighs zero. -/
def compareRuns : (a b : Text) → Ordering
  | [], [] => .eq
  | a :: as, [] => (compare (weight a) 0).then (compareRuns as [])
  | [], b :: bs => (compare 0 (weight b)).then (compareRuns [] bs)
  | a :: as, b :: bs => (compare (weight a) (weight b)).then (compareRuns as bs)

/-- The runs of a part: by turns characters that are no digits, and digits. -/
def runs : Text → List (Text × Text)
  | [] => []
  | c :: t =>
    match c.isDigit, runs t with
    | true, ([], digits) :: rs => ([], c :: digits) :: rs
    | true, rs => ([], [c]) :: rs
    | false, (others, digits) :: rs => (c :: others, digits) :: rs
    | false, [] => [([c], [])]

/-- Compares the numbers that digits write. No digits come before any number. -/
def compareNumbers (a b : Text) : Ordering :=
  if a.isEmpty || b.isEmpty then compare a.length b.length
  else compare (digitsValue a) (digitsValue b)

/-- Compares one run and the number after it. -/
def compareRun (a b : Text × Text) : Ordering :=
  (compareRuns a.1 b.1).then (compareNumbers a.2 b.2)

/-- Compares lists of runs; the shorter one goes on with empty runs. -/
def compareAll : (a b : List (Text × Text)) → Ordering
  | [], [] => .eq
  | a :: as, [] => (compareRun a ([], [])).then (compareAll as [])
  | [], b :: bs => (compareRun ([], []) b).then (compareAll [] bs)
  | a :: as, b :: bs => (compareRun a b).then (compareAll as bs)

/-- Compares two releases, or two revisions. -/
def comparePart (a b : Text) : Ordering := compareAll (runs a) (runs b)

/-- The order of versions. -/
def order (a b : Version) : Ordering :=
  (compare (a.epoch.getD 0) (b.epoch.getD 0)).then
    ((comparePart a.release b.release).then
      (comparePart (a.revision.getD ['0']) (b.revision.getD ['0'])))

/-- Neither version comes before the other. -/
def sameOrder (a b : Version) : Bool := order a b == .eq

/-! ### The next version -/

/-- The digits of the next number, both with the last digit first. No digits stand for zero. -/
def succDigits : Text → Text
  | [] => ['1']
  | d :: ds => if d = '9' then '0' :: succDigits ds else Char.ofNat (d.toNat + 1) :: ds

/-- The text with the number at its end made greater by one. -/
def incrementNumber (t : Text) : Text :=
  let digits := t.reverse.takeWhile Char.isDigit
  let others := t.reverse.dropWhile Char.isDigit
  others.reverse ++ (succDigits digits).reverse

/-- The version of the next upload: the next revision, or the next release if there is no
revision. -/
def increment (v : Version) : Version :=
  match v.revision with
  | some r => { v with revision := some (incrementNumber r) }
  | none => { v with release := incrementNumber v.release }

end Version

end Packaging.Changelog
