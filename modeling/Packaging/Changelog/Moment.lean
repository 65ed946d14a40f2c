import Packaging.Text.Blank

/-!
# Dates of trailers

A moment is a number of seconds since the beginning of 1970, with the offset of a local clock. It is
written as `Mon, 04 Mar 2024 12:00:00 +0000`, and read from this form and the others that mail
headers have: without the day of the week, with two or three digits for the year, with the name of a
time zone, and with comments at the end.
-/

namespace Packaging.Changelog

open Text

/-- Seconds since the beginning of 1970, and how many seconds the local clock is ahead. In a leap
second the clock shows the second after this one as the sixtieth. -/
structure Moment where
  seconds : Int
  offset : Int
  leap : Bool := false
  deriving DecidableEq, Repr

namespace Moment

/-! ### The calendar -/

/-- The first second that can be told. -/
def firstSecond : Int := -8334601228800

/-- The last second that can be told. -/
def lastSecond : Int := 8210266876799

/-- The last year that can be told. -/
def lastYear : Int := 262142

/-- The number of seconds in a day. -/
def daySeconds : Int := 86400

/-- The moment, if it can be told. -/
def make? (seconds offset : Int) (leap : Bool) : Option Moment :=
  if firstSecond ≤ seconds ∧ seconds ≤ lastSecond ∧ -daySeconds < offset ∧ offset < daySeconds then
    some ⟨seconds, offset, leap⟩
  else none

/-- The number of days from the beginning of 1970 to a day. A year begins with March here, so that
the day a leap year has more is its last. -/
def dayNumber (year month day : Int) : Int :=
  let y := if month ≤ 2 then year - 1 else year
  let m := if month ≤ 2 then month + 9 else month - 3
  y * 365 + y / 4 - y / 100 + y / 400 + (153 * m + 2) / 5 + day - 1 - 719468

/-- Year, month and day of a day given by its number. -/
def civilDate (number : Int) : Int × Int × Int :=
  let z := number + 719468
  let era := z / 146097
  let dayOfEra := z % 146097
  let yearOfEra := (dayOfEra - dayOfEra / 1460 + dayOfEra / 36524 - dayOfEra / 146096) / 365
  let dayOfYear := dayOfEra - (365 * yearOfEra + yearOfEra / 4 - yearOfEra / 100)
  let m := (5 * dayOfYear + 2) / 153
  let day := dayOfYear - (153 * m + 2) / 5 + 1
  let month := if m < 10 then m + 3 else m - 9
  let year := yearOfEra + era * 400 + (if month ≤ 2 then 1 else 0)
  (year, month, day)

/-- A leap year. -/
def isLeapYear (year : Int) : Bool := year % 4 == 0 && (year % 100 != 0 || year % 400 == 0)

/-- The number of days in a month. -/
def monthLength (year month : Int) : Int :=
  if month = 2 then if isLeapYear year then 29 else 28
  else if month = 4 ∨ month = 6 ∨ month = 9 ∨ month = 11 then 30
  else 31

/-- The day of the week of a day given by its number; Sunday is zero. -/
def weekday (number : Int) : Int := (number + 4) % 7

/-- The names of the days of the week. -/
def dayNames : List Text := ["Sun", "Mon", "Tue", "Wed", "Thu", "Fri", "Sat"].map String.toList

/-- The names of the months. -/
def monthNames : List Text :=
  ["Jan", "Feb", "Mar", "Apr", "May", "Jun", "Jul", "Aug", "Sep", "Oct", "Nov", "Dec"].map
    String.toList

/-! ### Writing -/

/-- A number with two digits. -/
def twoDigits (n : Int) : Text := ofNatPadded 2 n.toNat

/-- A year with four digits, and with a sign if it is negative or needs more. -/
def renderYear (year : Int) : Text :=
  (if year < 0 then ['-'] else if year > 9999 then ['+'] else []) ++ ofNatPadded 4 year.natAbs

/-- An offset in hours and minutes, to the nearest minute. -/
def renderOffset (offset : Int) : Text :=
  let minutes : Int := (offset.natAbs + 30) / 60
  (if offset < 0 then '-' else '+') :: twoDigits (minutes / 60) ++ twoDigits (minutes % 60)

/-- The local time. -/
def renderClock (second : Int) (leap : Bool) : Text :=
  twoDigits (second / 3600) ++ ':' :: twoDigits (second / 60 % 60)
    ++ ':' :: twoDigits (second % 60 + (if leap then 1 else 0))

/-- The moment as a trailer has it. -/
def render (t : Moment) : Text :=
  let localTime := t.seconds + t.offset
  let number := localTime / daySeconds
  let (year, month, day) := civilDate number
  (dayNames[(weekday number).toNat]?).getD [] ++ [',', ' '] ++ twoDigits day ++ [' ']
    ++ (monthNames[(month - 1).toNat]?).getD [] ++ [' '] ++ renderYear year ++ [' ']
    ++ renderClock (localTime % daySeconds) t.leap ++ [' '] ++ renderOffset t.offset

/-! ### Reading -/

/-- A number of at least `least` and at most `most` digits, and what follows. -/
def number? (least most : Nat) (t : Text) : Option (Int × Text) :=
  let digits := (t.take most).takeWhile Char.isDigit
  if digits.length < least then none else some (digitsValue digits, t.drop digits.length)

/-- The index of a name of three letters that the text begins with, and what follows. -/
def name? (names : List Text) (t : Text) : Option (Nat × Text) :=
  (names.findIdx? (eqIgnoreCase (t.take 3))).map (·, t.drop 3)

/-- What follows one or more blanks. -/
def gap? (t : Text) : Option Text := if t.head?.any isBlank then some (trimStart t) else none

/-- The day of the week in front of a date, if there is one. -/
def weekday? (t : Text) : Option (Option Nat × Text) :=
  match name? dayNames t with
  | some (day, ',' :: rest) => some (some day, rest)
  | some _ => none
  | none => some (none, t)

/-- A year: two digits are of the century around 2000, three are counted from 1900. -/
def year? (t : Text) : Option (Int × Text) := do
  let (n, rest) ← number? 2 t.length t
  let year :=
    match t.length - rest.length with
    | 2 => if n < 50 then n + 2000 else n + 1900
    | 3 => n + 1900
    | _ => n
  return (year, rest)

/-- Hours, minutes, and seconds if there are any. -/
def clock? (t : Text) : Option ((Int × Int × Int) × Text) := do
  let (hour, t) ← number? 2 2 t
  let t ← dropStart? [':'] (trimStart t)
  let (minute, t) ← number? 2 2 (trimStart t)
  let (second, t) ←
    match dropStart? [':'] (trimStart t) with
    | some t => number? 2 2 t
    | none => some (0, t)
  if hour < 24 ∧ minute < 60 ∧ second ≤ 60 then some ((hour, minute, second), t) else none

/-- The names of time zones, in lower case, and their offsets in hours. -/
def zoneNames : List (String × Int) :=
  [("gmt", 0), ("ut", 0), ("z", 0), ("edt", -4), ("est", -5), ("cdt", -5), ("cst", -6), ("mdt", -6),
   ("mst", -7), ("pdt", -7), ("pst", -8)]

/-- The offset that a name stands for. A single letter but `j` stands for none. -/
def namedZone? (name : Text) : Option Int :=
  match zoneNames.find? fun z => z.1.toList == toLower name with
  | some z => some (z.2 * 3600)
  | none => if name.length = 1 ∧ toLower name ≠ ['j'] then some 0 else none

/-- A time zone: a name, or a sign with hours and minutes. -/
def zone? (t : Text) : Option (Int × Text) :=
  let (name, rest) := t.span Char.isAlpha
  if !name.isEmpty then (namedZone? name).map (·, rest)
  else
    match t with
    | sign :: t => do
      let (hours, t) ← number? 2 2 t
      let (minutes, t) ← number? 2 2 t
      if (sign = '+' ∨ sign = '-') ∧ minutes < 60 then
        let size := hours * 3600 + minutes * 60
        some (if sign = '-' then -size else size, t)
      else none
    | [] => none

/-- Comments and the blanks before them are all of the text. `depth` comments are open; within them
a backslash goes before a character that has no meaning. -/
def isComments (depth : Nat) (escaped : Bool) : Text → Bool
  | [] => depth == 0
  | c :: t =>
    if escaped then isComments depth false t
    else if c = '(' then isComments (depth + 1) false t
    else if depth = 0 then isBlank c && t.any (!isBlank ·) && isComments 0 false t
    else if c = ')' then isComments (depth - 1) false t
    else isComments depth (c == '\\') t

/-- Reads a date as mail headers have it. -/
def parse? (t : Text) : Option Moment := do
  let (dayOfWeek, t) ← weekday? (trimStart t)
  let (day, t) ← number? 1 2 (trimStart t)
  let t ← gap? t
  let (month, t) ← name? monthNames t
  let month : Int := month + 1
  let t ← gap? t
  let (year, t) ← year? t
  let t ← gap? t
  let ((hour, minute, second), t) ← clock? t
  let t ← gap? t
  let (offset, t) ← zone? t
  let number := dayNumber year month day
  if isComments 0 false t ∧ year ≤ lastYear ∧ 1 ≤ day ∧ day ≤ monthLength year month
      ∧ dayOfWeek.all (fun (d : Nat) => decide ((d : Int) = weekday number)) then
    let clock := hour * 3600 + minute * 60 + min second 59
    make? (number * daySeconds + clock - offset) offset (second == 60)
  else none

end Moment

end Packaging.Changelog
