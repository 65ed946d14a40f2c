import Packaging.Text.Basic

/-!
# Plain values

The values that a model is exchanged as with other programs: nothing, truth values, numbers, texts,
lists and objects. A record is written as an object with one entry for each of its fields; it is
also read from a list of its fields in order, and entries that it does not know are passed over.
-/

namespace Packaging

/-- A plain value. -/
inductive Value where
  | null
  | bool (b : Bool)
  | integer (n : Int)
  /-- A number that is not written as an integer. -/
  | decimal
  | text (t : Text)
  | list (items : List Value)
  | object (entries : List (Text × Value))
  deriving Inhabited

namespace Value

/-- The text, of a text. -/
def asText? : Value → Option Text
  | .text t => some t
  | _ => none

/-- The integer, of an integer between zero and 2³² - 1. -/
def asWord? : Value → Option Nat
  | .integer n => if 0 ≤ n ∧ n < 0x100000000 then some n.toNat else none
  | _ => none

/-- What each item of a list is read as. -/
def asList? {α : Type} (read? : Value → Option α) : Value → Option (List α)
  | .list items => items.mapM read?
  | _ => none

/-- Nothing, or what the value is read as. -/
def asOption? {α : Type} (read? : Value → Option α) : Value → Option (Option α)
  | .null => some none
  | v => (read? v).map some

/-- The entries of a record with the given field names, in order; `none` in place of an entry that
an object lacks. A list has all the fields. -/
def asRecord? (names : List Text) : Value → Option (List (Option Value))
  | .object entries => some (names.map fun name => List.lookup name entries)
  | .list items => if items.length = names.length then some (items.map some) else none
  | _ => none

/-- A text, or nothing. -/
def ofOption : Option Text → Value
  | some t => .text t
  | none => .null

/-- An object whose entries have these names. -/
def ofEntries (entries : List (String × Value)) : Value :=
  .object (entries.map fun (name, v) => (name.toList, v))

end Value

end Packaging
