import Packaging.Text.Basic
import Packaging.Text.Printable

/-!
# Quoted texts

How messages quote a text: between double quotes, with a backslash before quotes and backslashes,
the usual letters for tab, line feed, carriage return and NUL, and the code point of every other
character that would not show as itself.
-/

namespace Packaging.Text

/-- A character by its code point, in hexadecimal between braces. -/
def codePoint (c : Char) : Text :=
  ['\\', 'u', '{'] ++ Nat.toDigits 16 c.toNat ++ ['}']

/-- A character as it stands between double quotes. -/
def quoteChar (c : Char) : Text :=
  match c with
  | '"' => ['\\', '"']
  | '\\' => ['\\', '\\']
  | '\n' => ['\\', 'n']
  | '\r' => ['\\', 'r']
  | '\t' => ['\\', 't']
  | '\x00' => ['\\', '0']
  | c => if isPrintable c then [c] else codePoint c

/-- A text between double quotes. -/
def quote (t : Text) : Text := '"' :: t.flatMap quoteChar ++ ['"']

/-- A text that may be missing: `None`, or the quoted text in `Some(…)`. -/
def quoteOption : Option Text → Text
  | none => "None".toList
  | some t => "Some(".toList ++ quote t ++ [')']

end Packaging.Text
