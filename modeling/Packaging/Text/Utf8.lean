import Packaging.Text.Basic

/-!
# UTF-8

Reading bytes as characters. Malformed input is described by the index of the first byte that
belongs to no character and by how many bytes of a character came before the one that broke it;
input that ends inside a character is told apart from that.
-/

namespace Packaging.Text

/-- Why bytes are not UTF-8. -/
inductive Utf8Error where
  /-- `length` bytes from `index` on begin no character. -/
  | invalid (length index : Nat)
  /-- The character at `index` is cut off by the end of the input. -/
  | incomplete (index : Nat)
  deriving DecidableEq, Repr

/-- The text of the error. -/
def Utf8Error.message : Utf8Error → Text
  | .invalid length index =>
    "invalid utf-8 sequence of ".toList ++ ofNat length ++ " bytes from index ".toList ++ ofNat index
  | .incomplete index => "incomplete utf-8 byte sequence from index ".toList ++ ofNat index

/-- What the first byte and those after it begin with. -/
inductive Utf8Head where
  /-- A character, which takes `more` bytes after the first. -/
  | character (c : Char) (more : Nat)
  /-- The first byte and `more` bytes after it begin no character. -/
  | malformed (more : Nat)
  /-- The input ends inside a character. -/
  | truncated
  deriving DecidableEq

/-- A byte that continues a character. -/
def isContinuation (b : UInt8) : Bool := 0x80 ≤ b && b ≤ 0xBF

/-- The bounds of the second byte of a character that begins with `b`, and the number of bytes
after the first; none for a byte that begins no longer character. -/
def secondByte? (b : UInt8) : Option (UInt8 × UInt8 × Nat) :=
  if 0xC2 ≤ b && b ≤ 0xDF then some (0x80, 0xBF, 1)
  else if b == 0xE0 then some (0xA0, 0xBF, 2)
  else if b == 0xED then some (0x80, 0x9F, 2)
  else if 0xE1 ≤ b && b ≤ 0xEF then some (0x80, 0xBF, 2)
  else if b == 0xF0 then some (0x90, 0xBF, 3)
  else if b == 0xF4 then some (0x80, 0x8F, 3)
  else if 0xF1 ≤ b && b ≤ 0xF3 then some (0x80, 0xBF, 3)
  else none

/-- The six bits a continuation byte carries. -/
def payload (b : UInt8) : Nat := b.toNat % 64

/-- Reads one character. -/
def utf8Head (b : UInt8) (rest : List UInt8) : Utf8Head :=
  if b < 0x80 then .character (Char.ofNat b.toNat) 0
  else
    match secondByte? b with
    | none => .malformed 0
    | some (low, high, more) =>
      match rest with
      | [] => .truncated
      | b₁ :: rest =>
        if !(low ≤ b₁ && b₁ ≤ high) then .malformed 0
        else if more == 1 then .character (Char.ofNat (b.toNat % 32 * 64 + payload b₁)) 1
        else
          match rest with
          | [] => .truncated
          | b₂ :: rest =>
            if !isContinuation b₂ then .malformed 1
            else if more == 2 then
              .character (Char.ofNat (b.toNat % 16 * 4096 + payload b₁ * 64 + payload b₂)) 2
            else
              match rest with
              | [] => .truncated
              | b₃ :: _ =>
                if !isContinuation b₃ then .malformed 2
                else
                  .character (Char.ofNat
                    (b.toNat % 8 * 262144 + payload b₁ * 4096 + payload b₂ * 64 + payload b₃)) 3

/-- Reads bytes, the first of which has the given index. -/
def decodeFrom (index : Nat) : List UInt8 → Except Utf8Error Text
  | [] => .ok []
  | b :: rest =>
    match utf8Head b rest with
    | .character c more =>
      match decodeFrom (index + more + 1) (rest.drop more) with
      | .ok t => .ok (c :: t)
      | .error e => .error e
    | .malformed more => .error (.invalid (more + 1) index)
    | .truncated => .error (.incomplete index)
termination_by bytes => bytes.length
decreasing_by simp only [List.length_drop, List.length_cons]; omega

/-- The text that the bytes are the UTF-8 form of. -/
def decode (bytes : List UInt8) : Except Utf8Error Text := decodeFrom 0 bytes

/-- The text of the bytes, with U+FFFD for every piece that is not UTF-8. -/
def decodeLossy : List UInt8 → Text
  | [] => []
  | b :: rest =>
    match utf8Head b rest with
    | .character c more => c :: decodeLossy (rest.drop more)
    | .malformed more => '\ufffd' :: decodeLossy (rest.drop more)
    | .truncated => ['\ufffd']
termination_by bytes => bytes.length
decreasing_by all_goals simp only [List.length_drop, List.length_cons]; omega

/-- The UTF-8 form of a text. -/
def encode (t : Text) : List UInt8 := t.flatMap String.utf8EncodeChar

end Packaging.Text
