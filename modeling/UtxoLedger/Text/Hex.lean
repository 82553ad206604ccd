import UtxoLedger.Bytes
import UtxoLedger.Text.Quote

/-!
Hexadecimal text. Writing uses lowercase digits; reading takes either case, two digits a byte.
-/

namespace UtxoLedger

/-- Why a text is not the hexadecimal form of a byte string. -/
inductive HexError where
  /-- The text has an odd number of bytes. -/
  | oddLength
  /-- The first byte that is not a digit, and its offset. -/
  | invalidDigit (byte : UInt8) (position : Nat)
  deriving DecidableEq, Repr

namespace HexError

def message : HexError → String
  | oddLength => "Odd number of digits"
  | invalidDigit byte position =>
    s!"Invalid character {Text.quoteChar (Char.ofNat byte.toNat)} at position {position}"

end HexError

namespace Hex

def digit (n : Nat) : Char :=
  if n < 10 then Char.ofNat (48 + n) else Char.ofNat (87 + n)

/-- The value of a digit of either case, given by its character code. -/
def digitValue? (code : UInt8) : Option Nat :=
  let n := code.toNat
  if 48 ≤ n ∧ n ≤ 57 then some (n - 48)
  else if 97 ≤ n ∧ n ≤ 102 then some (n - 87)
  else if 65 ≤ n ∧ n ≤ 70 then some (n - 55)
  else none

/-- The digits of a byte string, two a byte, high half first. -/
def digits (bytes : Bytes) : List Char :=
  bytes.flatMap fun b => [digit (b.toNat / 16), digit (b.toNat % 16)]

def encode (bytes : Bytes) : String :=
  String.ofList (digits bytes)

/-- Reads pairs of digits from character codes that start at offset `position`; `read` holds the
bytes read before them, last first. -/
def decodeFrom (position : Nat) (read : Bytes) : Bytes → Except HexError Bytes
  | high :: low :: rest =>
    match digitValue? high, digitValue? low with
    | none, _ => .error (.invalidDigit high position)
    | some _, none => .error (.invalidDigit low (position + 1))
    | some h, some l => decodeFrom (position + 2) (UInt8.ofNat (16 * h + l) :: read) rest
  | [_] => .error .oddLength
  | [] => .ok read.reverse

/-- The bytes that a text of character codes stands for. An odd length is reported before a bad
digit. -/
def decodeBytes (codes : Bytes) : Except HexError Bytes :=
  if codes.length % 2 = 1 then .error .oddLength else decodeFrom 0 [] codes

/-- The bytes that a text stands for, offsets counted in its UTF-8 form. -/
def decode (text : String) : Except HexError Bytes :=
  decodeBytes text.toUTF8.toList

end Hex

def FixedBytes.toHex {n : Nat} (bytes : FixedBytes n) : String :=
  Hex.encode bytes.toList

end UtxoLedger
