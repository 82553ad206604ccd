import UtxoLedger.Error

/-!
Base 58: a byte string as a number in digits that are hard to confuse, where each leading zero byte is
written as one digit of value zero.
-/

namespace UtxoLedger.Base58

/-- The digits in the order of their values. -/
def alphabet : List Char :=
  "123456789ABCDEFGHJKLMNPQRSTUVWXYZabcdefghijkmnopqrstuvwxyz".toList

/-- The digit of a value below 58. -/
def digit (n : Nat) : Char :=
  alphabet.getD n '1'

/-- The value of the digit with the given character code. -/
def digitValue? (code : UInt8) : Option Nat :=
  alphabet.findIdx? fun c => c.toNat == code.toNat

/-- The digits of a number in a base, most significant first, onto the digits that follow. -/
def digitsOnto (base n : Nat) (rest : List Nat) : List Nat :=
  if _h : 1 < base ∧ 0 < n then
    digitsOnto base (n / base) (n % base :: rest)
  else rest
termination_by n
decreasing_by exact Nat.div_lt_self _h.2 _h.1

/-- The number with the given digits in a base, most significant first. -/
def ofDigits (base : Nat) (digits : List Nat) : Nat :=
  digits.foldl (fun n d => n * base + d) 0

/-- Writes a string of digits of one base in another, leading zeros kept one for one. -/
def rebase (source target : Nat) (digits : List Nat) : List Nat :=
  digits.takeWhile (· == 0) ++ digitsOnto target (ofDigits source digits) []

/-- The text of a byte string. -/
def encode (bytes : Bytes) : String :=
  String.ofList ((rebase 256 58 (bytes.map UInt8.toNat)).map digit)

/-- The digits of character codes from offset `position` on, onto those before, last first. -/
def readDigits (position : Nat) (done : List Nat) : Bytes → Except AddressError (List Nat)
  | [] => .ok done.reverse
  | code :: rest =>
    if 0x80 ≤ code then .error (.nonAscii position)
    else
      match digitValue? code with
      | none => .error (.invalidCharacter code position)
      | some d => readDigits (position + 1) (d :: done) rest

/-- The byte string that a text stands for. -/
def decode (text : String) : Except AddressError Bytes := do
  let digits ← readDigits 0 [] text.toUTF8.toList
  return (rebase 58 256 digits).map UInt8.ofNat

end UtxoLedger.Base58
