import UtxoLedger.Error

/-!
Numbers and truth values on the script stack. A number is its magnitude, least significant byte
first, with the sign in the top bit of the last byte.
-/

namespace UtxoLedger.ScriptNumber

/-- The bytes of a magnitude, least significant first. -/
def magnitudeBytes (n : Nat) : Bytes :=
  if n = 0 then [] else UInt8.ofNat n :: magnitudeBytes (n / 256)

/-- Puts a sign onto a magnitude: into the top bit of its last byte if that bit is free, into a byte
of its own otherwise. -/
def withSign (negative : Bool) : Bytes → Bytes
  | [] => []
  | [last] =>
    if last < 0x80 then [if negative then last ||| 0x80 else last]
    else [last, if negative then 0x80 else 0]
  | b :: rest => b :: withSign negative rest

/-- The bytes of a number, as few as possible. Zero has none. -/
def encode (n : Int) : Bytes :=
  withSign (n < 0) (magnitudeBytes n.natAbs)

/-- Whether the last byte is there for nothing: it holds no bit of the magnitude, and the byte before
it leaves room for the sign. -/
def isPadded (bytes : Bytes) : Bool :=
  match bytes.reverse with
  | [] => false
  | [last] => last &&& 0x7f == 0
  | last :: before :: _ => last &&& 0x7f == 0 && before &&& 0x80 == 0

/-- The bytes as one word, the first byte in the lowest bits. -/
def word (bytes : Bytes) : UInt64 :=
  bytes.foldr (fun b w => (w <<< 8) ||| b.toUInt64) 0

/-- The number in at most eight bytes: the word without its sign bit, negated if that bit is set. -/
def ofWord (bytes : Bytes) : Int :=
  let w := word bytes
  let signBit : UInt64 := 0x80 <<< UInt64.ofNat (8 * (bytes.length - 1))
  if w &&& signBit = 0 then w.toNat else -((w &&& ~~~signBit).toNat : Int)

/-- The longest number that can be read. -/
def maxLength : Nat := 8

/-- Reads a number of at most `limit` bytes, and never more than eight. -/
def decode (bytes : Bytes) (requireMinimal : Bool) (limit : Nat) : Except ExecutionError Int :=
  let limit := min limit maxLength
  if limit < bytes.length then .error (.numberTooLong bytes.length limit)
  else if requireMinimal && isPadded bytes then .error (.numberNotMinimal bytes)
  else .ok (ofWord bytes)

end UtxoLedger.ScriptNumber

namespace UtxoLedger.ScriptBool

/-- Whether an element counts as true. Scanning from the last byte, the first byte that is not zero
decides: it is true unless it is the sign of a zero. -/
def decode (bytes : Bytes) : Bool :=
  match bytes.reverse with
  | [] => false
  | last :: before => (last != 0 && last != 0x80) || before.any (· != 0)

/-- The element for a truth value. -/
def encode (value : Bool) : Bytes :=
  if value then [1] else []

end UtxoLedger.ScriptBool
