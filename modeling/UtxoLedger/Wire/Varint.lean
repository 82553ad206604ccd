import UtxoLedger.Wire.Reader
import UtxoLedger.Wire.Writer

/-!
Varints: a number in groups of seven bits, least significant first, where every byte but the last
has its top bit set. Only numbers below `2 ^ 64` in their shortest form are read.
-/

namespace UtxoLedger.Wire

namespace Varint

/-- The bytes of a number. -/
def encode (n : Nat) : Bytes :=
  if n < 128 then [UInt8.ofNat n] else UInt8.ofNat (n % 128 + 128) :: encode (n / 128)

/-- How many bytes a number takes. -/
def size (n : Nat) : Nat :=
  if n < 128 then 1 else size (n / 128) + 1

/-- The longest form of a number below `2 ^ 64`. -/
def maxLength : Nat := 10

/-- Reads the bytes from the one at `index` on; `value` is the number that the bytes before it make.
The tenth byte has room for one bit only. -/
def readFrom (field : String) (index value : Nat) : (left : Nat) → Read Nat
  | 0 => throw (.varintOverflow field)
  | left + 1 => do
    let b := (← Reader.u8 field).toNat
    if index = maxLength - 1 ∧ 1 < b then
      throw (.varintOverflow field)
    else
      let value := value + b % 128 * Nat.pow 128 index
      if 128 ≤ b then
        readFrom field (index + 1) value left
      else if b = 0 ∧ 0 < index then
        throw (.varintPadded field)
      else
        return value

end Varint

namespace Reader

/-- Reads a varint. -/
def varint (field : String) : Read Nat :=
  Varint.readFrom field 0 0 Varint.maxLength

/-- Reads a count of at most `limit`. -/
def count (limit : Nat) (field : String) : Read Nat := do
  let n ← varint field
  if limit < n then throw (.tooMany field n limit) else return n

/-- Reads a length of at most `limit` and as many bytes. -/
def varBytes (limit : Nat) (field : String) : Read Bytes := do
  let n ← varint field
  if limit < n then throw (.tooLong field n limit) else take n field

end Reader

namespace Writer

/-- Writes a varint. -/
def varint (value : Nat) : Write :=
  put (Varint.encode value) "varint"

/-- Writes a count, unless a reader would refuse it. -/
def count (value limit : Nat) (field : String) : Write :=
  if limit < value then throw (.tooMany field value limit) else varint value

/-- Writes a length and as many bytes, unless a reader would refuse them. -/
def varBytes (data : Bytes) (limit : Nat) (field : String) : Write := do
  let n := data.length
  if limit < n then throw (.tooLong field n limit)
  else
    varint n
    bytes data

end Writer

end UtxoLedger.Wire
