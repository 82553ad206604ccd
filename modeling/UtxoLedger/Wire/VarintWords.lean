import UtxoLedger.Wire.Varint
import UtxoLedger.Words

/-!
Varints in words: a number is a word whose bits are moved by seven from byte to byte, the bytes are
counted before they are written, and what has been read is collected bit by bit.
-/

namespace UtxoLedger.Wire.Varint.InWords

/-- How many bytes a word takes, behind those that are counted already. -/
def sizeFrom (counted : Nat) (value : UInt64) : Nat :=
  if 0x80 ≤ value then sizeFrom (counted + 1) (value >>> 7) else counted
termination_by value.toNat
decreasing_by
  next hmore =>
    have hle : 128 ≤ value.toNat := UInt64.le_iff_toNat_le.1 hmore
    rw [Words.toNat_shiftRight value 128 rfl]
    omega

/-- How many bytes a word takes. -/
def size (value : UInt64) : Nat :=
  sizeFrom 1 value

/-- Fills `slots` bytes with the bits of a word, seven in each; all bytes but the last say that there
are more. -/
def fill : (slots : Nat) → (value : UInt64) → Bytes
  | 0, _ => []
  | slots + 1, value =>
    let group := (value &&& 0x7f).toUInt8
    (if slots = 0 then group else group ||| 0x80) :: fill slots (value >>> 7)

/-- The bytes of a word. -/
def encode (value : UInt64) : Bytes :=
  fill (size value) value

/-- Reads the bytes from the one at `index` on into a word that holds the bits of those before it. The
reading breaks off, without a word, where bits would be lost. -/
def readFrom (field : String) (index : Nat) (value : UInt64) : (left : Nat) → Read (Option UInt64)
  | 0 => throw (.varintOverflow field)
  | left + 1 => do
    let b ← Reader.u8 field
    if index = maxLength - 1 ∧ 1 < b then
      throw (.varintOverflow field)
    else
      match Words.moveUp? (b &&& 0x7f).toUInt64 (7 * index) with
      | none => return none
      | some group =>
        let value := value ||| group
        if b &&& 0x80 = 0 then
          if b = 0 ∧ 0 < index then throw (.varintPadded field) else return some value
        else
          readFrom field (index + 1) value left

/-- Reads a varint into a word. -/
def read (field : String) : Read (Option UInt64) :=
  readFrom field 0 0 maxLength

end UtxoLedger.Wire.Varint.InWords
