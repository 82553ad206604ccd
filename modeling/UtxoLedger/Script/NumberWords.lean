import UtxoLedger.Script.Number
import UtxoLedger.Words

/-!
Numbers of the script stack in words. A signed word is written byte by byte from its magnitude, which is
a word without a sign; it is read by putting bytes above each other bit by bit, and where the top bit of
the last one is set it is taken out again and the sign is turned. Whether an element counts as true is
told from the place of its last byte that is not zero.
-/

namespace UtxoLedger.ScriptNumber.InWords

/-- The bytes of a word, as few as possible. -/
def magnitudeBytes (w : UInt64) : Bytes :=
  if w = 0 then [] else (w &&& 0xff).toUInt8 :: magnitudeBytes (w >>> 8)
termination_by w.toNat
decreasing_by
  next hmore =>
    have hpos : w.toNat ≠ 0 := fun hzero => hmore (UInt64.toNat_inj.1 hzero)
    rw [Words.toNat_shiftRight w 256 rfl]
    omega

/-- The bytes of a signed word. The magnitude of the least one has a word too. -/
def encode (x : Int64) : Bytes :=
  withSign (x < 0) (magnitudeBytes x.abs.toUInt64)

/-- Puts bytes into a word that holds those before the one at `index`. -/
def joinFrom (index : Nat) (value : Int64) : Bytes → Option Int64
  | [] => some value
  | b :: rest => do
    let placed ← Words.moveUp? b.toUInt64 (8 * index)
    joinFrom (index + 1) (value ||| placed.toInt64) rest

/-- The number in bytes. There is none where bits would be lost, or the sign of the least word would be
turned. -/
def ofBytes? (bytes : Bytes) : Option Int64 := do
  match bytes.getLast? with
  | none => return 0
  | some last =>
    let value ← joinFrom 0 0 bytes
    if last &&& 0x80 = 0 then return value
    else
      let signBit ← Words.moveUp? 0x80 (8 * (bytes.length - 1))
      Words.negate? (value &&& ~~~signBit.toInt64)

/-- Reads a number of at most `limit` bytes, and never more than eight. -/
def decode (bytes : Bytes) (requireMinimal : Bool) (limit : Nat) :
    Option (Except ExecutionError Int64) :=
  let limit := min limit maxLength
  if limit < bytes.length then some (.error (.numberTooLong bytes.length limit))
  else if requireMinimal && isPadded bytes then some (.error (.numberNotMinimal bytes))
  else (ofBytes? bytes).map .ok

end UtxoLedger.ScriptNumber.InWords

namespace UtxoLedger.ScriptBool

/-- The place of the last byte that is not zero. -/
def lastNonzero? (bytes : Bytes) : Option Nat :=
  (bytes.reverse.findIdx? (· != 0)).map fun back => bytes.length - 1 - back

/-- Whether an element counts as true: it has a byte that is not zero, and this is not the sign of a zero,
which stands in the last place and with zeros alone before it. -/
def scan (bytes : Bytes) : Bool :=
  match lastNonzero? bytes with
  | none => false
  | some index =>
    !(index == bytes.length - 1 && bytes[index]? == some 0x80 && (bytes.take index).all (· == 0))

end UtxoLedger.ScriptBool
