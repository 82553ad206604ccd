import UtxoLedger.Error

/-!
Writing into a buffer of a given size. A step that fails leaves what was written before it.
-/

namespace UtxoLedger.Wire

/-- The size of a buffer and the bytes written to its front. -/
structure Writer where
  capacity : Nat
  written : Array UInt8

namespace Writer

def start (capacity : Nat) : Writer :=
  ⟨capacity, #[]⟩

def position (w : Writer) : Nat :=
  w.written.size

/-- What a buffer holds after writing: the bytes written, and behind them what it held before. -/
def onto (w : Writer) (buffer : Bytes) : Bytes :=
  w.written.toList ++ buffer.drop w.position

end Writer

/-- A step that writes. -/
abbrev Write := ExceptT EncodeError (StateM Writer) Unit

def Write.apply (step : Write) (w : Writer) : Except EncodeError Unit × Writer :=
  step w

namespace Writer

/-- Writes bytes if all of them fit. -/
def put (bytes : Bytes) (field : String) : Write := do
  let w ← get
  let count := bytes.length
  if w.position + count ≤ w.capacity then
    modify fun w => { w with written := w.written ++ bytes }
  else
    throw (.noRoom field count w.position w.capacity)

def bytes (bytes : Bytes) : Write :=
  put bytes "byte field"

def u8 (value : UInt8) : Write :=
  put (littleEndian 1 value.toNat) "u8"

def u16 (value : UInt16) : Write :=
  put (littleEndian 2 value.toNat) "u16"

def u32 (value : UInt32) : Write :=
  put (littleEndian 4 value.toNat) "u32"

def u64 (value : UInt64) : Write :=
  put (littleEndian 8 value.toNat) "u64"

end Writer

end UtxoLedger.Wire
