import UtxoLedger.Error

/-!
Reading from the front of a byte string. A step that fails leaves the reader where it stopped.
-/

namespace UtxoLedger.Wire

/-- A position in a byte string and the bytes from there on. -/
structure Reader where
  position : Nat
  rest : Bytes

def Reader.start (bytes : Bytes) : Reader :=
  ⟨0, bytes⟩

abbrev Read := ExceptT DecodeError (StateM Reader)

def Read.apply {α : Type} (step : Read α) (r : Reader) : Except DecodeError α × Reader :=
  step r

namespace Reader

/-- Takes the next `count` bytes. -/
def take (count : Nat) (field : String) : Read Bytes := do
  let r ← get
  let bytes := r.rest.take count
  if bytes.length = count then
    set (⟨r.position + count, r.rest.drop count⟩ : Reader)
    return bytes
  else
    throw (.truncated field count r.position r.rest.length)

/-- Takes the next `width` bytes as a string of that width. -/
def fixed (width : Nat) (field : String) : Read (FixedBytes width) := do
  let r ← get
  let bytes := r.rest.take width
  if h : bytes.length = width then
    set (⟨r.position + width, r.rest.drop width⟩ : Reader)
    return ⟨bytes, h⟩
  else
    throw (.truncated field width r.position r.rest.length)

/-- The number in the next `width` bytes, least significant first. -/
def nat (width : Nat) (field : String) : Read Nat := do
  return ofLittleEndian (← take width field)

def u8 (field : String) : Read UInt8 := do
  return UInt8.ofNat (← nat 1 field)

def u16 (field : String) : Read UInt16 := do
  return UInt16.ofNat (← nat 2 field)

def u32 (field : String) : Read UInt32 := do
  return UInt32.ofNat (← nat 4 field)

def u64 (field : String) : Read UInt64 := do
  return UInt64.ofNat (← nat 8 field)

end Reader

/-- Reads `count` items in a row onto the items read before, last first. -/
def readOnto {α : Type} (item : Read α) : (count : Nat) → (done : List α) → Read (List α)
  | 0, done => return done.reverse
  | count + 1, done => do
    let x ← item
    readOnto item count (x :: done)

/-- Reads `count` items in a row. -/
def readMany {α : Type} (item : Read α) (count : Nat) : Read (List α) :=
  readOnto item count []

end UtxoLedger.Wire
