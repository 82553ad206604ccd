import UtxoLedger.Wire.Varint

/-!
Types with a byte encoding, and the four ways to use it: into a buffer or a string of its own, from
the front of a string or from all of it.
-/

namespace UtxoLedger

/-- A type with a byte encoding. -/
class Codec (α : Type) where
  /-- How many bytes a value takes. -/
  size : α → Nat
  /-- Writes a value. -/
  encode : α → Wire.Write
  /-- Reads a value. -/
  decode : Wire.Read α

namespace Codec

variable {α : Type} [Codec α]

/-- Writes a value to the front of a buffer; gives the number of bytes written and the buffer. -/
def marshalTo (x : α) (buffer : Bytes) : Except EncodeError (Nat × Bytes) :=
  match (encode x).apply (.start buffer.length) with
  | (.ok (), w) => .ok (w.position, w.onto buffer)
  | (.error e, _) => .error e

/-- The bytes of a value, exactly as many as its size says. -/
def marshal (x : α) : Except EncodeError Bytes :=
  match (encode x).apply (.start (size x)) with
  | (.ok (), w) =>
    if w.position = size x then .ok w.written.toList
    else .error (.sizeMismatch w.position (size x))
  | (.error e, _) => .error e

/-- Reads a value from the front of a byte string; gives it with the number of bytes it took. -/
def unmarshalFrom (bytes : Bytes) : Except DecodeError (α × Nat) :=
  match (decode : Wire.Read α).apply (.start bytes) with
  | (.ok x, r) => .ok (x, r.position)
  | (.error e, _) => .error e

/-- Reads a value that takes up all of a byte string. -/
def unmarshal (bytes : Bytes) : Except DecodeError α :=
  match (decode : Wire.Read α).apply (.start bytes) with
  | (.ok x, r) => if r.rest.isEmpty then .ok x else .error (.trailing r.rest.length)
  | (.error e, _) => .error e

/-- How many bytes a count and the items of a list take. -/
def listSize (xs : List α) : Nat :=
  Wire.Varint.size xs.length + sumOf size xs

/-- Writes a count of at most `limit` and the items of a list. -/
def encodeList (xs : List α) (limit : Nat) (field : String) : Wire.Write := do
  Wire.Writer.count xs.length limit field
  xs.forM encode

/-- Reads a count of at most `limit` and as many items. -/
def decodeList (limit : Nat) (field : String) : Wire.Read (List α) := do
  let n ← Wire.Reader.count limit field
  Wire.readMany decode n

end Codec

end UtxoLedger
