import UtxoLedger.Error

/-!
Identifiers and signatures as text: hexadecimal of exactly their width.
-/

namespace UtxoLedger

/-- Reads a byte string of fixed width from its hexadecimal text; `typeName` goes into messages. -/
def FixedBytes.parse (n : Nat) (typeName text : String) : Except DecodeError (FixedBytes n) :=
  match Hex.decode text with
  | .error cause => .error (.identifierText typeName cause)
  | .ok bytes =>
    match FixedBytes.ofList? bytes with
    | some bytes => .ok bytes
    | none => .error (.identifierLength typeName n bytes.length)

/-- A text behind the name of its type. -/
def labelled (typeName text : String) : String :=
  s!"{typeName}({text})"

namespace TxId

/-- Reads an identifier from its text. -/
def parse (text : String) : Except DecodeError TxId :=
  (FixedBytes.parse 32 typeName text).map mk

/-- The identifier with the name of its type. -/
def label (id : TxId) : String := labelled typeName id.text

end TxId

namespace BlockId

/-- Reads an identifier from its text. -/
def parse (text : String) : Except DecodeError BlockId :=
  (FixedBytes.parse 32 typeName text).map mk

/-- The identifier with the name of its type. -/
def label (id : BlockId) : String := labelled typeName id.text

end BlockId

namespace BlockSignature

/-- Reads a signature from its text. -/
def parse (text : String) : Except DecodeError BlockSignature :=
  (FixedBytes.parse 64 typeName text).map mk

/-- The signature with the name of its type. -/
def label (signature : BlockSignature) : String := labelled typeName signature.text

end BlockSignature

/-- The text of an outpoint, marked as a key. -/
def Outpoint.keyLabel (o : Outpoint) : String :=
  labelled "OutpointKey" o.text

end UtxoLedger
