import UtxoLedger.Bytes

/-!
Keys and signatures over the group of order `groupOrder`, as plain numbers.
-/

namespace UtxoLedger

/-- The number of points of the signature group. -/
def groupOrder : Nat :=
  0xfffffffffffffffffffffffffffffffebaaedce6af48a03bbfd25e8cd0364141

/-- A secret scalar between 1 and the group order. -/
structure SecretKey where
  scalar : Nat
  pos : 0 < scalar
  lt_order : scalar < groupOrder
  deriving DecidableEq

namespace SecretKey

/-- The key with the given scalar, if it is in range. -/
def ofNat? (n : Nat) : Option SecretKey :=
  if h : 0 < n ∧ n < groupOrder then some ⟨n, h.1, h.2⟩ else none

/-- Reads a key from exactly 32 bytes, most significant first. -/
def ofBytes? (bytes : Bytes) : Option SecretKey :=
  if bytes.length = 32 then ofNat? (ofBigEndian bytes) else none

/-- The 32 bytes of a key, most significant first. -/
def toBytes (key : SecretKey) : Bytes :=
  bigEndian 32 key.scalar

end SecretKey

/-- The coordinates of a point other than infinity. -/
structure PublicKey where
  x : Nat
  y : Nat
  deriving DecidableEq

/-- The two scalars of a signature. -/
structure Signature where
  r : Nat
  s : Nat
  deriving DecidableEq

end UtxoLedger
