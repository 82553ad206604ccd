import UtxoLedger.Crypto.Keys

/-!
The primitives that the ledger rests on. Everything above this module is written for any choice of
them, so its laws need only what they state of the primitives.
-/

namespace UtxoLedger

/-- Hash functions, a signature scheme, and the byte forms of its keys and signatures. -/
class CryptoSuite where
  /-- The digest behind identifiers, Merkle nodes and signing digests. -/
  hash256 : Bytes → Digest
  /-- The digest by which an output names the key that may spend it. -/
  hash160 : Bytes → KeyHash
  publicKey : SecretKey → PublicKey
  /-- The byte form in which a public key is hashed and carried in a witness. -/
  publicKeyBytes : PublicKey → Bytes
  /-- Reads any accepted byte form of a public key. -/
  publicKey? : Bytes → Option PublicKey
  sign : SecretKey → Digest → Signature
  /-- Whether a signature of a digest is valid for a public key. -/
  verify : PublicKey → Digest → Signature → Bool
  /-- The form of a signature in a witness. -/
  derBytes : Signature → Bytes
  /-- Reads the form of a signature in a witness. -/
  der? : Bytes → Option Signature
  /-- The form of a signature in a block header. -/
  compactBytes : Signature → FixedBytes 64
  /-- Reads the form of a signature in a block header. -/
  compact? : FixedBytes 64 → Option Signature

export CryptoSuite (hash256 hash160)

/-- The hash that stands for a public key in outputs and addresses. -/
def PublicKey.keyHash [CryptoSuite] (key : PublicKey) : KeyHash :=
  hash160 (CryptoSuite.publicKeyBytes key)

def SecretKey.publicKey [CryptoSuite] (key : SecretKey) : PublicKey :=
  CryptoSuite.publicKey key

end UtxoLedger
