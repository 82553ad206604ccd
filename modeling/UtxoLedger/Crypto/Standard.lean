import UtxoLedger.Crypto.Suite
import UtxoLedger.Crypto.Ecdsa
import UtxoLedger.Crypto.Der
import UtxoLedger.Crypto.Ripemd160

/-!
The primitives that the ledger runs with: SHA-256 twice, RIPEMD-160 over SHA-256, and signatures on
the curve `y² = x³ + 7`.
-/

namespace UtxoLedger.Crypto

instance standardSuite : CryptoSuite where
  hash256 := doubleSha256
  hash160 bytes := ripemd160 (sha256 bytes).toList
  publicKey := Ecdsa.publicKey
  publicKeyBytes := Curve.publicKeyBytes
  publicKey? := Curve.publicKey?
  sign := Ecdsa.sign
  verify := Ecdsa.verify
  derBytes := Der.encode
  der? := Der.decode?
  compactBytes := Ecdsa.compactBytes
  compact? := Ecdsa.compact?

end UtxoLedger.Crypto
