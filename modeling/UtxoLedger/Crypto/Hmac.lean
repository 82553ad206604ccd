import UtxoLedger.Crypto.Sha256

/-!
HMAC over SHA-256, and the sequence of candidate values that it generates from a seed. The sequence
is the deterministic choice of a signing nonce.
-/

namespace UtxoLedger.Crypto

/-- The HMAC of a message under a key of at most 64 bytes. -/
def hmacSha256 (key message : Bytes) : Digest :=
  let key := key ++ List.replicate (64 - key.length) 0
  let inner := sha256 (key.map (· ^^^ 0x36) ++ message)
  sha256 (key.map (· ^^^ 0x5c) ++ inner.toList)

/-- The key and the value of the generator. -/
structure Drbg where
  key : Digest
  value : Digest

namespace Drbg

/-- Mixes `tag` and `seed` into the key, then renews the value. -/
def mix (g : Drbg) (tag : UInt8) (seed : Bytes) : Drbg :=
  let key := hmacSha256 g.key.toList (g.value.toList ++ tag :: seed)
  ⟨key, hmacSha256 key.toList g.value.toList⟩

/-- The generator before its first candidate. -/
def ofSeed (seed : Bytes) : Drbg :=
  let start : Drbg := ⟨FixedBytes.zero, ⟨List.replicate 32 1, by simp⟩⟩
  (start.mix 0 seed).mix 1 seed

/-- Renews the value; the new value is the next candidate. -/
def next (g : Drbg) : Drbg :=
  { g with value := hmacSha256 g.key.toList g.value.toList }

/-- Prepares the generator for another candidate after one that was refused. -/
def retry (g : Drbg) : Drbg :=
  let key := hmacSha256 g.key.toList (g.value.toList ++ [0])
  ⟨key, hmacSha256 key.toList g.value.toList⟩

end Drbg

end UtxoLedger.Crypto
