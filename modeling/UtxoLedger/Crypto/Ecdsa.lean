import UtxoLedger.Crypto.Curve
import UtxoLedger.Crypto.Hmac

/-!
Signatures on the curve. The nonce is drawn from a generator seeded with the key and the digest, so
signing is a function; of the two scalars that would verify, signing gives the low one and
verification takes no other.
-/

namespace UtxoLedger.Ecdsa

/-- Whether a scalar is above half of the group order. -/
def isHigh (s : Nat) : Bool :=
  groupOrder / 2 < s

/-- The scalar that a digest stands for. -/
def digestScalar (digest : Digest) : Nat :=
  ofBigEndian digest.toList % groupOrder

/-- Whether a signature of a digest is valid for a public key. -/
def verify (key : PublicKey) (digest : Digest) (signature : Signature) : Bool :=
  let r := signature.r
  let s := signature.s
  if r = 0 ∨ groupOrder ≤ r ∨ s = 0 ∨ isHigh s then false else
    let inv := Curve.inverseMod groupOrder s
    let a := digestScalar digest * inv % groupOrder
    let b := r * inv % groupOrder
    match (Curve.Point.combine a .generator b (.ofPublicKey key)).toAffine? with
    | none => false
    | some point => point.x % groupOrder == r

/-- The signature made with a given nonce, unless one of its scalars is zero. -/
def signWith? (key : SecretKey) (digest : Digest) (nonce : Nat) : Option Signature :=
  if nonce = 0 ∨ groupOrder ≤ nonce then none else
    match (Curve.Point.scale nonce .generator).toAffine? with
    | none => none
    | some point =>
      let r := point.x % groupOrder
      let s := Curve.inverseMod groupOrder nonce * (digestScalar digest + r * key.scalar)
        % groupOrder
      if r = 0 ∨ s = 0 then none else some ⟨r, if isHigh s then groupOrder - s else s⟩

/-- The signature of the first usable nonce among the next `attempts` candidates. -/
def signFrom (key : SecretKey) (digest : Digest) (g : Crypto.Drbg) : (attempts : Nat) → Signature
  | 0 => ⟨0, 0⟩
  | attempts + 1 =>
    let g := g.next
    match signWith? key digest (ofBigEndian g.value.toList) with
    | some signature => signature
    | none => signFrom key digest g.retry attempts

/-- How many nonces are tried. A nonce is refused about once in `2 ^ 128` times. -/
def nonceAttempts : Nat := 256

/-- Signs a digest. -/
def sign (key : SecretKey) (digest : Digest) : Signature :=
  let seed := key.toBytes ++ bigEndian 32 (digestScalar digest)
  signFrom key digest (Crypto.Drbg.ofSeed seed) nonceAttempts

/-- The public key of a secret key. -/
def publicKey (key : SecretKey) : PublicKey :=
  ((Curve.Point.scale key.scalar .generator).toAffine?).getD ⟨0, 0⟩

/-! ### Compact form -/

/-- Both scalars in 32 bytes each, most significant first. -/
def compactBytes (signature : Signature) : FixedBytes 64 :=
  ⟨bigEndian 32 signature.r ++ bigEndian 32 signature.s, by simp⟩

/-- Reads two scalars, each below the group order. -/
def compact? (bytes : FixedBytes 64) : Option Signature :=
  let r := ofBigEndian (bytes.toList.take 32)
  let s := ofBigEndian (bytes.toList.drop 32)
  if r < groupOrder ∧ s < groupOrder then some ⟨r, s⟩ else none

end UtxoLedger.Ecdsa
