import UtxoLedger.Crypto.Keys

/-!
The curve `y² = x³ + 7` over the integers modulo `fieldPrime`. Points are triples `(x, y, z)` that
stand for `(x / z², y / z³)`; a zero `z` is the point at infinity, so that sums need no division.
-/

namespace UtxoLedger.Curve

/-- The prime that coordinates are reduced by, `2 ^ 256 - 2 ^ 32 - 977`. -/
def fieldPrime : Nat :=
  0xfffffffffffffffffffffffffffffffffffffffffffffffffffffffefffffc2f

/-! ### Field -/

/-- Product of reduced coordinates. -/
@[inline]
def mul (a b : Nat) : Nat :=
  a * b % fieldPrime

/-- Difference of reduced coordinates. -/
@[inline]
def sub (a b : Nat) : Nat :=
  if b ≤ a then a - b else a + fieldPrime - b

/-- Square-and-multiply over the lowest `bits` bits of the exponent, highest bit first. -/
def powBits (modulus base exponent : Nat) : (bits result : Nat) → Nat
  | 0, result => result
  | bits + 1, result =>
    let square := result * result % modulus
    let result := if exponent.testBit bits then square * base % modulus else square
    powBits modulus base exponent bits result

/-- `base ^ exponent` modulo `modulus`, for exponents below `2 ^ 256`. -/
def powMod (modulus base exponent : Nat) : Nat :=
  powBits modulus base exponent 256 1

/-- The inverse modulo a prime, by the exponent two below it. -/
def inverseMod (prime a : Nat) : Nat :=
  powMod prime a (prime - 2)

/-- A square root of a coordinate, if it has one: `fieldPrime` is 3 modulo 4. -/
def sqrt? (a : Nat) : Option Nat :=
  let root := powMod fieldPrime a ((fieldPrime + 1) / 4)
  if mul root root = a then some root else none

/-! ### Points -/

structure Point where
  x : Nat
  y : Nat
  z : Nat

namespace Point

def infinity : Point :=
  ⟨1, 1, 0⟩

def generator : Point :=
  ⟨0x79be667ef9dcbbac55a06295ce870b07029bfcdb2dce28d959f2815b16f81798,
    0x483ada7726a3c4655da4fbfc0e1108a8fd17b448a68554199c47d08ffb10d4b8, 1⟩

def double (p : Point) : Point :=
  if p.z = 0 then p else
    let yy := mul p.y p.y
    let s := mul 4 (mul p.x yy)
    let m := mul 3 (mul p.x p.x)
    let x := sub (mul m m) (mul 2 s)
    ⟨x, sub (mul m (sub s x)) (mul 8 (mul yy yy)), mul 2 (mul p.y p.z)⟩

def add (p q : Point) : Point :=
  if p.z = 0 then q
  else if q.z = 0 then p
  else
    let zp := mul p.z p.z
    let zq := mul q.z q.z
    let u := mul p.x zq
    let v := mul q.x zp
    let s := mul p.y (mul zq q.z)
    let t := mul q.y (mul zp p.z)
    if u = v then
      if s = t then p.double else infinity
    else
      let h := sub v u
      let r := sub t s
      let hh := mul h h
      let hhh := mul hh h
      let w := mul u hh
      let x := sub (sub (mul r r) hhh) (mul 2 w)
      ⟨x, sub (mul r (sub w x)) (mul s hhh), mul h (mul p.z q.z)⟩

/-- Double-and-add for two scalars at once, over their lowest `bits` bits, highest bit first;
`both` is the sum of the two points. -/
def combineBits (a b : Nat) (p q both : Point) : (bits : Nat) → (sum : Point) → Point
  | 0, sum => sum
  | bits + 1, sum =>
    let sum := sum.double
    let sum :=
      match a.testBit bits, b.testBit bits with
      | true, true => sum.add both
      | true, false => sum.add p
      | false, true => sum.add q
      | false, false => sum
    combineBits a b p q both bits sum

/-- `a` times `p` plus `b` times `q`, for scalars below `2 ^ 256`. -/
def combine (a : Nat) (p : Point) (b : Nat) (q : Point) : Point :=
  combineBits a b p q (p.add q) 256 infinity

def scale (a : Nat) (p : Point) : Point :=
  combine a p 0 infinity

/-- The plain coordinates of a point other than infinity. -/
def toAffine? (p : Point) : Option PublicKey :=
  if p.z = 0 then none else
    let inv := inverseMod fieldPrime p.z
    let inv2 := mul inv inv
    some ⟨mul p.x inv2, mul p.y (mul inv2 inv)⟩

def ofPublicKey (key : PublicKey) : Point :=
  ⟨key.x, key.y, 1⟩

end Point

/-! ### Public keys as bytes -/

/-- The right-hand side of the curve's equation. -/
def cubic (x : Nat) : Nat :=
  (mul (mul x x) x + 7) % fieldPrime

/-- The point with a given first coordinate and parity of the second, if there is one. -/
def liftX? (x : Nat) (odd : Bool) : Option PublicKey :=
  if x < fieldPrime then
    (sqrt? (cubic x)).map fun y =>
      ⟨x, if (y % 2 == 1) == odd then y else fieldPrime - y⟩
  else none

/-- The point with two given coordinates, if they are reduced and on the curve. -/
def ofCoordinates? (x y : Nat) : Option PublicKey :=
  if x < fieldPrime ∧ y < fieldPrime ∧ mul y y = cubic x then some ⟨x, y⟩ else none

/-- Reads a public key: 33 bytes with tag 2 or 3, 65 bytes with tag 4, or 65 bytes with tag 6 or 7
where the tag's last bit is the parity of the second coordinate. -/
def publicKey? : Bytes → Option PublicKey
  | [] => none
  | tag :: rest =>
    if rest.length = 32 then
      if tag = 2 ∨ tag = 3 then liftX? (ofBigEndian rest) (tag == 3) else none
    else if rest.length = 64 then
      let x := ofBigEndian (rest.take 32)
      let y := ofBigEndian (rest.drop 32)
      if tag = 4 ∨ (tag = 6 ∧ y % 2 = 0) ∨ (tag = 7 ∧ y % 2 = 1) then ofCoordinates? x y else none
    else none

def publicKeyBytes (key : PublicKey) : Bytes :=
  (if key.y % 2 = 1 then 3 else 2) :: bigEndian 32 key.x

end UtxoLedger.Curve
