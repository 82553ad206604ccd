import UtxoLedger.Crypto.Keys

/-!
The distinguished encoding of a signature: a sequence of two integers, each with the fewest bytes
and each length in its shortest form. Reading is strict about the form and lenient about the range:
an integer that is negative or not below the group order counts as zero.
-/

namespace UtxoLedger.Der

/-! ### Writing -/

/-- The bytes of a positive number, most significant first, onto the bytes that follow. -/
def magnitudeOnto (n : Nat) (rest : Bytes) : Bytes :=
  if n = 0 then rest else magnitudeOnto (n / 256) (UInt8.ofNat n :: rest)

/-- The shortest two's complement form of a natural number. -/
def integerBytes (n : Nat) : Bytes :=
  match magnitudeOnto n [] with
  | [] => [0]
  | b :: rest => if b < 0x80 then b :: rest else 0 :: b :: rest

/-- An integer with its tag and length. -/
def integer (n : Nat) : Bytes :=
  let bytes := integerBytes n
  0x02 :: UInt8.ofNat bytes.length :: bytes

/-- The encoding of a signature. -/
def encode (signature : Signature) : Bytes :=
  let body := integer signature.r ++ integer signature.s
  0x30 :: UInt8.ofNat body.length :: body

/-! ### Reading -/

/-- Reads a length in its shortest form, which may not exceed what follows it. -/
def length? : Bytes → Option (Nat × Bytes)
  | [] => none
  | b :: rest =>
    if b < 0x80 then
      some (b.toNat, rest)
    else
      let width := b.toNat % 128
      let digits := rest.take width
      let value := ofBigEndian digits
      let rest := rest.drop width
      if b = 0xff ∨ width = 0 ∨ digits.length < width ∨ digits.head? = some 0 ∨ 8 < width
          ∨ rest.length < value ∨ value < 128 then
        none
      else
        some (value, rest)

/-- The scalar that the content of an integer stands for, with zero for one that is out of range. -/
def scalarOf (content : Bytes) : Nat :=
  let value := ofBigEndian content
  if content.head?.any (0x80 ≤ ·) ∨ groupOrder ≤ value then 0 else value

/-- Whether content of an integer begins with a byte that a shorter form would leave out. -/
def isPadded : Bytes → Bool
  | 0x00 :: b :: _ => b < 0x80
  | 0xff :: b :: _ => 0x80 ≤ b
  | _ => false

/-- Reads an integer with its tag and length. -/
def integer? : Bytes → Option (Nat × Bytes)
  | 0x02 :: rest =>
    match length? rest with
    | none => none
    | some (length, rest) =>
      let content := rest.take length
      if length = 0 ∨ rest.length < length ∨ isPadded content then none
      else some (scalarOf content, rest.drop length)
  | _ => none

/-- Reads a signature that takes up all of the bytes. -/
def decode? : Bytes → Option Signature
  | 0x30 :: rest =>
    match length? rest with
    | none => none
    | some (length, rest) =>
      if length = rest.length then
        match integer? rest with
        | none => none
        | some (r, rest) =>
          match integer? rest with
          | some (s, []) => some ⟨r, s⟩
          | _ => none
      else none
  | _ => none

end UtxoLedger.Der
