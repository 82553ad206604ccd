import UtxoLedger.Crypto.Padding

/-!
RIPEMD-160: two lines of eighty rounds over the same sixteen words, in different orders, whose
results are added crosswise to the state.
-/

namespace UtxoLedger.Crypto.Ripemd160

/-- The five words carried from block to block. -/
structure State where
  a : UInt32
  b : UInt32
  c : UInt32
  d : UInt32
  e : UInt32

def State.initial : State :=
  ⟨0x67452301, 0xefcdab89, 0x98badcfe, 0x10325476, 0xc3d2e1f0⟩

/-- Which word each round of the left line takes. -/
def leftOrder : List Nat :=
  [0, 1, 2, 3, 4, 5, 6, 7, 8, 9, 10, 11, 12, 13, 14, 15,
    7, 4, 13, 1, 10, 6, 15, 3, 12, 0, 9, 5, 2, 14, 11, 8,
    3, 10, 14, 4, 9, 15, 8, 1, 2, 7, 0, 6, 13, 11, 5, 12,
    1, 9, 11, 10, 0, 8, 12, 4, 13, 3, 7, 15, 14, 5, 6, 2,
    4, 0, 5, 9, 7, 12, 2, 10, 14, 1, 3, 8, 11, 6, 15, 13]

/-- Which word each round of the right line takes. -/
def rightOrder : List Nat :=
  [5, 14, 7, 0, 9, 2, 11, 4, 13, 6, 15, 8, 1, 10, 3, 12,
    6, 11, 3, 7, 0, 13, 5, 10, 14, 15, 8, 12, 4, 9, 1, 2,
    15, 5, 1, 3, 7, 14, 6, 9, 11, 8, 12, 2, 10, 0, 4, 13,
    8, 6, 4, 1, 3, 11, 15, 0, 5, 12, 2, 13, 9, 7, 10, 14,
    12, 15, 10, 4, 1, 5, 8, 7, 6, 2, 13, 14, 0, 3, 9, 11]

/-- By how many bits each round of the left line rotates. -/
def leftRotation : List UInt32 :=
  [11, 14, 15, 12, 5, 8, 7, 9, 11, 13, 14, 15, 6, 7, 9, 8,
    7, 6, 8, 13, 11, 9, 7, 15, 7, 12, 15, 9, 11, 7, 13, 12,
    11, 13, 6, 7, 14, 9, 13, 15, 14, 8, 13, 6, 5, 12, 7, 5,
    11, 12, 14, 15, 14, 15, 9, 8, 9, 14, 5, 6, 8, 6, 5, 12,
    9, 15, 5, 11, 6, 8, 13, 12, 5, 12, 13, 14, 11, 8, 5, 6]

/-- By how many bits each round of the right line rotates. -/
def rightRotation : List UInt32 :=
  [8, 9, 9, 11, 13, 15, 15, 5, 7, 7, 8, 11, 14, 14, 12, 6,
    9, 13, 15, 7, 12, 8, 9, 11, 7, 7, 12, 7, 6, 15, 13, 11,
    9, 7, 15, 11, 8, 6, 6, 14, 12, 13, 5, 14, 13, 13, 7, 5,
    15, 5, 8, 11, 14, 14, 6, 14, 6, 9, 12, 9, 12, 5, 15, 8,
    8, 5, 12, 9, 12, 5, 14, 6, 8, 13, 6, 5, 15, 13, 11, 11]

/-- The constants of the five groups of sixteen rounds in the left line. -/
def leftConstants : List UInt32 :=
  [0x00000000, 0x5a827999, 0x6ed9eba1, 0x8f1bbcdc, 0xa953fd4e]

/-- The constants of the five groups of sixteen rounds in the right line. -/
def rightConstants : List UInt32 :=
  [0x50a28be6, 0x5c4dd124, 0x6d703ef3, 0x7a6d76e9, 0x00000000]

/-- Rotation towards the high end. -/
@[inline]
def rotateLeft (x n : UInt32) : UInt32 :=
  (x <<< n) ||| (x >>> (32 - n))

/-- The bitwise function of a group of sixteen rounds. -/
def mix (group : Nat) (x y z : UInt32) : UInt32 :=
  match group with
  | 0 => x ^^^ y ^^^ z
  | 1 => (x &&& y) ||| (~~~x &&& z)
  | 2 => (x ||| ~~~y) ^^^ z
  | 3 => (x &&& z) ||| (y &&& ~~~z)
  | _ => x ^^^ (y ||| ~~~z)

/-- One round of a line. -/
@[inline]
def State.round (s : State) (group : Nat) (word k rotation : UInt32) : State :=
  let t := rotateLeft (s.a + mix group s.b s.c s.d + word + k) rotation + s.e
  ⟨s.e, t, s.b, rotateLeft s.c 10, s.d⟩

/-- The left line on one block. -/
def leftLine (block : List UInt32) (s : State) : State :=
  ((List.range 80).zip (leftOrder.zip leftRotation)).foldl
    (fun s (i, word, rotation) =>
      s.round (i / 16) (block.getD word 0) (leftConstants.getD (i / 16) 0) rotation) s

/-- The right line on one block; its groups use the functions in reverse. -/
def rightLine (block : List UInt32) (s : State) : State :=
  ((List.range 80).zip (rightOrder.zip rightRotation)).foldl
    (fun s (i, word, rotation) =>
      s.round (4 - i / 16) (block.getD word 0) (rightConstants.getD (i / 16) 0) rotation) s

def State.absorb (s : State) (block : Array UInt32) : State :=
  let l := leftLine block.toList s
  let r := rightLine block.toList s
  ⟨s.b + l.c + r.d, s.c + l.d + r.e, s.d + l.e + r.a, s.e + l.a + r.b, s.a + l.b + r.c⟩

/-- The words of the state, low bytes first. -/
def State.toKeyHash (s : State) : KeyHash :=
  ⟨littleEndian 4 s.a.toNat ++ littleEndian 4 s.b.toNat ++ littleEndian 4 s.c.toNat ++
    littleEndian 4 s.d.toNat ++ littleEndian 4 s.e.toNat, by simp⟩

end Ripemd160

/-- The RIPEMD-160 digest of a byte string. -/
def ripemd160 (bytes : Bytes) : KeyHash :=
  let words := Padding.words Padding.lowFirst (Padding.pad (littleEndian 8) bytes)
  (Padding.foldBlocks Ripemd160.State.absorb Ripemd160.State.initial words).toKeyHash

end UtxoLedger.Crypto
