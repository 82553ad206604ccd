import UtxoLedger.Crypto.Padding

/-!
SHA-256: the message is padded to blocks of sixteen words, each block is expanded to sixty-four
words, and each of these takes the state one round further.
-/

namespace UtxoLedger.Crypto.Sha256

/-- The eight words carried from block to block. -/
structure State where
  a : UInt32
  b : UInt32
  c : UInt32
  d : UInt32
  e : UInt32
  f : UInt32
  g : UInt32
  h : UInt32

def State.initial : State :=
  ⟨0x6a09e667, 0xbb67ae85, 0x3c6ef372, 0xa54ff53a, 0x510e527f, 0x9b05688c, 0x1f83d9ab, 0x5be0cd19⟩

/-- One constant a round. -/
def roundConstants : List UInt32 :=
  [0x428a2f98, 0x71374491, 0xb5c0fbcf, 0xe9b5dba5, 0x3956c25b, 0x59f111f1,
    0x923f82a4, 0xab1c5ed5, 0xd807aa98, 0x12835b01, 0x243185be, 0x550c7dc3,
    0x72be5d74, 0x80deb1fe, 0x9bdc06a7, 0xc19bf174, 0xe49b69c1, 0xefbe4786,
    0x0fc19dc6, 0x240ca1cc, 0x2de92c6f, 0x4a7484aa, 0x5cb0a9dc, 0x76f988da,
    0x983e5152, 0xa831c66d, 0xb00327c8, 0xbf597fc7, 0xc6e00bf3, 0xd5a79147,
    0x06ca6351, 0x14292967, 0x27b70a85, 0x2e1b2138, 0x4d2c6dfc, 0x53380d13,
    0x650a7354, 0x766a0abb, 0x81c2c92e, 0x92722c85, 0xa2bfe8a1, 0xa81a664b,
    0xc24b8b70, 0xc76c51a3, 0xd192e819, 0xd6990624, 0xf40e3585, 0x106aa070,
    0x19a4c116, 0x1e376c08, 0x2748774c, 0x34b0bcb5, 0x391c0cb3, 0x4ed8aa4a,
    0x5b9cca4f, 0x682e6ff3, 0x748f82ee, 0x78a5636f, 0x84c87814, 0x8cc70208,
    0x90befffa, 0xa4506ceb, 0xbef9a3f7, 0xc67178f2]

/-- Rotation towards the low end. -/
@[inline]
def rotateRight (x n : UInt32) : UInt32 :=
  (x >>> n) ||| (x <<< (32 - n))

/-- The word that follows others, which are given last first. -/
@[inline]
def expandedWord (w : List UInt32) : UInt32 :=
  let x := w.getD 14 0
  let y := w.getD 1 0
  let s := rotateRight x 7 ^^^ rotateRight x 18 ^^^ (x >>> 3)
  let t := rotateRight y 17 ^^^ rotateRight y 19 ^^^ (y >>> 10)
  w.getD 15 0 + s + w.getD 6 0 + t

/-- Words with the next `n` that follow them, all last first. -/
def expandOnto (w : List UInt32) : (n : Nat) → List UInt32
  | 0 => w
  | n + 1 => expandOnto (expandedWord w :: w) n

/-- The sixty-four words of a block of sixteen. -/
def expand (block : List UInt32) : List UInt32 :=
  (expandOnto block.reverse 48).reverse

/-- One round, with the round's constant and word. -/
@[inline]
def State.round (s : State) (k w : UInt32) : State :=
  let x := rotateRight s.e 6 ^^^ rotateRight s.e 11 ^^^ rotateRight s.e 25
  let choice := (s.e &&& s.f) ^^^ (~~~s.e &&& s.g)
  let t := s.h + x + choice + k + w
  let y := rotateRight s.a 2 ^^^ rotateRight s.a 13 ^^^ rotateRight s.a 22
  let majority := (s.a &&& s.b) ^^^ (s.a &&& s.c) ^^^ (s.b &&& s.c)
  ⟨t + (y + majority), s.a, s.b, s.c, s.d + t, s.e, s.f, s.g⟩

def State.add (s t : State) : State :=
  ⟨s.a + t.a, s.b + t.b, s.c + t.c, s.d + t.d, s.e + t.e, s.f + t.f, s.g + t.g, s.h + t.h⟩

def State.absorb (s : State) (block : Array UInt32) : State :=
  let rounds := roundConstants.zip (expand block.toList)
  s.add (rounds.foldl (fun t (k, w) => t.round k w) s)

/-- The words of the state, high bytes first. -/
def State.toDigest (s : State) : Digest :=
  ⟨bigEndian 4 s.a.toNat ++ bigEndian 4 s.b.toNat ++ bigEndian 4 s.c.toNat ++
    bigEndian 4 s.d.toNat ++ bigEndian 4 s.e.toNat ++ bigEndian 4 s.f.toNat ++
    bigEndian 4 s.g.toNat ++ bigEndian 4 s.h.toNat, by simp⟩

end Sha256

/-- The SHA-256 digest of a byte string. -/
def sha256 (bytes : Bytes) : Digest :=
  let words := Padding.words Padding.highFirst (Padding.pad (bigEndian 8) bytes)
  (Padding.foldBlocks Sha256.State.absorb Sha256.State.initial words).toDigest

def doubleSha256 (bytes : Bytes) : Digest :=
  sha256 (sha256 bytes).toList

end UtxoLedger.Crypto
