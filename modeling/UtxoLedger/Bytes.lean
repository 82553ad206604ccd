/-!
Byte strings, byte strings of a fixed width, and integers written with the least or the most
significant byte first.
-/

namespace UtxoLedger

/-- A byte string. -/
abbrev Bytes := List UInt8

/-! ### Fixed width -/

/-- A byte string of exactly `n` bytes. -/
structure FixedBytes (n : Nat) where
  toList : Bytes
  length_toList : toList.length = n
  deriving DecidableEq

namespace FixedBytes

variable {n : Nat}

attribute [simp] length_toList

@[ext]
theorem ext {a b : FixedBytes n} (h : a.toList = b.toList) : a = b := by
  cases a
  cases b
  simpa using h

/-- The bytes, if there are exactly `n` of them. -/
def ofList? (bytes : Bytes) : Option (FixedBytes n) :=
  if h : bytes.length = n then some ⟨bytes, h⟩ else none

/-- All bytes zero. -/
def zero : FixedBytes n :=
  ⟨List.replicate n 0, by simp⟩

instance : Inhabited (FixedBytes n) :=
  ⟨zero⟩

/-- Whether every byte is zero. -/
def isZero (bytes : FixedBytes n) : Bool :=
  bytes.toList.all (· == 0)

end FixedBytes

/-- A 256-bit digest. -/
abbrev Digest := FixedBytes 32

/-- A 160-bit digest of a public key. -/
abbrev KeyHash := FixedBytes 20

/-! ### Integers -/

/-- The `width` low bytes of `value`, least significant first. -/
def littleEndian : (width value : Nat) → Bytes
  | 0, _ => []
  | width + 1, value => UInt8.ofNat value :: littleEndian width (value / 256)

/-- The number whose bytes, least significant first, are given. -/
def ofLittleEndian : Bytes → Nat
  | [] => 0
  | b :: rest => b.toNat + 256 * ofLittleEndian rest

/-- The `width` low bytes of `value`, most significant first. -/
def bigEndian (width value : Nat) : Bytes :=
  (littleEndian width value).reverse

/-- The number whose bytes, most significant first, are given. -/
def ofBigEndian (bytes : Bytes) : Nat :=
  bytes.foldl (fun value b => value * 256 + b.toNat) 0

@[simp]
theorem length_littleEndian (width value : Nat) : (littleEndian width value).length = width := by
  induction width generalizing value with
  | zero => rfl
  | succ width ih => simp [littleEndian, ih]

@[simp]
theorem length_bigEndian (width value : Nat) : (bigEndian width value).length = width := by
  simp [bigEndian]

end UtxoLedger
