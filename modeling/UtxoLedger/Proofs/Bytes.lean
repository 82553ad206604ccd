import UtxoLedger.Bytes
import Mathlib.Algebra.Group.Nat.Defs
import Mathlib.Data.Nat.Basic

/-!
Integers in bytes, read back: as many bytes as hold a number tell it apart from all other numbers
that they hold.
-/

namespace UtxoLedger

/-- Bytes with the least significant first give back what they hold. -/
theorem ofLittleEndian_littleEndian (width n : Nat) :
    ofLittleEndian (littleEndian width n) = n % 256 ^ width := by
  induction width generalizing n with
  | zero => simp [littleEndian, ofLittleEndian, Nat.mod_one]
  | succ width ih =>
    rw [littleEndian, ofLittleEndian, ih, Nat.pow_succ', Nat.mod_mul, UInt8.toNat_ofNat']

theorem ofLittleEndian_littleEndian_of_lt {width n : Nat} (h : n < 256 ^ width) :
    ofLittleEndian (littleEndian width n) = n := by
  rw [ofLittleEndian_littleEndian, Nat.mod_eq_of_lt h]

theorem littleEndian_injOn {width m n : Nat} (hm : m < 256 ^ width) (hn : n < 256 ^ width)
    (h : littleEndian width m = littleEndian width n) : m = n := by
  rw [← ofLittleEndian_littleEndian_of_lt hm, h, ofLittleEndian_littleEndian_of_lt hn]

theorem ofLittleEndian_lt (bytes : Bytes) : ofLittleEndian bytes < 256 ^ bytes.length := by
  induction bytes with
  | nil => simp [ofLittleEndian]
  | cons b bytes ih =>
    have := b.toNat_lt
    rw [ofLittleEndian, List.length_cons, Nat.pow_succ]
    omega

theorem littleEndian_uint8 (b : UInt8) : littleEndian 1 b.toNat = [b] := by
  rw [littleEndian, UInt8.ofNat_toNat]
  rfl

theorem littleEndian_ofLittleEndian (bytes : Bytes) :
    littleEndian bytes.length (ofLittleEndian bytes) = bytes := by
  induction bytes with
  | nil => rfl
  | cons b bytes ih =>
    have hb := b.toNat_lt
    have hlow : UInt8.ofNat (b.toNat + 256 * ofLittleEndian bytes) = b := by
      apply UInt8.toNat_inj.1
      rw [UInt8.toNat_ofNat']
      omega
    have hhigh : (b.toNat + 256 * ofLittleEndian bytes) / 256 = ofLittleEndian bytes := by omega
    rw [ofLittleEndian, List.length_cons, littleEndian, hlow, hhigh, ih]

/-! ### Words -/

section Words

variable {width : Nat}

theorem littleEndian_uint8_inj (hw : 1 ≤ width) {a b : UInt8}
    (h : littleEndian width a.toNat = littleEndian width b.toNat) : a = b := by
  have hle : 256 ^ 1 ≤ 256 ^ width := Nat.pow_le_pow_right (by decide) hw
  exact UInt8.toNat_inj.1 (littleEndian_injOn (Nat.lt_of_lt_of_le a.toNat_lt hle)
    (Nat.lt_of_lt_of_le b.toNat_lt hle) h)

theorem littleEndian_uint32_inj (hw : 4 ≤ width) {a b : UInt32}
    (h : littleEndian width a.toNat = littleEndian width b.toNat) : a = b := by
  have hle : 256 ^ 4 ≤ 256 ^ width := Nat.pow_le_pow_right (by decide) hw
  exact UInt32.toNat_inj.1 (littleEndian_injOn (Nat.lt_of_lt_of_le a.toNat_lt hle)
    (Nat.lt_of_lt_of_le b.toNat_lt hle) h)

theorem littleEndian_uint64_inj (hw : 8 ≤ width) {a b : UInt64}
    (h : littleEndian width a.toNat = littleEndian width b.toNat) : a = b := by
  have hle : 256 ^ 8 ≤ 256 ^ width := Nat.pow_le_pow_right (by decide) hw
  exact UInt64.toNat_inj.1 (littleEndian_injOn (Nat.lt_of_lt_of_le a.toNat_lt hle)
    (Nat.lt_of_lt_of_le b.toNat_lt hle) h)

end Words

end UtxoLedger
