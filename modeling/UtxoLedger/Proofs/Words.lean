import UtxoLedger.Words
import Mathlib.Algebra.Order.Ring.Nat
import Mathlib.Data.Nat.Bitwise

/-!
What the bits of bytes and words come to as numbers: masks, bits that are put beside others, and checked
operations, which give the number that they would give without a bound or nothing.
-/

namespace UtxoLedger

/-! ### Masks -/

theorem toNat_low_bits (b : UInt8) : (b &&& 0x7f).toNat = b.toNat % 128 := by
  rw [UInt8.toNat_and]
  exact Nat.and_two_pow_sub_one_eq_mod b.toNat 7

theorem low_bits_eq_zero_iff (b : UInt8) : b &&& 0x7f = 0 ↔ b.toNat % 128 = 0 := by
  rw [← UInt8.toNat_inj, toNat_low_bits]
  rfl

theorem top_bit_eq_zero_iff (b : UInt8) : b &&& 0x80 = 0 ↔ b.toNat < 128 := by
  have hb := b.toNat_lt
  have htop : (b &&& 0x80).toNat = (b.toNat.testBit 7).toNat * 2 ^ 7 := by
    rw [UInt8.toNat_and]
    exact Nat.and_two_pow b.toNat 7
  rw [← UInt8.toNat_inj, htop]
  rcases Nat.lt_or_ge b.toNat 128 with h | h
  · have hbit : b.toNat.testBit 7 = false := Nat.testBit_lt_two_pow h
    rw [hbit]
    exact iff_of_true rfl h
  · have hbit : b.toNat.testBit 7 = true := by
      rw [Nat.testBit_eq_decide_div_mod_eq, decide_eq_true_iff]
      omega
    rw [hbit]
    exact iff_of_false (by decide) (Nat.not_lt.2 h)

theorem toNat_or_top_bit {b : UInt8} (h : b.toNat < 128) : (b ||| 0x80).toNat = b.toNat + 128 := by
  rw [UInt8.toNat_or, Nat.or_comm]
  exact (Nat.two_pow_add_eq_or_of_lt (i := 7) h 1).symm.trans (Nat.add_comm ..)

namespace Words

/-! ### Bits beside others -/

/-- The low bits of a word. -/
theorem toNat_and_mask {w mask : UInt64} {k : Nat} (h : mask.toNat = 2 ^ k - 1) :
    (w &&& mask).toNat = w.toNat % 2 ^ k := by
  rw [UInt64.toNat_and, h, Nat.and_two_pow_sub_one_eq_mod]

/-- Bits that are put above those of a word are added to it. -/
theorem toNat_or_of_lt {low high : UInt64} {n bits : Nat} (hlow : low.toNat < 2 ^ bits)
    (hhigh : high.toNat = n * 2 ^ bits) : (low ||| high).toNat = low.toNat + n * 2 ^ bits := by
  rw [UInt64.toNat_or, hhigh, Nat.or_comm, Nat.mul_comm, ← Nat.two_pow_add_eq_or_of_lt hlow,
    Nat.add_comm]

/-- Whether a bit above others is set. -/
theorem and_bit_eq_zero_iff {w bit : UInt64} {n k : Nat} {isSet : Bool} (hbit : bit.toNat = 2 ^ k)
    (hlow : n < 2 ^ k) (hw : w.toNat = n + if isSet then 2 ^ k else 0) :
    w &&& bit = 0 ↔ isSet = false := by
  have hnone : n.testBit k = false := Nat.testBit_lt_two_pow hlow
  have htest : w.toNat.testBit k = isSet := by
    cases isSet with
    | false => exact (congrArg (Nat.testBit · k) hw).trans hnone
    | true =>
      rw [hw, if_pos rfl, Nat.add_comm, Nat.testBit_two_pow_add_eq, hnone]
      rfl
  rw [← UInt64.toNat_inj, UInt64.toNat_and, hbit, Nat.and_two_pow, htest]
  cases isSet <;> simp

/-- A bit above others is taken out of a word. -/
theorem toNat_and_not_of_bit {w bit : UInt64} {n k : Nat} (hbit : bit.toNat = 2 ^ k) (hlow : n < 2 ^ k)
    (hw : w.toNat = n + 2 ^ k) : (w &&& ~~~bit).toNat = n := by
  have hroom : 2 ^ k < 2 ^ 64 := hbit ▸ bit.toNat_lt
  have hothers : UInt64.size - 1 - 2 ^ k = 2 ^ 64 - (2 ^ k + 1) := by
    rw [Nat.sub_sub, Nat.add_comm]
    rfl
  have hsum : n + 2 ^ k = 2 ^ k ||| n := by
    have hor := Nat.two_pow_add_eq_or_of_lt hlow 1
    rwa [Nat.mul_one, Nat.add_comm] at hor
  rw [UInt64.toNat_and, UInt64.toNat_not, hbit, hw, hothers, hsum]
  -- bit by bit: the one that is taken out, those of the word beside it, and those above the word
  refine Nat.eq_of_testBit_eq fun i => ?_
  rw [Nat.testBit_and, Nat.testBit_or, Nat.testBit_two_pow_sub_succ hroom, Nat.testBit_two_pow]
  by_cases hki : k = i
  · subst hki
    simp [Nat.testBit_lt_two_pow hlow]
  · by_cases hi : i < 64
    · simp [hki, hi]
    · have hpow : 2 ^ 64 ≤ 2 ^ i := Nat.pow_le_pow_right (by decide) (Nat.le_of_not_lt hi)
      simp [hki, hi, Nat.testBit_lt_two_pow (Nat.lt_trans hlow (Nat.lt_of_lt_of_le hroom hpow))]

/-! ### Checked operations -/

theorem toNat_shiftLeft_of_lt {w : UInt64} {bits : Nat} (hbits : bits < 64)
    (hroom : w.toNat * 2 ^ bits < UInt64.size) :
    (w <<< UInt64.ofNat bits).toNat = w.toNat * 2 ^ bits := by
  have hto : (UInt64.ofNat bits).toNat = bits :=
    UInt64.toNat_ofNat_of_lt' (Nat.lt_trans hbits (by decide))
  rw [UInt64.toNat_shiftLeft, hto, Nat.mod_eq_of_lt hbits, Nat.shiftLeft_eq]
  exact Nat.mod_eq_of_lt hroom

/-- A word that has room to be moved up is moved up. -/
theorem exists_moveUp?_eq_some (w : UInt64) {bits : Nat} (hbits : bits < 64)
    (hroom : w.toNat * 2 ^ bits < UInt64.size) :
    ∃ result, moveUp? w bits = some result ∧ result.toNat = w.toNat * 2 ^ bits :=
  ⟨_, if_pos ⟨hbits, hroom⟩, toNat_shiftLeft_of_lt hbits hroom⟩

/-- Words whose sum is small enough have it. -/
theorem exists_add?_eq_some {x y : UInt64} (h : x.toNat + y.toNat < UInt64.size) :
    ∃ z, add? x y = some z ∧ z.toNat = x.toNat + y.toNat :=
  ⟨_, if_pos h, (UInt64.toNat_add x y).trans (Nat.mod_eq_of_lt h)⟩

/-- From a word another one can be taken that is not greater. -/
theorem exists_sub?_eq_some {x y : UInt64} (h : y.toNat ≤ x.toNat) :
    ∃ z, sub? x y = some z ∧ z.toNat = x.toNat - y.toNat :=
  ⟨_, if_pos (UInt64.le_iff_toNat_le.2 h), UInt64.toNat_sub_of_le x y (UInt64.le_iff_toNat_le.2 h)⟩

theorem sub?_eq_none_iff {x y : UInt64} : sub? x y = none ↔ x.toNat < y.toNat := by
  simp [sub?, UInt64.lt_iff_toNat_lt]

theorem toInt_toInt64_of_lt {w : UInt64} (h : w.toNat < 2 ^ 63) : w.toInt64.toInt = w.toNat :=
  BitVec.toInt_eq_toNat_of_lt (x := w.toBitVec) (by change 2 * w.toNat < 2 ^ 64; omega)

/-- What is not negative as a number has an opposite. -/
theorem exists_negate?_eq_some {x : Int64} (h : 0 ≤ x.toInt) :
    ∃ y, negate? x = some y ∧ y.toInt = -x.toInt := by
  have hne : x ≠ Int64.minValue := by
    rintro rfl
    exact absurd h (by decide)
  refine ⟨-x, if_neg hne, ?_⟩
  have hlt := x.toInt_lt
  rw [Int64.toInt_neg, Int.bmod_eq_of_le (by omega) (by omega)]

/-- The magnitude of a signed word is a word, that of the least one too. -/
theorem toNat_toUInt64_abs (x : Int64) : x.abs.toUInt64.toNat = x.toInt.natAbs := by
  have hlt := x.toBitVec.isLt
  change x.toBitVec.abs.toNat = x.toBitVec.toInt.natAbs
  rw [BitVec.toNat_abs, BitVec.toInt_eq_msb_cond]
  split <;> omega

end Words

end UtxoLedger
