/-!
Words with checked arithmetic. Where a bit would be lost or a result has no word there is none, and
whatever asked for it breaks off.
-/

namespace UtxoLedger.Words

/-- A word with its bits moved up, unless one of them would leave it. -/
def moveUp? (w : UInt64) (bits : Nat) : Option UInt64 :=
  if bits < 64 ∧ w.toNat * Nat.pow 2 bits < UInt64.size then some (w <<< UInt64.ofNat bits) else none

/-- The sum of two words. -/
def add? (x y : UInt64) : Option UInt64 :=
  if x.toNat + y.toNat < UInt64.size then some (x + y) else none

/-- What is left of a word when another one, which must not be greater, is taken from it. -/
def sub? (x y : UInt64) : Option UInt64 :=
  if y ≤ x then some (x - y) else none

/-- A signed word with the other sign. The least one has none. -/
def negate? (x : Int64) : Option Int64 :=
  if x = Int64.minValue then none else some (-x)

/-- Bits that are moved out of a word at the lower end. -/
theorem toNat_shiftRight (w : UInt64) {bits : UInt64} (n : Nat) (hn : Nat.pow 2 (bits.toNat % 64) = n) :
    (w >>> bits).toNat = w.toNat / n := by
  rw [UInt64.toNat_shiftRight, Nat.shiftRight_eq_div_pow]
  exact congrArg (w.toNat / ·) hn

end UtxoLedger.Words
