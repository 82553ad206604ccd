import UtxoLedger.Text.Hex

/-!
JSON numbers, by the parts of their text.

The text may name any number. Its size is measured on a decimal that keeps as many leading digits as
a word of 64 bits holds, and `isFinite` says whether the binary number of 53 significant bits and 11
exponent bits next to it is finite.
-/

namespace UtxoLedger.Json

structure Number where
  negative : Bool
  integer : Nat
  fraction : List Nat
  exponent : Option Int
  deriving DecidableEq, Repr

/-- A whole number times a power of ten. -/
structure Decimal where
  significand : Nat
  power : Int
  deriving DecidableEq, Repr

namespace Decimal

/-- The leading digits of a whole number, as many as fit in a word of 64 bits. Every digit behind them
counts as a power of ten. -/
def leading (n : Nat) : Decimal :=
  if n < UInt64.size then ⟨n, 0⟩
  else
    let head := leading (n / 10)
    ⟨head.significand, head.power + 1⟩
termination_by n
decreasing_by
  rename_i h
  exact Nat.div_lt_self (Nat.lt_of_lt_of_le (by decide) (Nat.le_of_not_lt h)) (by decide)

/-- Puts the digits behind the point after those of the significand, up to the first that no longer
fits in a word of 64 bits. -/
def append (x : Decimal) : List Nat → Decimal
  | [] => x
  | digit :: rest =>
    let significand := 10 * x.significand + digit
    if significand < UInt64.size then append ⟨significand, x.power - 1⟩ rest else x

/-- The nearest number of 53 significant bits; of two as near, the one whose last bit is even. -/
def nearestBinary (n : Nat) : Nat :=
  let unit := Nat.pow 2 (Nat.log2 n + 1 - 53)
  let low := n % unit
  if 2 * low < unit ∨ 2 * low = unit ∧ n / unit % 2 = 0 then n - low else n - low + unit

/-- The least number that is rounded to one beyond the range of 11 exponent bits. -/
def overflowBound : Nat :=
  Nat.pow 2 1024 - Nat.pow 2 970

/-- The greatest power of ten in the range of 11 exponent bits. -/
def maxPower : Int := 308

def isFinite (x : Decimal) : Bool :=
  if x.significand = 0 ∨ x.power < 0 then true
  else if maxPower < x.power then false
  else
    nearestBinary x.significand * nearestBinary (Nat.pow 10 x.power.toNat) < overflowBound

end Decimal

namespace Number

def ofNat (n : Nat) : Number :=
  ⟨false, n, [], none⟩

/-- The natural number that is written without sign, point and exponent. -/
def toNat? (n : Number) : Option Nat :=
  if n.negative ∨ n.fraction ≠ [] ∨ n.exponent.isSome then none else some n.integer

/-- The leading digits of a number, without its sign. -/
def toDecimal (n : Number) : Decimal :=
  let digits := (Decimal.leading n.integer).append n.fraction
  ⟨digits.significand, digits.power + n.exponent.getD 0⟩

def isFinite (n : Number) : Bool :=
  n.toDecimal.isFinite

def chars (n : Number) : List Char :=
  let sign := if n.negative then ['-'] else []
  let fraction := if n.fraction = [] then [] else '.' :: n.fraction.map Hex.digit
  let exponent :=
    match n.exponent with
    | none => []
    | some e => 'e' :: (toString e).toList
  sign ++ Nat.toDigits 10 n.integer ++ fraction ++ exponent

end Number

end UtxoLedger.Json
