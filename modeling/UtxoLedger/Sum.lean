/-!
Sums of a measure over the elements of a list: the bytes that items take, the values of outputs.
-/

namespace UtxoLedger

/-- The sum of `f x` over the elements `x` of a list. -/
def sumOf {α : Type} (f : α → Nat) (xs : List α) : Nat :=
  xs.foldr (fun x n => f x + n) 0

@[simp]
theorem sumOf_nil {α : Type} (f : α → Nat) : sumOf f [] = 0 := rfl

@[simp]
theorem sumOf_cons {α : Type} (f : α → Nat) (x : α) (xs : List α) :
    sumOf f (x :: xs) = f x + sumOf f xs := rfl

@[simp]
theorem sumOf_append {α : Type} (f : α → Nat) (xs ys : List α) :
    sumOf f (xs ++ ys) = sumOf f xs + sumOf f ys := by
  induction xs with
  | nil => simp
  | cons x xs ih => simp [ih, Nat.add_assoc]

end UtxoLedger
