import UtxoLedger.Proofs.Merkle
import Mathlib.Logic.Function.Iterate
import Mathlib.Order.Bounds.Defs

/-!
The Merkle root from the top down. A tree of a given depth splits its leaves at a power of two; where
they all fit into the left half, it stands beside itself. Level by level the same node is left: levels
of leaves that are cut at a multiple of `2 ^ depth` are taken on both sides of the cut apart, so that
`depth` levels leave one node for each half, and the next level joins the two.
-/

namespace UtxoLedger.Merkle

section

variable [CryptoSuite]

/-- The node at the top of the tree of a given depth over some leaves. There is none without leaves, and
none over more leaves than a tree of that depth has. -/
def tree : (depth : Nat) → (leaves : List Digest) → Option Digest
  | 0, [leaf] => some leaf
  | 0, _ => none
  | depth + 1, leaves =>
    if leaves.length ≤ 2 ^ depth then do
      let half ← tree depth leaves
      return parent half half
    else do
      let left ← tree depth (leaves.take (2 ^ depth))
      let right ← tree depth (leaves.drop (2 ^ depth))
      return parent left right

/-! ### Levels on both sides of a cut -/

theorem level_append {front : List Digest} (h : front.length % 2 = 0) (back : List Digest) :
    level (front ++ back) = level front ++ level back := by
  induction front using level.induct with
  | case1 left right rest ih =>
    have hrest : rest.length % 2 = 0 := by
      simp only [List.length_cons] at h
      omega
    simp only [List.cons_append, level, ih hrest]
  | case2 last => simp at h
  | case3 => rfl

theorem iterate_level_append {front : List Digest} (depth : Nat) (h : 2 ^ depth ∣ front.length)
    (back : List Digest) :
    level^[depth] (front ++ back) = level^[depth] front ++ level^[depth] back := by
  induction depth generalizing front back with
  | zero => rfl
  | succ depth ih =>
    obtain ⟨n, hn⟩ := h
    rw [Nat.pow_succ, Nat.mul_assoc] at hn
    have hcut : front.length = 2 * (2 ^ depth * n) := by
      rw [hn]
      ac_rfl
    have hhalf : 2 ^ depth ∣ (level front).length := by
      refine ⟨n, ?_⟩
      rw [length_level]
      omega
    rw [Function.iterate_succ_apply, Function.iterate_succ_apply, Function.iterate_succ_apply,
      level_append (by omega), ih hhalf]

/-- As long as there are more leaves than a tree of that depth has, more than one node is left. -/
theorem one_lt_length_iterate_level {nodes : List Digest} {depth : Nat} :
    1 < (level^[depth] nodes).length ↔ 2 ^ depth < nodes.length := by
  induction depth generalizing nodes with
  | zero => rfl
  | succ depth ih =>
    rw [Function.iterate_succ_apply, ih, length_level, Nat.pow_succ]
    omega

/-! ### One node is left -/

/-- A tree has a top wherever it can have one, and it is what its levels leave. -/
theorem exists_tree_eq {depth : Nat} {leaves : List Digest} (hne : leaves ≠ [])
    (hfit : leaves.length ≤ 2 ^ depth) :
    ∃ top, tree depth leaves = some top ∧ level^[depth] leaves = [top] := by
  induction depth generalizing leaves with
  | zero =>
    have hpos := List.length_pos_iff.2 hne
    rw [Nat.pow_zero] at hfit
    obtain ⟨leaf, rfl⟩ := List.length_eq_one_iff.1 (Nat.le_antisymm hfit hpos)
    exact ⟨leaf, rfl, rfl⟩
  | succ depth ih =>
    rw [Function.iterate_succ_apply']
    by_cases hhalf : leaves.length ≤ 2 ^ depth
    · obtain ⟨half, htree, hlevel⟩ := ih hne hhalf
      refine ⟨parent half half, ?_, ?_⟩
      · rw [tree, if_pos hhalf, htree]
        rfl
      · rw [hlevel]
        rfl
    · have htake : (leaves.take (2 ^ depth)).length = 2 ^ depth :=
        List.length_take_of_le (Nat.le_of_not_le hhalf)
      have hdrop := List.length_drop (i := 2 ^ depth) (l := leaves)
      have hpow : 0 < 2 ^ depth := Nat.pow_pos (by decide)
      rw [Nat.pow_succ] at hfit
      have hfirst : leaves.take (2 ^ depth) ≠ [] := List.length_pos_iff.1 (by omega)
      have hsecond : leaves.drop (2 ^ depth) ≠ [] := List.length_pos_iff.1 (by omega)
      obtain ⟨left, hleft, hlevelLeft⟩ := ih hfirst (by omega)
      obtain ⟨right, hright, hlevelRight⟩ := ih hsecond (by omega)
      refine ⟨parent left right, ?_, ?_⟩
      · rw [tree, if_neg hhalf, hleft, hright]
        rfl
      · rw [← List.take_append_drop (2 ^ depth) leaves,
          iterate_level_append depth ⟨1, by rw [htake, Nat.mul_one]⟩, hlevelLeft,
          hlevelRight]
        rfl

/-- What is left of levels that are taken as long as there is more than one node is the root. -/
theorem rootOf_eq_of_iterate {first top : Digest} {rest : List Digest} {depth : Nat}
    (hmore : ∀ d < depth, 1 < (level^[d] (first :: rest)).length)
    (hleft : level^[depth] (first :: rest) = [top]) : rootOf first rest = top := by
  induction depth generalizing first rest with
  | zero =>
    obtain ⟨rfl, rfl⟩ := List.cons.inj hleft
    exact rootOf_nil _
  | succ depth ih =>
    cases rest with
    | nil =>
      have hone := hmore 0 (Nat.succ_pos depth)
      simp at hone
    | cons second rest =>
      rw [rootOf_cons]
      exact ih (fun d hd => hmore (d + 1) (Nat.succ_lt_succ hd)) hleft

/-- **The levels and the tree have one root**: over one identifier or more, the levels end after as many
as the least depth of a tree that has room for all of them, and what they leave is the top of this
tree. -/
theorem root_eq_tree {ids : List TxId} {depth : Nat} (hne : ids ≠ [])
    (hleast : IsLeast {d | ids.length ≤ 2 ^ d} depth) :
    ∃ top, root ids = .ok top ∧ tree depth (ids.map TxId.bytes) = some top ∧
      level^[depth] (ids.map TxId.bytes) = [top] ∧
      ∀ d < depth, 1 < (level^[d] (ids.map TxId.bytes)).length := by
  have hfit : ids.length ≤ 2 ^ depth := hleast.1
  have hmore : ∀ d < depth, 1 < (level^[d] (ids.map TxId.bytes)).length := by
    intro d hd
    rw [one_lt_length_iterate_level, List.length_map]
    exact Nat.lt_of_not_le fun hle => absurd (hleast.2 hle) (Nat.not_le.2 hd)
  have hleaves : ids.map TxId.bytes ≠ [] := by simpa using hne
  obtain ⟨top, htree, hlevel⟩ := exists_tree_eq hleaves (by simpa using hfit)
  refine ⟨top, ?_, htree, hlevel, hmore⟩
  obtain ⟨first, rest, rfl⟩ := List.exists_cons_of_ne_nil hne
  exact congrArg Except.ok (rootOf_eq_of_iterate hmore hlevel)

end

/-! ### Five leaves -/

namespace Five

open Crypto

/-- A digest of equal bytes. -/
def leaf (b : UInt8) : Digest :=
  ⟨List.replicate 32 b, List.length_replicate⟩

/-- Five identifiers: their levels have five, three, two and one node, so that two levels in a row repeat
their last node. -/
def ids : List TxId :=
  [⟨leaf 1⟩, ⟨leaf 2⟩, ⟨leaf 3⟩, ⟨leaf 4⟩, ⟨leaf 5⟩]

theorem isLeast_depth : IsLeast {d | ids.length ≤ 2 ^ d} 3 := by
  have hlength : ids.length = 5 := rfl
  have hfit : ids.length ≤ 2 ^ 3 := by decide
  refine ⟨hfit, fun d (hd : ids.length ≤ 2 ^ d) => Nat.le_of_not_lt fun hlt => ?_⟩
  have hpow : 2 ^ d ≤ 2 ^ 2 := Nat.pow_le_pow_right (by decide) (Nat.le_of_lt_succ hlt)
  omega

/-- Over the fifth leaf alone, the right half repeats itself twice. -/
theorem root_ids : ids ≠ [] ∧ IsLeast {d | ids.length ≤ 2 ^ d} 3 ∧
    root ids = .ok (parent (parent (parent (leaf 1) (leaf 2)) (parent (leaf 3) (leaf 4)))
      (parent (parent (leaf 5) (leaf 5)) (parent (leaf 5) (leaf 5)))) := by
  have hne : ids ≠ [] := List.cons_ne_nil _ _
  obtain ⟨top, hroot, htree, -, -⟩ := root_eq_tree hne isLeast_depth
  refine ⟨hne, isLeast_depth, hroot.trans (congrArg Except.ok ?_)⟩
  exact (Option.some.inj htree).symm

end Five

end UtxoLedger.Merkle
