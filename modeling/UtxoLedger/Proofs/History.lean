import UtxoLedger.Chain.History
import UtxoLedger.Proofs.Lists
import UtxoLedger.Proofs.Table
import Mathlib.Data.List.Perm.Subperm

/-!
What can be seen from a place in a tree of blocks, as one list. A branch leads from the first block up
to a given one. It meets no block twice, so the bound that a walk starts with is never used up, and a
search is one pass over the visible transactions, the newest first.
-/

namespace UtxoLedger.ChainStore

/-! ### Branches -/

/-- The blocks from the first one up to the one with the given identifier, each with its own. The zero
identifier stands for no block, with no branch behind it. -/
inductive Branch (store : ChainStore) : BlockId → List (BlockId × StoredBlock) → Prop
  | nil {id : BlockId} : id.isZero = true → Branch store id []
  | snoc {id : BlockId} {stored : StoredBlock} {below : List (BlockId × StoredBlock)} :
      id.isZero = false → store.block? id = some stored →
      Branch store stored.block.header.previous below → Branch store id (below ++ [(id, stored)])

/-- The transactions of stored blocks, in order. -/
def transactionsOf (branch : List (BlockId × StoredBlock)) : List Transaction :=
  branch.flatMap fun e => e.2.block.transactions

namespace Branch

variable {store after : ChainStore} {id : BlockId} {stored : StoredBlock} {e : BlockId × StoredBlock}
  {branch branch' below above : List (BlockId × StoredBlock)}

/-- There is one branch up to a block. -/
theorem unique (h : store.Branch id branch) (h' : store.Branch id branch') : branch = branch' := by
  induction h generalizing branch' with
  | nil hz =>
    cases h' with
    | nil => rfl
    | snoc hz' => exact absurd (hz.symm.trans hz') (by simp)
  | snoc hz hb _ ih =>
    cases h' with
    | nil hz' => exact absurd (hz.symm.trans hz') (by simp)
    | snoc _ hb' below' =>
      obtain rfl := Option.some.inj (hb.symm.trans hb')
      rw [ih below']

/-- A block of a branch, with the branch below it. -/
theorem split (h : store.Branch id (below ++ e :: above)) :
    e.1.isZero = false ∧ store.block? e.1 = some e.2 ∧
      store.Branch e.2.block.header.previous below := by
  generalize hs : below ++ e :: above = branch at h
  induction h generalizing above with
  | nil => simp at hs
  | snoc hz hb hbelow ih =>
    rcases append_cons_eq_concat hs with ⟨rfl, rfl, -⟩ | ⟨above, -, hs⟩
    · exact ⟨hz, hb, hbelow⟩
    · exact ih hs

/-- No block comes twice: the branch up to it would be longer than itself. -/
theorem nodup_ids (h : store.Branch id branch) : (branch.map Prod.fst).Nodup := by
  induction h with
  | nil => simp
  | @snoc id stored below hz hb hbelow ih =>
    rw [List.map_append, List.nodup_append]
    refine ⟨ih, by simp, ?_⟩
    rintro _ hm _ hid rfl
    obtain rfl := List.mem_singleton.1 hid
    obtain ⟨e, he, rfl⟩ := List.mem_map.1 hm
    obtain ⟨first, rest, rfl⟩ := List.append_of_mem he
    obtain ⟨hz', hb', hfirst⟩ := hbelow.split
    have hlen := congrArg List.length ((Branch.snoc hz' hb' hfirst).unique (.snoc hz hb hbelow))
    simp only [List.length_append, List.length_cons, List.length_nil] at hlen
    omega

theorem length_le_size (h : store.Branch id branch) : branch.length ≤ store.blocks.size := by
  have hsub : branch.map Prod.fst ⊆ store.blocks.keys := by
    intro id' hid
    obtain ⟨e, he, rfl⟩ := List.mem_map.1 hid
    obtain ⟨below, above, rfl⟩ := List.append_of_mem he
    exact Table.mem_keys_of_get? h.split.2.1
  simpa [Table.keys, Table.size] using (h.nodup_ids.subperm hsub).length_le

theorem mono (h : store.Branch id branch)
    (hsub : ∀ id stored, store.block? id = some stored → after.block? id = some stored) :
    after.Branch id branch := by
  induction h with
  | nil hz => exact .nil hz
  | snoc hz hb _ ih => exact .snoc hz (hsub _ _ hb) ih

end Branch

/-! ### Searches -/

section Search

variable {α : Type} {visit : Transaction → Except Error (Option α)}

theorem firstAnswer_append (visit : Transaction → Except Error (Option α))
    (txs more : List Transaction) :
    firstAnswer visit (txs ++ more) =
      match firstAnswer visit txs with
      | .error e => .error e
      | .ok (some answer) => .ok (some answer)
      | .ok none => firstAnswer visit more := by
  induction txs with
  | nil => rfl
  | cons tx txs ih =>
    rw [List.cons_append, firstAnswer, firstAnswer]
    rcases visit tx with e | answer | answer
    · rfl
    · exact ih
    · rfl

theorem firstAnswer_concat_reverse (visit : Transaction → Except Error (Option α))
    (txs : List Transaction) (tx : Transaction) :
    firstAnswer visit (txs ++ [tx]).reverse =
      match visit tx with
      | .error e => .error e
      | .ok (some answer) => .ok (some answer)
      | .ok none => firstAnswer visit txs.reverse := by
  rw [List.reverse_append, List.reverse_singleton, List.singleton_append]
  rfl

/-- A walk with steps for a whole branch passes over its transactions. -/
theorem searchFrom_eq {store : ChainStore} {id : BlockId} {branch : List (BlockId × StoredBlock)}
    (h : store.Branch id branch) {steps : Nat} (hsteps : branch.length ≤ steps) :
    store.searchFrom visit steps id = firstAnswer visit (transactionsOf branch).reverse := by
  induction h generalizing steps with
  | nil hz =>
    cases steps with
    | zero => rw [searchFrom, hz]; rfl
    | succ steps => rw [searchFrom, hz]; rfl
  | @snoc id stored below hz hb _ ih =>
    rw [List.length_append, List.length_singleton] at hsteps
    obtain ⟨steps, rfl⟩ : ∃ n, steps = n + 1 := ⟨steps - 1, by omega⟩
    have hall : (transactionsOf (below ++ [(id, stored)])).reverse =
        stored.block.transactions.reverse ++ (transactionsOf below).reverse := by
      simp [transactionsOf]
    rw [searchFrom, hz, hb, hall, firstAnswer_append, ← ih (show below.length ≤ steps by omega)]
    rfl

end Search

/-! ### Histories -/

/-- The transactions of a stored block, each with its own place. -/
def placed (e : BlockId × StoredBlock) : List (Position × Transaction) :=
  e.2.block.transactions.mapIdx fun i tx => (⟨e.1, i⟩, tx)

/-- From a place exactly these transactions can be seen, the oldest first, each with its own place:
those of the branch below the block of the place, and those before the place in that block. -/
inductive Sees (store : ChainStore) : Position → List (Position × Transaction) → Prop
  | nothing {position : Position} : position.block.isZero = true → Sees store position []
  | inside {id : BlockId} {stored : StoredBlock} {below : List (BlockId × StoredBlock)} {index : Nat} :
      id.isZero = false → store.block? id = some stored →
      index ≤ stored.block.transactions.length → Branch store stored.block.header.previous below →
      Sees store ⟨id, index⟩ (below.flatMap placed ++ (placed (id, stored)).take index)

theorem map_snd_placed (e : BlockId × StoredBlock) :
    (placed e).map Prod.snd = e.2.block.transactions := by
  refine List.ext_getElem (by simp [placed]) fun i _ _ => ?_
  simp [placed]

theorem map_snd_flatMap_placed (branch : List (BlockId × StoredBlock)) :
    (branch.flatMap placed).map Prod.snd = transactionsOf branch := by
  rw [List.map_flatMap]
  exact congrArg branch.flatMap (funext map_snd_placed)

theorem map_snd_inside (id : BlockId) (stored : StoredBlock)
    (below : List (BlockId × StoredBlock)) (index : Nat) :
    (below.flatMap placed ++ (placed (id, stored)).take index).map Prod.snd =
      transactionsOf below ++ stored.block.transactions.take index := by
  rw [List.map_append, map_snd_flatMap_placed, List.map_take, map_snd_placed]

/-- A transaction that stands in a block has the place where it stands. -/
theorem eq_of_placed_eq {e : BlockId × StoredBlock} {entry : Position × Transaction}
    {pre post : List (Position × Transaction)} (h : placed e = pre ++ entry :: post) :
    entry.1 = ⟨e.1, pre.length⟩ ∧ pre.length < e.2.block.transactions.length ∧
      pre = (placed e).take pre.length := by
  have hlen : (placed e).length = e.2.block.transactions.length := by simp [placed]
  have hlt : pre.length < e.2.block.transactions.length := by
    rw [← hlen, h]
    simp
  refine ⟨?_, hlt, ?_⟩
  · have hget : (placed e)[pre.length]? = some entry := by simp [h]
    rw [placed, List.getElem?_mapIdx, List.getElem?_eq_getElem hlt, Option.map_some,
      Option.some.injEq] at hget
    rw [← hget]
  · rw [h, List.take_left' rfl]

namespace Sees

variable {store : ChainStore} {position : Position} {history pre post : List (Position × Transaction)}
  {entry : Position × Transaction}

/-- There is one history to be seen from a place. -/
theorem unique {history' : List (Position × Transaction)} (h : store.Sees position history)
    (h' : store.Sees position history') : history = history' := by
  cases h with
  | nothing hz =>
    cases h' with
    | nothing => rfl
    | inside hz' => exact absurd (hz.symm.trans hz') (by simp)
  | inside hz hb _ hbelow =>
    cases h' with
    | nothing hz' => exact absurd (hz.symm.trans hz') (by simp)
    | inside _ hb' _ hbelow' =>
      obtain rfl := Option.some.inj (hb.symm.trans hb')
      rw [hbelow.unique hbelow']

/-- **A search is one pass over the history**, from its end. -/
theorem search_eq {α : Type} (h : store.Sees position history)
    (visit : Transaction → Except Error (Option α)) :
    store.search position visit = firstAnswer visit (history.map Prod.snd).reverse := by
  cases h with
  | nothing hz => rw [search, hz]; rfl
  | @inside id stored below index hz hb hle hbelow =>
    rw [map_snd_inside, List.reverse_append, firstAnswer_append,
      ← searchFrom_eq hbelow hbelow.length_le_size]
    simp only [search, hz, hb, Nat.not_lt.2 hle, if_false]
    rfl

/-- What is before a transaction of a branch can be seen from its place. -/
theorem of_branch {id : BlockId} {branch : List (BlockId × StoredBlock)}
    (h : store.Branch id branch) (hs : branch.flatMap placed = pre ++ entry :: post) :
    store.Sees entry.1 pre := by
  induction h generalizing post with
  | nil => simp at hs
  | @snoc id stored below hz hb hbelow ih =>
    rw [List.flatMap_append, List.flatMap_singleton] at hs
    rcases List.append_eq_append_iff.1 hs with ⟨mid, hpre, htop⟩ | ⟨mid, hlow, htop⟩
    · -- it stands in the last block
      obtain ⟨hplace, hlt, hmid⟩ := eq_of_placed_eq htop
      have hsees := Sees.inside hz hb (Nat.le_of_lt hlt) hbelow
      rwa [← hmid, ← hpre, ← hplace] at hsees
    · -- it stands in a block below, unless nothing of that is left
      cases mid with
      | nil =>
        have hfirst : placed (id, stored) = [] ++ entry :: post := htop.symm
        obtain ⟨hplace, -, -⟩ := eq_of_placed_eq hfirst
        have hsees := Sees.inside hz hb (Nat.zero_le _) hbelow
        rw [List.take_zero, hlow, List.append_nil, List.append_nil] at hsees
        rwa [hplace]
      | cons first mid =>
        obtain ⟨rfl, -⟩ := List.cons.inj htop
        exact ih hlow

/-- **Each transaction of a history sees what is before it there.** -/
theorem split (h : store.Sees position (pre ++ entry :: post)) : store.Sees entry.1 pre := by
  generalize hs : pre ++ entry :: post = history at h
  cases h with
  | nothing => simp at hs
  | @inside id stored below index hz hb hle hbelow =>
    -- the visible part of the block continues to the whole block
    have hall : (below ++ [(id, stored)]).flatMap placed =
        pre ++ entry :: (post ++ (placed (id, stored)).drop index) := by
      rw [← List.cons_append, ← List.append_assoc, hs, List.append_assoc, List.take_append_drop,
        List.flatMap_append, List.flatMap_singleton]
    exact of_branch (.snoc hz hb hbelow) hall

end Sees

end UtxoLedger.ChainStore
