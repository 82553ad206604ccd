import UtxoLedger.Proofs.History

/-!
Trees of blocks that grow from the empty one. A block that is stored is a new one under a parent that
is there, and nothing that was stored changes, so every stored block has its branch, whatever blocks
have been refused in between.
-/

namespace UtxoLedger.ChainStore

variable {store after : ChainStore} {block : Block} {height : Nat}

/-! ### Storing a block -/

theorem heightOf_eq_ok_iff : store.heightOf block = .ok height ↔
    (block.header.previous.isZero = true ∧ store.height = 0 ∧ height = 0) ∨
      (block.header.previous.isZero = false ∧ ∃ parent,
        store.block? block.header.previous = some parent ∧ height = parent.height + 1) := by
  simp only [heightOf]
  by_cases hz : block.header.previous.isZero = true
  · by_cases hh : 0 < store.height
    · simp [hz, hh, Nat.ne_of_gt hh]
    · simp [hz, Nat.eq_zero_of_not_pos hh, eq_comm (a := height)]
  · cases store.block? block.header.previous <;> simp [hz, eq_comm (a := height)]

variable [CryptoSuite]

/-- **Storing a block succeeds exactly if** it has a height here, its identifier is new, and every
transaction of it has an identifier; the tree with it is the one before and that block. -/
theorem add_eq_ok_iff : store.add block = .ok (height, after) ↔
    store.heightOf block = .ok height ∧ block.id ∉ store.blocks.keys ∧
      ∃ named, block.transactions.mapM identified = .ok named ∧
        after = ⟨store.blocks.extend [(block.id, ⟨block, height⟩)], max store.height (height + 1),
          store.transactions.insertMany named⟩ := by
  unfold add
  cases store.heightOf block with
  | error e => simp
  | ok found =>
    simp only [Except.ok.injEq]
    by_cases hk : block.id ∈ store.blocks.keys
    · have hs : (store.block? block.id).isSome = true := by
        rw [Option.isSome_iff_ne_none]
        exact fun hn => Table.get?_eq_none_iff.1 hn hk
      simp [hs, hk]
    · have hs : (store.block? block.id).isSome = false := by
        rw [block?, Table.get?_eq_none_iff.2 hk]
        rfl
      have hc : store.blocks.contains block.id = false := Table.contains_eq_false_iff.2 hk
      cases block.transactions.mapM identified with
      | error e => simp [hs]
      | ok named =>
        simp only [hs, Bool.false_eq_true, if_false, commit, addBlock, hc, Except.map,
          Table.insert_eq_extend hk, Except.ok.injEq, Prod.mk.injEq, hk, not_false_eq_true,
          true_and, exists_eq_left']
        constructor
        · rintro ⟨rfl, rfl⟩
          exact ⟨rfl, rfl⟩
        · rintro ⟨rfl, rfl⟩
          exact ⟨rfl, rfl⟩

/-- Behind a stored block, what is stored is that block and what was stored before. -/
theorem block?_of_add (h : store.add block = .ok (height, after)) {id : BlockId}
    {stored : StoredBlock} : after.block? id = some stored ↔
      store.block? id = some stored ∨ (id = block.id ∧ stored = ⟨block, height⟩) := by
  obtain ⟨-, hnew, -, -, rfl⟩ := add_eq_ok_iff.1 h
  rw [block?, Table.get?_extend, block?]
  by_cases hid : block.id = id
  · subst hid
    rw [Table.get?_eq_none_iff.2 hnew]
    simp [Table.get?, eq_comm]
  · cases store.blocks.get? id with
    | some before => simp [Ne.symm hid]
    | none => simp [Table.get?, hid, Ne.symm hid]

/-- A block has an identifier for each of its transactions once it is stored. -/
theorem txid_of_add (h : store.add block = .ok (height, after)) {tx : Transaction}
    (htx : tx ∈ block.transactions) : ∃ id, tx.txid = .ok id := by
  obtain ⟨-, -, named, hn, -⟩ := add_eq_ok_iff.1 h
  obtain ⟨i, hi, rfl⟩ := List.getElem_of_mem htx
  have hall := mapM_eq_ok_iff.1 hn
  have hget := hall.get hi (hall.length_eq ▸ hi)
  cases hid : (block.transactions[i]).txid with
  | error e => simp [identified, hid, Except.map] at hget
  | ok id => exact ⟨id, rfl⟩

/-! ### Series of blocks -/

/-- The tree after a block is offered: the one before if it is refused. -/
def grow (store : ChainStore) (block : Block) : ChainStore :=
  match store.add block with
  | .ok (_, after) => after
  | .error _ => store

/-- The tree after a series of blocks is offered to the empty one. -/
def grown (blocks : List Block) : ChainStore :=
  blocks.foldl grow .empty

/-- Stores blocks one after the other, all of which have to be accepted; gives their heights. -/
def addAll (store : ChainStore) : List Block → Except Error (List Nat × ChainStore)
  | [] => .ok ([], store)
  | block :: rest =>
    match store.add block with
    | .error e => .error e
    | .ok (height, after) => (after.addAll rest).map fun (heights, last) => (height :: heights, last)

theorem addAll_concat {blocks : List Block} {heights : List Nat} {last : ChainStore}
    (hall : store.addAll blocks = .ok (heights, after)) (h : after.add block = .ok (height, last)) :
    store.addAll (blocks ++ [block]) = .ok (heights ++ [height], last) := by
  induction blocks generalizing store heights with
  | nil =>
    obtain ⟨rfl, rfl⟩ : [] = heights ∧ store = after := by simpa [addAll] using hall
    simp [addAll, h, Except.map]
  | cons first rest ih =>
    rw [List.cons_append, addAll]
    rw [addAll] at hall
    cases hf : store.add first with
    | error e => simp [hf] at hall
    | ok result =>
      cases hr : result.2.addAll rest with
      | error e => simp [hf, hr, Except.map] at hall
      | ok tail =>
        obtain ⟨rfl, rfl⟩ : result.1 :: tail.1 = heights ∧ tail.2 = after := by
          simpa [hf, hr, Except.map] using hall
        simp [ih hr, Except.map]

/-! ### What growth keeps -/

/-- What holds of a tree that has grown by some of the blocks that it was given: what is stored is one
of them under its own identifier, with identifiers for its transactions and a branch below it. -/
structure GrownBy (store : ChainStore) (given : List Block) : Prop where
  given : ∀ id stored, store.block? id = some stored → stored.block ∈ given
  keyed : ∀ id stored, store.block? id = some stored → stored.block.id = id
  named : ∀ id stored, store.block? id = some stored →
    ∀ tx ∈ stored.block.transactions, ∃ txid, tx.txid = .ok txid
  rooted : ∀ id stored, store.block? id = some stored →
    ∃ below, store.Branch stored.block.header.previous below

theorem grownBy_empty (given : List Block) : ChainStore.empty.GrownBy given where
  given _ _ h := by cases h
  keyed _ _ h := by cases h
  named _ _ h := by cases h
  rooted _ _ h := by cases h

namespace GrownBy

variable {given : List Block} {position : Position}

theorem grow (h : store.GrownBy given) (hmem : block ∈ given) :
    (store.grow block).GrownBy given := by
  unfold ChainStore.grow
  split
  · next height after hadd =>
    have hmono : ∀ id stored, store.block? id = some stored → after.block? id = some stored :=
      fun _ _ hb => (block?_of_add hadd).2 (.inl hb)
    refine ⟨fun id stored hb => ?_, fun id stored hb => ?_, fun id stored hb => ?_,
      fun id stored hb => ?_⟩ <;> rcases (block?_of_add hadd).1 hb with hb | ⟨rfl, rfl⟩
    · exact h.given id stored hb
    · exact hmem
    · exact h.keyed id stored hb
    · rfl
    · exact h.named id stored hb
    · exact fun _ => txid_of_add hadd
    · obtain ⟨below, hbelow⟩ := h.rooted id stored hb
      exact ⟨below, hbelow.mono hmono⟩
    · -- the parent of the new block is stored, with its own branch below it
      rcases heightOf_eq_ok_iff.1 (add_eq_ok_iff.1 hadd).1 with ⟨hz, -⟩ | ⟨hz, parent, hp, -⟩
      · exact ⟨[], .nil hz⟩
      · obtain ⟨below, hbelow⟩ := h.rooted _ _ hp
        exact ⟨_, .snoc hz (hmono _ _ hp) (hbelow.mono hmono)⟩
  · exact h

/-- **From every place of the tree there is a history**: no place where a walk would fail. -/
theorem exists_sees (h : store.GrownBy given) {stored : StoredBlock}
    (hb : store.block? position.block = some stored)
    (hi : position.index ≤ stored.block.transactions.length) :
    ∃ history, store.Sees position history := by
  cases hz : position.block.isZero with
  | true => exact ⟨[], .nothing hz⟩
  | false =>
    obtain ⟨below, hbelow⟩ := h.rooted _ _ hb
    exact ⟨_, .inside hz hb hi hbelow⟩

end GrownBy

/-- **Every series of blocks grows a tree.** -/
theorem grownBy_grown (blocks : List Block) : (grown blocks).GrownBy blocks :=
  List.foldlRecOn (motive := fun store => GrownBy store blocks) blocks grow (grownBy_empty blocks)
    fun _ h _ hmem => h.grow hmem

end UtxoLedger.ChainStore
