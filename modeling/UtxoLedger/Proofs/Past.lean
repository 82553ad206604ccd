import UtxoLedger.Proofs.Tree
import UtxoLedger.Proofs.Unspent

/-!
The past of a place in a tree of blocks. A place sees the transactions before it in its block and those
of the blocks below, on its own branch and on no other, and a transaction is found by its identifier
exactly if it is one of them. Growth adds blocks and changes none, so what is asked at a place is
answered the same ever after, whatever comes to stand on top of it or beside it.
-/

namespace UtxoLedger

namespace ChainStore

variable {store after : ChainStore} {id : BlockId} {position : Position} {tx : Transaction}
  {history : List (Position × Transaction)}

/-! ### The past of a place -/

/-- A block stands below another one: as its parent, its parent's parent and so on. The zero identifier
stands for no block. -/
def Below (store : ChainStore) (lower id : BlockId) : Prop :=
  lower.isZero = false ∧ Relation.TransGen store.Up id lower

/-- The transaction stands before the place in its block, or in a block below. -/
inductive Past (store : ChainStore) (position : Position) (tx : Transaction) : Prop
  | inside {stored : StoredBlock} : position.block.isZero = false →
      store.block? position.block = some stored →
      tx ∈ stored.block.transactions.take position.index → Past store position tx
  | below {lower : BlockId} {stored : StoredBlock} : store.Below lower position.block →
      store.block? lower = some stored → tx ∈ stored.block.transactions → Past store position tx

/-- The transactions of a branch are those of the blocks that a walk passes. -/
theorem Branch.mem_transactionsOf_iff {branch : List (BlockId × StoredBlock)}
    (h : store.Branch id branch) : tx ∈ transactionsOf branch ↔
      ∃ lower stored, lower.isZero = false ∧ Relation.ReflTransGen store.Up id lower ∧
        store.block? lower = some stored ∧ tx ∈ stored.block.transactions := by
  induction h with
  | nil hz =>
    simp only [transactionsOf, List.flatMap_nil, List.not_mem_nil, false_iff]
    rintro ⟨lower, stored, hl, hwalk, -⟩
    rcases hwalk.cases_head with rfl | ⟨parent, hup, -⟩
    · exact absurd (hz.symm.trans hl) (by simp)
    · exact absurd (hz.symm.trans hup.1) (by simp)
  | @snoc id stored below hz hb hbelow ih =>
    have hup : ∀ parent, store.Up id parent ↔ parent = stored.block.header.previous := by
      simp [Up, hz, hb]
    rw [transactionsOf, List.flatMap_append, List.flatMap_singleton, List.mem_append]
    rw [← transactionsOf, ih]
    constructor
    · rintro (⟨lower, found, hl, hwalk, hfound⟩ | htx)
      · exact ⟨lower, found, hl, .head ((hup _).2 rfl) hwalk, hfound⟩
      · exact ⟨id, stored, hz, .refl, hb, htx⟩
    · rintro ⟨lower, found, hl, hwalk, hfound, htx⟩
      rcases hwalk.cases_head with rfl | ⟨parent, hfirst, hwalk⟩
      · obtain rfl := Option.some.inj (hb.symm.trans hfound)
        exact .inr htx
      · obtain rfl := (hup parent).1 hfirst
        exact .inl ⟨lower, found, hl, hwalk, hfound, htx⟩

/-- **What is seen from a place is its past.** -/
theorem Sees.mem_iff_past (h : store.Sees position history) :
    tx ∈ history.map Prod.snd ↔ store.Past position tx := by
  cases h with
  | nothing hz =>
    simp only [List.map_nil, List.not_mem_nil, false_iff]
    rintro (⟨hz', -, -⟩ | ⟨⟨-, hwalk⟩, -, -⟩)
    · exact absurd (hz.symm.trans hz') (by simp)
    · obtain ⟨parent, hup, -⟩ := Relation.TransGen.head'_iff.1 hwalk
      exact absurd (hz.symm.trans hup.1) (by simp)
  | @inside id stored below index hz hb hi hbelow =>
    rw [map_snd_inside, List.mem_append, hbelow.mem_transactionsOf_iff]
    constructor
    · rintro (⟨lower, found, hl, hwalk, hfound, htx⟩ | htx)
      · exact .below ⟨hl, .head' ⟨hz, stored, hb, rfl⟩ hwalk⟩ hfound htx
      · exact .inside hz hb htx
    · rintro (⟨-, hb', htx⟩ | ⟨⟨hl, hwalk⟩, hfound, htx⟩)
      · obtain rfl := Option.some.inj (hb.symm.trans hb')
        exact .inr htx
      · obtain ⟨_, ⟨-, stored', hb', rfl⟩, hwalk⟩ := Relation.TransGen.head'_iff.1 hwalk
        obtain rfl := Option.some.inj (hb.symm.trans hb')
        exact .inl ⟨_, _, hl, hwalk, hfound, htx⟩

/-! ### Looking for a transaction -/

section Looking

variable [CryptoSuite] {txid : TxId}

/-- What a search by identifier answers at a place. -/
structure FindsPast (store : ChainStore) (position : Position) (txid : TxId) : Prop where
  /-- It finds the transactions of the past with the identifier, and no others. -/
  some_iff : ∀ tx, store.transactionAt position txid = .ok (some tx) ↔
    tx.txid = .ok txid ∧ store.Past position tx
  /-- It finds none exactly if there is none, and there is no other answer. -/
  none_iff : store.transactionAt position txid = .ok none ↔
    ∀ tx, store.Past position tx → tx.txid ≠ .ok txid

theorem Sees.findsPast (hs : store.Sees position history)
    (hids : ∀ tx ∈ history.map Prod.snd, ∃ id, tx.txid = .ok id)
    (hd : DistinctIds (history.map Prod.snd)) (txid : TxId) : store.FindsPast position txid := by
  have hfound : store.transactionAt position txid = .ok
      ((history.map Prod.snd).reverse.find? fun other => other.txid = .ok txid) :=
    (hs.search_eq _).trans (firstAnswer_named_eq fun tx htx => hids tx (List.mem_reverse.1 htx))
  constructor
  · intro tx
    rw [hfound, Except.ok.injEq, find?_txid_eq_some_iff (hd.subset fun _ => List.mem_reverse.1),
      List.mem_reverse, hs.mem_iff_past]
  · simp only [hfound, Except.ok.injEq, List.find?_eq_none, List.mem_reverse, hs.mem_iff_past,
      decide_eq_true_eq, ne_eq]

end Looking

/-! ### Growth -/

/-- What is stored in the one tree is stored in the other. -/
def Extends (store after : ChainStore) : Prop :=
  ∀ id stored, store.block? id = some stored → after.block? id = some stored

theorem Sees.mono (h : store.Sees position history) (he : store.Extends after) :
    after.Sees position history := by
  cases h with
  | nothing hz => exact .nothing hz
  | inside hz hb hi hbelow => exact .inside hz (he _ _ hb) hi (hbelow.mono he)

variable [CryptoSuite]

theorem extends_grow (store : ChainStore) (block : Block) : store.Extends (store.grow block) := by
  intro id stored hb
  unfold grow
  split
  · next height after ha => exact (block?_of_add ha).2 (.inl hb)
  · exact hb

theorem extends_foldl_grow (store : ChainStore) (blocks : List Block) :
    store.Extends (blocks.foldl grow store) := by
  induction blocks generalizing store with
  | nil => exact fun _ _ hb => hb
  | cons block blocks ih =>
    exact fun id stored hb => ih _ id stored (extends_grow store block id stored hb)

/-- Both trees answer every question at a place in the same way, failures included. -/
structure AnswersAs (after store : ChainStore) (position : Position) : Prop where
  transactionAt : ∀ txid, after.transactionAt position txid = store.transactionAt position txid
  unspentAt : ∀ o, after.unspentAt position o = store.unspentAt position o
  checkTransaction : ∀ tx, after.checkTransaction position tx = store.checkTransaction position tx

/-- **What is asked at a place depends on its history and its block alone.** -/
theorem Sees.answersAs (h : store.Sees position history) (h' : after.Sees position history)
    (hb : after.block? position.block = store.block? position.block) :
    after.AnswersAs store position := by
  have hsearch : ∀ {α : Type} (visit : Transaction → Except Error (Option α)),
      after.search position visit = store.search position visit := fun visit => by
    rw [h.search_eq, h'.search_eq]
  have htransaction : after.transactionAt position = store.transactionAt position :=
    funext fun txid => hsearch _
  have hunspent : after.unspentAt position = store.unspentAt position := by
    funext o
    unfold unspentAt
    rw [hsearch]
  have houtput : after.outputAt position = store.outputAt position := by
    funext o
    unfold outputAt
    rw [htransaction]
  have hall : after.checkUnspent position = store.checkUnspent position := by
    funext os
    induction os with
    | nil => rfl
    | cons o os ih => rw [checkUnspent, checkUnspent, hunspent, ih]
  refine ⟨congrFun htransaction, congrFun hunspent, fun tx => ?_⟩
  simp only [checkTransaction, checkTransfer, checkGenesisPosition, hb, hall, houtput]

/-- **The past is seen exactly, and nothing that comes later changes it.** Whatever blocks a tree has been
given, a transaction is found from a place in a stored block exactly if it stands before it there or in
a block below; and whatever blocks the tree is given then, on whichever branch, every answer at the
place stays as it is. -/
theorem findsPast_grown {blocks : List Block} (hd : DistinctIds (blocks.flatMap (·.transactions)))
    {stored : StoredBlock} (hb : (grown blocks).block? position.block = some stored)
    (hi : position.index ≤ stored.block.transactions.length) :
    (∀ txid, (grown blocks).FindsPast position txid) ∧
      ∀ later, (grown (blocks ++ later)).AnswersAs (grown blocks) position := by
  have hg := grownBy_grown blocks
  obtain ⟨history, hs⟩ := hg.exists_sees hb hi
  constructor
  · have hgiven : history.map Prod.snd ⊆ blocks.flatMap (·.transactions) :=
      fun _ hmem => (hg.mem_given hs hmem).1
    exact hs.findsPast (fun _ hmem => (hg.mem_given hs hmem).2) (hd.subset hgiven)
  · intro later
    have hextends : (grown blocks).Extends (grown (blocks ++ later)) := by
      unfold grown
      rw [List.foldl_append]
      exact extends_foldl_grow _ later
    exact hs.answersAs (hs.mono hextends) ((hextends _ _ hb).trans hb.symm)

end ChainStore

open Payment ChainStore in
/-- `left` and `right` spend the same coins. Before the one of `left`, the coins have been minted and the
spend is not there, and this stays so when a third block spends them once more. -/
theorem ChainStore.findsPast_fork :
    (grown fork).transactionAt ⟨leftId, 0⟩ mintingId = .ok (some minting) ∧
    (grown (fork ++ [blockOf leftId spend 2])).transactionAt ⟨leftId, 0⟩ mintingId =
      .ok (some minting) ∧
    ∃ id, spend.txid = .ok id ∧ (grown fork).transactionAt ⟨leftId, 0⟩ id = .ok none := by
  have hleft : (grown fork).block? leftId = some ⟨left, 1⟩ := by
    rw [block?, Table.get?, blocks_fork]
    decide +kernel
  obtain ⟨hfinds, hstays⟩ :=
    @findsPast_grown ⟨leftId, 0⟩ _ fork distinctIds_fork _ hleft (Nat.zero_le _)
  have hsees : (grown fork).Sees ⟨leftId, 0⟩ [(⟨rootId, 0⟩, minting)] :=
    .inside (by decide) hleft (Nat.zero_le _) (.snoc (by decide) block?_fork (.nil (by decide)))
  have hpast : ∀ tx, (grown fork).Past ⟨leftId, 0⟩ tx ↔ tx = minting := fun tx => by
    rw [← hsees.mem_iff_past, List.map_singleton, List.mem_singleton]
  have hminted : (grown fork).transactionAt ⟨leftId, 0⟩ mintingId = .ok (some minting) :=
    ((hfinds mintingId).some_iff minting).2 ⟨txid_minting, (hpast minting).2 rfl⟩
  obtain ⟨id, hid⟩ := (grownBy_grown fork).named leftId _ hleft spend (List.mem_singleton_self _)
  refine ⟨hminted, ((hstays _).transactionAt mintingId).trans hminted, id, hid, ?_⟩
  refine (hfinds id).none_iff.2 fun tx htx htxid => ?_
  rw [(hpast tx).1 htx] at htxid
  obtain rfl := Except.ok.inj (htxid.symm.trans txid_minting)
  exact txid_spend_ne hid

end UtxoLedger
