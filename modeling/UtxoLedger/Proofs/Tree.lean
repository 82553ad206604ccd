import UtxoLedger.Chain.InPlace
import UtxoLedger.Proofs.Failures
import UtxoLedger.Proofs.Forks

/-!
The stored blocks are one rooted tree, whatever blocks are offered in whatever order. Heights fall by
one from a block to its parent, so a walk upwards ends at the root, and no question that is asked at a
stored place comes to a block that is missing.
-/

namespace UtxoLedger

namespace ChainStore

variable {store after : ChainStore} {block : Block} {height : Nat} {id : BlockId}
  {stored : StoredBlock}

/-! ### The shape of the tree -/

/-- **A rooted tree**: one block without a parent, the others under stored parents one lower, and the
counter right above the highest ones. -/
structure IsTree (store : ChainStore) : Prop where
  root_unique : ∀ id stored id' stored', store.block? id = some stored →
    store.block? id' = some stored' → stored.block.isGenesis = true →
      stored'.block.isGenesis = true → id = id'
  root_height : ∀ id stored, store.block? id = some stored → stored.block.isGenesis = true →
    stored.height = 0
  parent : ∀ id stored, store.block? id = some stored → stored.block.isGenesis = false →
    ∃ parent, store.block? stored.block.header.previous = some parent ∧
      stored.height = parent.height + 1
  height_eq : (store.blocks.keys = [] ∧ store.height = 0) ∨
    ∃ id top, store.block? id = some top ∧ store.height = top.height + 1 ∧
      ∀ id stored, store.block? id = some stored → stored.height ≤ top.height

theorem block?_eq_none (h : store.blocks.keys = []) (id : BlockId) : store.block? id = none := by
  refine Table.get?_eq_none_iff.2 ?_
  rw [h]
  exact List.not_mem_nil

theorem isTree_empty : ChainStore.empty.IsTree where
  root_unique _ _ _ _ h := by cases h
  root_height _ _ h := by cases h
  parent _ _ h := by cases h
  height_eq := .inl ⟨rfl, rfl⟩

namespace IsTree

/-- The counter is above every block. -/
theorem height_lt (h : store.IsTree) (hb : store.block? id = some stored) :
    stored.height < store.height := by
  rcases h.height_eq with ⟨hnone, -⟩ | ⟨top, highest, -, heq, hle⟩
  · rw [block?_eq_none hnone] at hb
    cases hb
  · have := hle id stored hb
    omega

variable [CryptoSuite]

/-- A block that is stored is a root only where nothing is stored. -/
theorem keys_eq_nil_of_add (h : store.IsTree) (ha : store.add block = .ok (height, after))
    (hg : block.isGenesis = true) : store.blocks.keys = [] ∧ height = 0 := by
  rcases heightOf_eq_ok_iff.1 (add_eq_ok_iff.1 ha).1 with ⟨-, hzero, hheight⟩ | ⟨hz, -⟩
  · rcases h.height_eq with ⟨hnone, -⟩ | ⟨top, highest, -, heq, -⟩
    · exact ⟨hnone, hheight⟩
    · omega
  · exact absurd (hg.symm.trans hz) (by simp)

/-- One block keeps the tree. -/
theorem add (h : store.IsTree) (ha : store.add block = .ok (height, after)) : after.IsTree := by
  have hblock : ∀ id stored, after.block? id = some stored ↔
      store.block? id = some stored ∨ (id = block.id ∧ stored = ⟨block, height⟩) :=
    fun _ _ => block?_of_add ha
  refine ⟨?_, ?_, ?_, ?_⟩
  · -- a second root would have come into a tree that is not empty
    intro id stored id' stored' hb hb' hroot hroot'
    rcases (hblock id stored).1 hb with hb | ⟨rfl, rfl⟩ <;>
      rcases (hblock id' stored').1 hb' with hb' | ⟨rfl, rfl⟩
    · exact h.root_unique id stored id' stored' hb hb' hroot hroot'
    · rw [block?_eq_none (h.keys_eq_nil_of_add ha hroot').1] at hb
      cases hb
    · rw [block?_eq_none (h.keys_eq_nil_of_add ha hroot).1] at hb'
      cases hb'
    · rfl
  · intro id stored hb hroot
    rcases (hblock id stored).1 hb with hb | ⟨rfl, rfl⟩
    · exact h.root_height id stored hb hroot
    · exact (h.keys_eq_nil_of_add ha hroot).2
  · intro id stored hb hchild
    rcases (hblock id stored).1 hb with hb | ⟨rfl, rfl⟩
    · obtain ⟨parent, hp, hheight⟩ := h.parent id stored hb hchild
      exact ⟨parent, (hblock _ _).2 (.inl hp), hheight⟩
    · rcases heightOf_eq_ok_iff.1 (add_eq_ok_iff.1 ha).1 with ⟨hz, -⟩ | ⟨-, parent, hp, hheight⟩
      · exact absurd (hz.symm.trans hchild) (by simp)
      · exact ⟨parent, (hblock _ _).2 (.inl hp), hheight⟩
  · right
    have hmax : after.height = max store.height (height + 1) := by
      obtain ⟨-, -, named, -, rfl⟩ := add_eq_ok_iff.1 ha
      rfl
    have hnew : after.block? block.id = some ⟨block, height⟩ := (hblock _ _).2 (.inr ⟨rfl, rfl⟩)
    by_cases hhigher : store.height ≤ height + 1
    · -- the new block is one of the highest
      refine ⟨block.id, ⟨block, height⟩, hnew, by show after.height = height + 1; omega, ?_⟩
      intro id stored hb
      rcases (hblock id stored).1 hb with hb | ⟨rfl, rfl⟩
      · have := h.height_lt hb
        show stored.height ≤ height
        omega
      · exact Nat.le_refl _
    · rcases h.height_eq with ⟨-, hzero⟩ | ⟨top, highest, htop, heq, hle⟩
      · omega
      · refine ⟨top, highest, (hblock _ _).2 (.inl htop), by omega, ?_⟩
        intro id stored hb
        rcases (hblock id stored).1 hb with hb | ⟨rfl, rfl⟩
        · exact hle id stored hb
        · show height ≤ highest.height
          omega

theorem grow (h : store.IsTree) (block : Block) : (store.grow block).IsTree := by
  unfold ChainStore.grow
  split
  · next height after ha => exact h.add ha
  · exact h

end IsTree

/-! ### Walks -/

/-- One step of a walk, from a stored block to its parent. -/
def Up (store : ChainStore) (id parent : BlockId) : Prop :=
  id.isZero = false ∧ ∃ stored, store.block? id = some stored ∧ parent = stored.block.header.previous

/-- How far it is from a block to the end of a walk. -/
def distance (store : ChainStore) (id : BlockId) : Nat :=
  if id.isZero then 0
  else
    match store.block? id with
    | none => 0
    | some stored => stored.height + 1

theorem distance_eq (hz : id.isZero = false) (hb : store.block? id = some stored) :
    store.distance id = stored.height + 1 := by
  simp [distance, hz, hb]

namespace IsTree

/-- **Walks end**: each step comes nearer to the end. -/
theorem wellFounded (h : store.IsTree) : WellFounded fun parent id => store.Up id parent := by
  refine Subrelation.wf ?_ (measure store.distance).wf
  rintro _ id ⟨hz, stored, hb, rfl⟩
  show store.distance stored.block.header.previous < store.distance id
  rw [distance_eq hz hb]
  cases hroot : stored.block.header.previous.isZero with
  | true =>
    simp [distance, hroot]
  | false =>
    obtain ⟨parent, hp, hheight⟩ := h.parent id stored hb hroot
    rw [distance_eq hroot hp]
    omega

/-- **A walk passes as many blocks as the height tells**, all of them stored. -/
theorem exists_branch (h : store.IsTree) (hz : id.isZero = false)
    (hb : store.block? id = some stored) :
    ∃ branch, store.Branch id branch ∧ branch.length = stored.height + 1 := by
  generalize hn : stored.height = n
  induction n generalizing id stored with
  | zero =>
    cases hroot : stored.block.header.previous.isZero with
    | true => exact ⟨[] ++ [(id, stored)], .snoc hz hb (.nil hroot), rfl⟩
    | false =>
      obtain ⟨parent, -, hheight⟩ := h.parent id stored hb hroot
      omega
  | succ n ih =>
    cases hroot : stored.block.header.previous.isZero with
    | true =>
      have hzero := h.root_height id stored hb hroot
      omega
    | false =>
      obtain ⟨parent, hp, hheight⟩ := h.parent id stored hb hroot
      obtain ⟨below, hbelow, hlength⟩ := ih hroot hp (by omega)
      refine ⟨below ++ [(id, stored)], .snoc hz hb hbelow, ?_⟩
      rw [List.length_append, hlength, List.length_singleton]

end IsTree

theorem Branch.block?_of_mem {branch : List (BlockId × StoredBlock)} (h : store.Branch id branch) :
    ∀ e ∈ branch, store.block? e.1 = some e.2 := by
  intro e he
  obtain ⟨below, above, rfl⟩ := List.append_of_mem he
  exact h.split.2.1

/-! ### Questions at a place -/

section Questions

variable {given : List Block} {position : Position} {history : List (Position × Transaction)}

theorem exists_firstAnswer {α : Type} {visit : Transaction → Except Error (Option α)}
    {txs : List Transaction} (h : ∀ tx ∈ txs, ∃ answer, visit tx = .ok answer) :
    ∃ answer, firstAnswer visit txs = .ok answer := by
  induction txs with
  | nil => exact ⟨none, rfl⟩
  | cons tx txs ih =>
    obtain ⟨answer, hfirst⟩ := h tx List.mem_cons_self
    cases answer with
    | some answer => exact ⟨some answer, by rw [firstAnswer, hfirst]⟩
    | none =>
      obtain ⟨answer, hrest⟩ := ih fun other ho => h other (List.mem_cons_of_mem _ ho)
      exact ⟨answer, by rw [firstAnswer, hfirst]; exact hrest⟩

variable [CryptoSuite]

/-- A search that asks for identifiers has an answer: all that can be seen has one. -/
theorem GrownBy.exists_search (h : store.GrownBy given) (hs : store.Sees position history) {α : Type}
    (answerOf : Transaction → TxId → Option α) :
    ∃ answer, store.search position (fun tx => tx.txid.map (answerOf tx)) = .ok answer := by
  rw [hs.search_eq]
  refine exists_firstAnswer fun tx htx => ?_
  obtain ⟨-, txid, hid⟩ := h.mem_given hs (List.mem_reverse.1 htx)
  exact ⟨answerOf tx txid, by rw [hid]; rfl⟩

theorem GrownBy.exists_transactionAt (h : store.GrownBy given) (hs : store.Sees position history)
    (txid : TxId) : ∃ found, store.transactionAt position txid = .ok found :=
  h.exists_search hs fun tx found => if found = txid then some tx else none

theorem GrownBy.unspentAt_cases (h : store.GrownBy given) (hs : store.Sees position history)
    (o : Outpoint) : (∃ unspent, store.unspentAt position o = .ok unspent) ∨
      store.unspentAt position o = .error (.utxoNotFound o) := by
  obtain ⟨answer, ha⟩ := h.exists_search hs fun tx id =>
    if id = o.txid then some true else if tx.inpoints.contains o then some false else none
  unfold unspentAt
  simp only [ha]
  cases answer with
  | none => exact .inr rfl
  | some unspent => exact .inl ⟨unspent, rfl⟩

/-! What is asked of a transaction at its place does not fail with an error about blocks either. -/

theorem GrownBy.isBlock_of_checkUnspent (h : store.GrownBy given)
    (hs : store.Sees position history) {os : List Outpoint} {e : Error}
    (he : store.checkUnspent position os = .error e) : e.isBlock = false := by
  induction os with
  | nil => cases he
  | cons o os ih =>
    rw [checkUnspent] at he
    rcases h.unspentAt_cases hs o with ⟨unspent, hu⟩ | hu
    · rw [hu] at he
      cases unspent with
      | true => exact ih he
      | false =>
        cases he
        rfl
    · rw [hu] at he
      cases he
      rfl

theorem GrownBy.isBlock_of_outputAt (h : store.GrownBy given) (hs : store.Sees position history)
    {o : Outpoint} {e : Error} (he : store.outputAt position o = .error e) : e.isBlock = false := by
  obtain ⟨found, hfound⟩ := h.exists_transactionAt hs o.txid
  rw [outputAt, hfound] at he
  cases found with
  | none =>
    cases he
    rfl
  | some tx =>
    dsimp only at he
    split at he
    · cases he
      rfl
    · cases he

theorem GrownBy.isBlock_of_checkTransfer (h : store.GrownBy given)
    (hs : store.Sees position history) {version : UInt8} {t : Transfer} {e : Error}
    (he : store.checkTransfer position version t = .error e) : e.isBlock = false := by
  simp only [checkTransfer, bind, Except.bind] at he
  split at he
  · next hunspent =>
    cases he
    exact h.isBlock_of_checkUnspent hs hunspent
  · split at he
    · next houtputs =>
      cases he
      obtain ⟨o, -, ho⟩ := exists_of_mapM_eq_error houtputs
      exact h.isBlock_of_outputAt hs ho
    · split at he
      · next hauthorize =>
        cases he
        exact Transaction.isBlock_of_authorizeInputs hauthorize
      · split at he
        · cases he
          rfl
        · cases he

/-- **A check at a stored place does not come to a missing block.** -/
theorem GrownBy.isBlock_of_checkTransaction (h : store.GrownBy given)
    (hb : store.block? position.block = some stored)
    (hi : position.index ≤ stored.block.transactions.length) {tx : Transaction} {e : Error}
    (he : store.checkTransaction position tx = .error e) : e.isBlock = false := by
  obtain ⟨history, hs⟩ := h.exists_sees hb hi
  unfold checkTransaction at he
  split at he
  · cases he
    rfl
  · split at he
    · next hrules =>
      cases he
      exact Transaction.isBlock_of_checkRules hrules
    · unfold checkGenesisPosition at he
      rw [hb] at he
      dsimp only at he
      split at he
      · cases he
      · cases he
        rfl
  · split at he
    · next hrules =>
      cases he
      exact Transaction.isBlock_of_checkRules hrules
    · exact h.isBlock_of_checkTransfer hs he

end Questions

variable [CryptoSuite]

/-! ### Transactions by identifier -/

theorem mem_identified {named : List (TxId × Transaction)}
    (h : block.transactions.mapM identified = .ok named) {e : TxId × Transaction} :
    e ∈ named ↔ e.2 ∈ block.transactions ∧ e.2.txid = .ok e.1 := by
  rw [mem_of_mapM_eq_ok h]
  constructor
  · rintro ⟨tx, htx, hid⟩
    obtain ⟨txid, htxid, rfl⟩ := map_eq_ok_iff.1 hid
    exact ⟨htx, htxid⟩
  · rintro ⟨htx, hid⟩
    exact ⟨e.2, htx, map_eq_ok_iff.2 ⟨e.1, hid, rfl⟩⟩

/-- Every transaction of a stored block is found by its identifier. -/
def FindsTransactions (store : ChainStore) : Prop :=
  ∀ id stored, store.block? id = some stored → ∀ tx ∈ stored.block.transactions, ∀ txid,
    tx.txid = .ok txid → store.transaction? txid = some tx

/-- What comes in under the identifier of a transaction is that transaction. -/
theorem FindsTransactions.add {given : List Block} (h : store.FindsTransactions)
    (hg : store.GrownBy given) (hd : DistinctIds (given.flatMap (·.transactions)))
    (hmem : block ∈ given) (ha : store.add block = .ok (height, after)) :
    after.FindsTransactions := by
  obtain ⟨-, -, named, hnamed, hafter⟩ := add_eq_ok_iff.1 ha
  have hin : ∀ other ∈ given, ∀ tx ∈ other.transactions, tx ∈ given.flatMap (·.transactions) :=
    fun other ho tx htx => List.mem_flatMap.2 ⟨other, ho, htx⟩
  intro id stored hb tx htx txid hid
  have hgiven : stored.block ∈ given := by
    rcases (block?_of_add ha).1 hb with hb | ⟨-, rfl⟩
    · exact hg.given id stored hb
    · exact hmem
  have hagree : ∀ e ∈ named, e.1 = txid → e.2 = tx := by
    rintro e he rfl
    obtain ⟨hnew, hnewId⟩ := (mem_identified hnamed).1 he
    exact hd e.2 (hin block hmem _ hnew) tx (hin _ hgiven tx htx) e.1 hnewId hid
  rw [hafter]
  refine Table.get?_insertMany hagree ?_
  rcases (block?_of_add ha).1 hb with hb | ⟨-, rfl⟩
  · exact .inr (h id stored hb tx htx txid hid)
  · exact .inl ((mem_identified hnamed).2 ⟨htx, hid⟩)

/-! ### Growth in place -/

namespace InPlace

theorem run_addBlock (store : ChainStore) (height : Nat) (block : Block) :
    (addBlock height block).run store =
      match store.addBlock height block with
      | .ok after => .ok () after
      | .error e => .error e store := by
  unfold addBlock ChainStore.addBlock
  rw [EStateM.run_bind, EStateM.run_get]
  by_cases hthere : store.blocks.contains block.id = true
  · simp only [hthere, if_true]
    rfl
  · simp only [hthere]
    rfl

theorem run_commit (store : ChainStore) (height : Nat) (block : Block)
    (named : List (TxId × Transaction)) :
    (commit height block named).run store =
      match store.commit height block named with
      | .ok after => .ok () after
      | .error e => .error e store := by
  unfold commit ChainStore.commit
  rw [EStateM.run_bind, run_addBlock]
  cases store.addBlock height block with
  | error e => rfl
  | ok between =>
    have hloop : named.foldl (fun store e => store.addTransaction e.1 e.2) between =
        { between with transactions := between.transactions.insertMany named } :=
      List.foldl_hom (fun transactions => { between with transactions := transactions })
        fun _ _ => rfl
    simp only [run_forM_modify, hloop]
    rfl

/-- **A block in place does what it does to the tree as a value**, and one that is refused has
changed nothing. -/
theorem run_add (store : ChainStore) (block : Block) :
    (add block).run store =
      match store.add block with
      | .ok (height, after) => .ok height after
      | .error e => .error e store := by
  unfold add ChainStore.add
  simp only [EStateM.run_bind, EStateM.run_get, run_ofExcept]
  cases store.heightOf block with
  | error e => rfl
  | ok height =>
    dsimp only
    by_cases hthere : (store.block? block.id).isSome = true
    · simp only [hthere, if_true]
      rfl
    · rw [if_neg hthere, if_neg hthere]
      simp only [EStateM.run_bind, run_ofExcept]
      cases block.transactions.mapM identified with
      | error e => rfl
      | ok named =>
        simp only [run_commit]
        cases store.commit height block named <;> rfl

theorem grow_eq (store : ChainStore) (block : Block) : grow store block = store.grow block := by
  unfold grow ChainStore.grow
  rw [run_add]
  cases store.add block <;> rfl

end InPlace

/-! ### Every series of blocks -/

/-- **A rooted tree whose walks end.** -/
structure Rooted (store : ChainStore) : Prop where
  tree : store.IsTree
  transactions : ∀ id stored, store.block? id = some stored → ∀ tx ∈ stored.block.transactions,
    ∃ txid, tx.txid = .ok txid ∧ store.transaction? txid = some tx
  /-- No walk goes on forever. -/
  ends : WellFounded fun parent id => store.Up id parent
  /-- From a block the walk passes one stored block for each height down to zero, and then comes to
  the zero identifier; any number of steps from that number on leads through it. -/
  walk : ∀ id stored, store.block? id = some stored → id.isZero = false →
    ∃ branch, store.Branch id branch ∧ branch.length = stored.height + 1 ∧
      (∀ e ∈ branch, store.block? e.1 = some e.2) ∧
      ∀ (α : Type) (visit : Transaction → Except Error (Option α)) (steps : Nat),
        stored.height + 1 ≤ steps →
          store.searchFrom visit steps id = firstAnswer visit (transactionsOf branch).reverse
  /-- A question at a stored place is answered by what can be seen from there. -/
  search : ∀ position stored, store.block? position.block = some stored →
    position.index ≤ stored.block.transactions.length → ∃ history, store.Sees position history ∧
      ∀ (α : Type) (visit : Transaction → Except Error (Option α)),
        store.search position visit = firstAnswer visit (history.map Prod.snd).reverse
  transactionAt : ∀ position stored, store.block? position.block = some stored →
    position.index ≤ stored.block.transactions.length → ∀ txid,
      ∃ found, store.transactionAt position txid = .ok found
  unspentAt : ∀ position stored, store.block? position.block = some stored →
    position.index ≤ stored.block.transactions.length → ∀ o,
      (∃ unspent, store.unspentAt position o = .ok unspent) ∨
        store.unspentAt position o = .error (.utxoNotFound o)
  checkTransaction : ∀ position stored, store.block? position.block = some stored →
    position.index ≤ stored.block.transactions.length → ∀ tx e,
      store.checkTransaction position tx = .error e → e.isBlock = false
  /-- In place, a block that is refused has changed nothing. -/
  refused : ∀ block e after, (InPlace.add block).run store = .error e after →
    after = store ∧ store.add block = .error e ∧ store.grow block = store

theorem isTree_grown (blocks : List Block) : (grown blocks).IsTree :=
  List.foldlRecOn blocks ChainStore.grow isTree_empty fun _ h block _ => h.grow block

theorem findsTransactions_grown {blocks : List Block}
    (hd : DistinctIds (blocks.flatMap (·.transactions))) : (grown blocks).FindsTransactions := by
  have hboth : (grown blocks).GrownBy blocks ∧ (grown blocks).FindsTransactions := by
    refine List.foldlRecOn (motive := fun store => GrownBy store blocks ∧ store.FindsTransactions)
      blocks ChainStore.grow ⟨grownBy_empty blocks, fun _ _ hb => by cases hb⟩ ?_
    rintro store ⟨hg, hf⟩ block hmem
    refine ⟨hg.grow hmem, ?_⟩
    unfold ChainStore.grow
    split
    · next height after ha => exact hf.add hg hd hmem ha
    · exact hf
  exact hboth.2

theorem refused_add {e : Error} (h : (InPlace.add block).run store = .error e after) :
    after = store ∧ store.add block = .error e ∧ store.grow block = store := by
  rw [InPlace.run_add] at h
  unfold ChainStore.grow
  cases ha : store.add block with
  | error found =>
    rw [ha] at h
    cases h
    exact ⟨rfl, rfl, rfl⟩
  | ok result =>
    rw [ha] at h
    cases h

/-- **Whatever blocks are offered, in whatever order**: the stored ones are a rooted tree whose walks
end, in place as well as value by value. -/
theorem rooted_grown {blocks : List Block} (hd : DistinctIds (blocks.flatMap (·.transactions))) :
    (grown blocks).Rooted ∧ blocks.foldl InPlace.grow .empty = grown blocks := by
  have hg := grownBy_grown blocks
  have htree := isTree_grown blocks
  constructor
  · refine ⟨htree, ?_, htree.wellFounded, ?_, ?_, ?_, ?_, ?_, fun _ _ _ => refused_add⟩
    · intro id stored hb tx htx
      obtain ⟨txid, hid⟩ := hg.named id stored hb tx htx
      exact ⟨txid, hid, findsTransactions_grown hd id stored hb tx htx txid hid⟩
    · intro id stored hb hz
      obtain ⟨branch, hbranch, hlength⟩ := htree.exists_branch hz hb
      refine ⟨branch, hbranch, hlength, hbranch.block?_of_mem, ?_⟩
      intro α visit steps hsteps
      exact searchFrom_eq hbranch (hlength ▸ hsteps)
    · intro position stored hb hi
      obtain ⟨history, hs⟩ := hg.exists_sees hb hi
      exact ⟨history, hs, fun _ visit => hs.search_eq visit⟩
    · intro position stored hb hi
      obtain ⟨history, hs⟩ := hg.exists_sees hb hi
      exact hg.exists_transactionAt hs
    · intro position stored hb hi
      obtain ⟨history, hs⟩ := hg.exists_sees hb hi
      exact hg.unspentAt_cases hs
    · intro position stored hb hi tx e he
      exact hg.isBlock_of_checkTransaction hb hi he
  · have hsame : InPlace.grow = ChainStore.grow := by
      funext store block
      exact InPlace.grow_eq store block
    rw [hsame]
    rfl

end ChainStore

open Payment ChainStore in
/-- Two blocks over one root, which is offered twice. -/
theorem ChainStore.rooted_fork : (grown fork).blocks.size = 3 ∧
    ((grown fork).Rooted ∧ fork.foldl InPlace.grow .empty = grown fork) := by
  have hsize : (grown fork).blocks.size = 3 := by
    rw [Table.size, blocks_fork]
    rfl
  have hsub : fork.flatMap (·.transactions) ⊆ broughtBy events := by
    simp [fork, root, left, right, blockOf, broughtBy, events, opening, Event.brings, minting]
  exact ⟨hsize, rooted_grown (distinctIds.subset hsub)⟩

end UtxoLedger
