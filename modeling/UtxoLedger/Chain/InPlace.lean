import UtxoLedger.Chain.History

/-!
Growth of a tree of blocks in place: the fields of its storage are changed one after the other, and
nothing takes back what has been changed before a failure.
-/

namespace UtxoLedger

/-- A program over the storage of a tree, which may stop with an error anywhere. -/
abbrev ChainProgram :=
  EStateM Error ChainStore

namespace ChainStore.InPlace

variable [CryptoSuite]

/-- Stores a new block and counts its height. -/
def addBlock (height : Nat) (block : Block) : ChainProgram Unit := do
  let store ← get
  if store.blocks.contains block.id then
    throw (.blockValidation (.alreadyInDatabase block.id))
  modify fun store => { store with blocks := store.blocks.insert block.id ⟨block, height⟩ }
  modify fun store => { store with height := max store.height (height + 1) }

/-- Stores a new block and then its transactions. -/
def commit (height : Nat) (block : Block) (transactions : List (TxId × Transaction)) :
    ChainProgram Unit := do
  addBlock height block
  transactions.forM fun e => modify fun store => store.addTransaction e.1 e.2

/-- Stores a block under its parent; gives its height. -/
def add (block : Block) : ChainProgram Nat := do
  let store ← get
  let height ← MonadExcept.ofExcept (store.heightOf block)
  if (store.block? block.id).isSome then
    throw (.blockValidation (.alreadyPresent block.id))
  let transactions ← MonadExcept.ofExcept (block.transactions.mapM identified)
  commit height block transactions
  return height

/-- The storage behind a block that is offered, as it is left when it is accepted and when it is
refused. -/
def grow (store : ChainStore) (block : Block) : ChainStore :=
  match (add block).run store with
  | .ok _ after => after
  | .error _ after => after

end ChainStore.InPlace

end UtxoLedger
