import UtxoLedger.Table
import UtxoLedger.Block.Seal

/-!
Storage for a tree of blocks: blocks by identifier, each with its height, and transactions by
identifier.
-/

namespace UtxoLedger

/-- A block with the height at which it was stored. -/
structure StoredBlock where
  block : Block
  height : Nat
  deriving DecidableEq

/-- Blocks and transactions by identifier. -/
structure ChainStore where
  blocks : Table BlockId StoredBlock
  /-- One more than the greatest height in use; zero if there is none. -/
  height : Nat
  transactions : Table TxId Transaction

namespace ChainStore

/-- The storage without blocks. -/
def empty : ChainStore :=
  ⟨.empty, 0, .empty⟩

/-- The stored block with an identifier. -/
def block? (store : ChainStore) (id : BlockId) : Option StoredBlock :=
  store.blocks.get? id

/-- The stored transaction with an identifier. -/
def transaction? (store : ChainStore) (id : TxId) : Option Transaction :=
  store.transactions.get? id

/-- Stores a transaction under an identifier. -/
def addTransaction (store : ChainStore) (id : TxId) (tx : Transaction) : ChainStore :=
  { store with transactions := store.transactions.insert id tx }

variable [CryptoSuite]

/-- Stores a new block at a height. -/
def addBlock (store : ChainStore) (height : Nat) (block : Block) : Except Error ChainStore :=
  if store.blocks.contains block.id then
    .error (.blockValidation (.alreadyInDatabase block.id))
  else
    .ok { store with
      blocks := store.blocks.insert block.id ⟨block, height⟩
      height := max store.height (height + 1) }

/-- Stores a new block at a height, and its transactions. -/
def commit (store : ChainStore) (height : Nat) (block : Block)
    (transactions : List (TxId × Transaction)) : Except Error ChainStore :=
  (store.addBlock height block).map fun store =>
    { store with transactions := store.transactions.insertMany transactions }

end ChainStore

end UtxoLedger
