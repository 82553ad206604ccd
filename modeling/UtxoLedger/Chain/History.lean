import UtxoLedger.Chain.Store
import UtxoLedger.Transaction.Rules
import UtxoLedger.Transaction.Signing

/-!
A tree of blocks and what can be seen from a place in it: the transactions before that place in its
block, and all transactions of the blocks below. Each block has one parent, so from every place there
is one history.
-/

namespace UtxoLedger

/-- A place in the tree: before transaction number `index` of a block. -/
structure Position where
  block : BlockId
  index : Nat
  deriving DecidableEq

variable [CryptoSuite]

/-- The place behind every transaction of a block. -/
def Position.endOf (block : Block) : Position :=
  ⟨block.id, block.transactions.length⟩

namespace ChainStore

/-! ### Growth -/

/-- The height of a block: zero without a parent, which only the first block may be, and one more than
the parent's otherwise. -/
def heightOf (store : ChainStore) (block : Block) : Except Error Nat :=
  let parent := block.header.previous
  if parent.isZero then
    if 0 < store.height then .error (.blockValidation .secondGenesis) else .ok 0
  else
    match store.block? parent with
    | none => .error (.blockValidation (.parentNotFound parent))
    | some stored => .ok (stored.height + 1)

def identified (tx : Transaction) : Except Error (TxId × Transaction) :=
  tx.txid.map fun id => (id, tx)

/-- Stores a block under its parent; gives its height. -/
def add (store : ChainStore) (block : Block) : Except Error (Nat × ChainStore) :=
  match store.heightOf block with
  | .error e => .error e
  | .ok height =>
    if (store.block? block.id).isSome then
      .error (.blockValidation (.alreadyPresent block.id))
    else
      match block.transactions.mapM identified with
      | .error e => .error e
      | .ok transactions =>
        (store.commit height block transactions).map fun store => (height, store)

/-! ### Looking back -/

/-- The first answer that transactions give, in order. -/
def firstAnswer {α : Type} (visit : Transaction → Except Error (Option α)) :
    List Transaction → Except Error (Option α)
  | [] => .ok none
  | tx :: rest =>
    match visit tx with
    | .error e => .error e
    | .ok (some answer) => .ok (some answer)
    | .ok none => firstAnswer visit rest

/-- The first answer that the transactions of a block and of the blocks below give, newest first. The
blocks below are at most as many as are stored, so a walk of `steps` blocks that has not ended has
come to one that is not stored. -/
def searchFrom {α : Type} (store : ChainStore) (visit : Transaction → Except Error (Option α)) :
    (steps : Nat) → BlockId → Except Error (Option α)
  | 0, id => if id.isZero then .ok none else .error (.blockValidation (.notFound id))
  | steps + 1, id =>
    if id.isZero then .ok none
    else
      match store.block? id with
      | none => .error (.blockValidation (.notFound id))
      | some stored =>
        match firstAnswer visit stored.block.transactions.reverse with
        | .error e => .error e
        | .ok (some answer) => .ok (some answer)
        | .ok none => store.searchFrom visit steps stored.block.header.previous

/-- The first answer that the transactions visible from a place give, newest first. -/
def search {α : Type} (store : ChainStore) (position : Position)
    (visit : Transaction → Except Error (Option α)) : Except Error (Option α) :=
  if position.block.isZero then .ok none
  else
    match store.block? position.block with
    | none => .error (.blockValidation (.notFound position.block))
    | some stored =>
      let txs := stored.block.transactions
      if txs.length < position.index then
        .error (.blockValidation (.transactionIndex position.index position.block txs.length))
      else
        match firstAnswer visit (txs.take position.index).reverse with
        | .error e => .error e
        | .ok (some answer) => .ok (some answer)
        | .ok none => store.searchFrom visit store.blocks.size stored.block.header.previous

def transactionAt (store : ChainStore) (position : Position) (id : TxId) :
    Except Error (Option Transaction) :=
  store.search position fun tx =>
    tx.txid.map fun found => if found = id then some tx else none

/-- Whether an outpoint is unspent as far as can be seen; an error if its creator cannot be seen. -/
def unspentAt (store : ChainStore) (position : Position) (o : Outpoint) : Except Error Bool :=
  let answer := store.search position fun tx =>
    tx.txid.map fun id =>
      if id = o.txid then some true
      else if tx.inpoints.contains o then some false
      else none
  match answer with
  | .error e => .error e
  | .ok none => .error (.utxoNotFound o)
  | .ok (some unspent) => .ok unspent

/-! ### Checking a transaction -/

/-- Checks that a place is that of the only transaction of the first block. -/
def checkGenesisPosition (store : ChainStore) (position : Position) : Except Error Unit :=
  match store.block? position.block with
  | none => .error (.blockValidation (.notFound position.block))
  | some stored =>
    if stored.block.isGenesis ∧ stored.height = 0 ∧ position.index = 0
        ∧ stored.block.transactions.length = 1 then
      .ok ()
    else
      .error (.transactionValidation
        (.genesisPosition position.index position.block stored.height))

def checkUnspent (store : ChainStore) (position : Position) : List Outpoint → Except Error Unit
  | [] => .ok ()
  | o :: rest =>
    match store.unspentAt position o with
    | .error e => .error e
    | .ok false => .error (.transactionValidation (.alreadySpent o))
    | .ok true => store.checkUnspent position rest

/-- The output that a visible transaction has at an outpoint. -/
def outputAt (store : ChainStore) (position : Position) (o : Outpoint) : Except Error Output :=
  match store.transactionAt position o.txid with
  | .error e => .error e
  | .ok none => .error (.utxoNotFound o)
  | .ok (some tx) =>
    match tx.outputs[o.index.toNat]? with
    | none => .error (.transactionValidation (.noSuchOutput o))
    | some output => .ok output

/-- Checks a transfer at a place in the tree. -/
def checkTransfer (store : ChainStore) (position : Position) (version : UInt8) (t : Transfer) :
    Except Error Unit := do
  let inpoints := t.inputs.map (·.outpoint)
  store.checkUnspent position inpoints
  let previous ← inpoints.mapM (store.outputAt position)
  Transaction.authorizeInputs (t.hasher version).digest 0 t.inputs t.witnesses previous
  if totalValue previous ≠ totalValue t.outputs then
    throw (.transactionValidation
      (.unequalValues (totalValue previous) (totalValue t.outputs)))

/-- Checks a transaction against the history that is visible from a place. -/
def checkTransaction (store : ChainStore) (position : Position) (tx : Transaction) :
    Except Error Unit :=
  match tx.body with
  | .escrowOpen => .error (.transactionValidation (.noRules tx.kind))
  | .genesis _ =>
    match tx.checkRules with
    | .error e => .error e
    | .ok () => store.checkGenesisPosition position
  | .transfer t =>
    match tx.checkRules with
    | .error e => .error e
    | .ok () => store.checkTransfer position tx.version t

end ChainStore

end UtxoLedger
