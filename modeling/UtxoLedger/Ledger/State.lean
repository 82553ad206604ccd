import UtxoLedger.Table
import UtxoLedger.Block.Seal

/-!
The ledger: the pending transactions, the confirmed unspent outputs and the stored blocks. An
operation either gives a new ledger or fails, and then nothing has changed.
-/

namespace UtxoLedger

structure BlockRecord where
  id : BlockId
  height : Nat
  /-- The block before it; zero for the first one. -/
  parent : BlockId
  block : Block
  deriving DecidableEq

/-- The record of a block, with identifier and parent taken from the block. -/
def BlockRecord.ofBlock [CryptoSuite] (height : Nat) (block : Block) : BlockRecord :=
  ⟨block.id, height, block.header.previous, block⟩

structure Commit where
  record : BlockRecord
  /-- Confirmed outputs that the block consumes. -/
  spent : List Outpoint
  /-- Outputs that the block creates and leaves unspent. -/
  created : List (Outpoint × Output)
  /-- Transactions that are no longer pending. -/
  mined : List TxId

structure Ledger where
  /-- Pending transactions in the order of their arrival. -/
  mempool : Table TxId Transaction
  utxos : Table Outpoint Output
  blocks : List BlockRecord

namespace Ledger

/-- The ledger before anything has happened. -/
def empty : Ledger :=
  ⟨.empty, .empty, []⟩

def tip? (ledger : Ledger) : Option BlockRecord :=
  ledger.blocks.getLast?

def block? (ledger : Ledger) (id : BlockId) : Option BlockRecord :=
  ledger.blocks.find? (·.id = id)

def utxo? (ledger : Ledger) (o : Outpoint) : Option Output :=
  ledger.utxos.get? o

/-- Pending transactions in the order of their arrival. -/
def pending (ledger : Ledger) : List Transaction :=
  ledger.mempool.values

def queue [CryptoSuite] (ledger : Ledger) (tx : Transaction) : Except Error (TxId × Ledger) :=
  match tx.txid with
  | .error e => .error e
  | .ok id =>
    if ledger.mempool.contains id then .error (.duplicateTransaction id)
    else .ok (id, { ledger with mempool := ledger.mempool.insert id tx })

def drop (ledger : Ledger) (id : TxId) : Ledger :=
  { ledger with mempool := ledger.mempool.erase id }

def insertUtxo (ledger : Ledger) (o : Outpoint) (output : Output) : Except Error Ledger :=
  if ledger.utxos.contains o then .error (.utxoExists o)
  else .ok { ledger with utxos := ledger.utxos.insert o output }

def deleteUtxo (ledger : Ledger) (o : Outpoint) : Except Error Ledger :=
  if ledger.utxos.contains o then .ok { ledger with utxos := ledger.utxos.erase o }
  else .error (.utxoNotFound o)

/-- Checks that a block is new and extends the tip. -/
def checkLinkage (ledger : Ledger) (record : BlockRecord) : Except Error Unit :=
  if (ledger.block? record.id).isSome then
    .error (.blockValidation (.alreadyStored record.id))
  else
    match ledger.tip? with
    | none =>
      if record.parent.isZero ∧ record.height = 0 then .ok ()
      else .error (.blockValidation (.notFirst record.parent record.height))
    | some tip =>
      if record.parent = tip.id ∧ record.height = tip.height + 1 then .ok ()
      else .error (.blockValidation
        (.doesNotExtend record.id record.height tip.id tip.height))

/-- Stores a block and nothing else. -/
def insertBlock (ledger : Ledger) (record : BlockRecord) : Except Error Ledger :=
  match ledger.checkLinkage record with
  | .error e => .error e
  | .ok () => .ok { ledger with blocks := ledger.blocks ++ [record] }

/-- The ledger after a commit whose conditions hold. -/
def apply (ledger : Ledger) (c : Commit) : Ledger where
  mempool := ledger.mempool.eraseMany c.mined
  utxos := (ledger.utxos.eraseMany c.spent).insertMany c.created
  blocks := ledger.blocks ++ [c.record]

/-- Stores a block with all that it changes. Everything is checked before anything is changed. -/
def commit (ledger : Ledger) (c : Commit) : Except Error Ledger :=
  match ledger.checkLinkage c.record with
  | .error e => .error e
  | .ok () =>
    match c.spent.find? fun o => !ledger.utxos.contains o with
    | some missing => .error (.utxoNotFound missing)
    | none =>
      match c.created.find? fun e => ledger.utxos.contains e.1 with
      | some existing => .error (.utxoExists existing.1)
      | none => .ok (ledger.apply c)

end Ledger

end UtxoLedger
