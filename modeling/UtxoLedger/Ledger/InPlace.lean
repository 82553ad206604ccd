import UtxoLedger.Ledger.State

/-!
The ledger in place: one state that all calls share, with the blocks by identifier and a pointer to
the highest of them. A call looks at the fields and changes them one after the other, and nothing
takes back what it has changed before it fails.
-/

namespace UtxoLedger

/-- A call on the ledger. A block comes in as its record, whatever its height. -/
inductive Call where
  | insertBlock (height : Nat) (block : Block)
  | commitBlock (height : Nat) (block : Block) (spent : List Outpoint)
      (created : List (Outpoint × Output)) (mined : List TxId)
  | queue (tx : Transaction)
  | drop (id : TxId)
  | insertUtxo (o : Outpoint) (output : Output)
  | deleteUtxo (o : Outpoint)

variable [CryptoSuite]

namespace Ledger

/-- The answer to a call, an identifier if it queues a transaction, and the ledger behind it. -/
def call (ledger : Ledger) : Call → Except Error (Option TxId × Ledger)
  | .insertBlock height block => (ledger.insertBlock (.ofBlock height block)).map (none, ·)
  | .commitBlock height block spent created mined =>
    (ledger.commit ⟨.ofBlock height block, spent, created, mined⟩).map (none, ·)
  | .queue tx => (ledger.queue tx).map fun (id, ledger) => (some id, ledger)
  | .drop id => .ok (none, ledger.drop id)
  | .insertUtxo o output => (ledger.insertUtxo o output).map (none, ·)
  | .deleteUtxo o => (ledger.deleteUtxo o).map (none, ·)

/-- The ledger behind a call; one that fails leaves it. -/
def called (ledger : Ledger) (c : Call) : Ledger :=
  match ledger.call c with
  | .ok (_, after) => after
  | .error _ => ledger

/-- The ledger behind calls, from the empty one. -/
def afterCalls (calls : List Call) : Ledger :=
  calls.foldl called empty

end Ledger

/-- The fields that the calls share. -/
structure LedgerState where
  mempool : Table TxId Transaction
  utxos : Table Outpoint Output
  blocks : Table BlockId BlockRecord
  /-- The identifier of the highest block. -/
  tip : Option BlockId

/-- A program over the shared fields, which may stop with an error anywhere. -/
abbrev LedgerProgram :=
  EStateM Error LedgerState

namespace LedgerState

def empty : LedgerState :=
  ⟨.empty, .empty, .empty, none⟩

/-- The highest block, by way of its identifier. -/
def tip? (state : LedgerState) : Option BlockRecord :=
  state.tip.bind state.blocks.get?

def checkLinkage (record : BlockRecord) : LedgerProgram Unit := do
  let state ← get
  if state.blocks.contains record.id then
    throw (.blockValidation (.alreadyStored record.id))
  match state.tip? with
  | none =>
    if ¬(record.parent.isZero ∧ record.height = 0) then
      throw (.blockValidation (.notFirst record.parent record.height))
  | some tip =>
    if ¬(record.parent = tip.id ∧ record.height = tip.height + 1) then
      throw (.blockValidation (.doesNotExtend record.id record.height tip.id tip.height))

/-- Points at a block and stores it. -/
def putBlock (record : BlockRecord) : LedgerProgram Unit := do
  modify fun state => { state with tip := some record.id }
  modify fun state => { state with blocks := state.blocks.insert record.id record }

def insertBlock (record : BlockRecord) : LedgerProgram Unit := do
  checkLinkage record
  putBlock record

def commit (c : Commit) : LedgerProgram Unit := do
  checkLinkage c.record
  let state ← get
  if let some missing := c.spent.find? fun o => !state.utxos.contains o then
    throw (.utxoNotFound missing)
  if let some existing := c.created.find? fun e => state.utxos.contains e.1 then
    throw (.utxoExists existing.1)
  c.spent.forM fun o => modify fun state => { state with utxos := state.utxos.erase o }
  c.created.forM fun e => modify fun state => { state with utxos := state.utxos.insert e.1 e.2 }
  c.mined.forM fun id => modify fun state => { state with mempool := state.mempool.erase id }
  putBlock c.record

def queue (tx : Transaction) : LedgerProgram TxId := do
  let id ← MonadExcept.ofExcept tx.txid
  let state ← get
  if state.mempool.contains id then
    throw (.duplicateTransaction id)
  modify fun state => { state with mempool := state.mempool.insert id tx }
  return id

def drop (id : TxId) : LedgerProgram Unit :=
  modify fun state => { state with mempool := state.mempool.erase id }

def insertUtxo (o : Outpoint) (output : Output) : LedgerProgram Unit := do
  let state ← get
  if state.utxos.contains o then
    throw (.utxoExists o)
  modify fun state => { state with utxos := state.utxos.insert o output }

/-- Erases first, and then tells whether there was something to erase. -/
def deleteUtxo (o : Outpoint) : LedgerProgram Unit := do
  let state ← get
  modify fun state => { state with utxos := state.utxos.erase o }
  if ¬state.utxos.contains o then
    throw (.utxoNotFound o)

def call : Call → LedgerProgram (Option TxId)
  | .insertBlock height block => do
    insertBlock (.ofBlock height block)
    return none
  | .commitBlock height block spent created mined => do
    commit ⟨.ofBlock height block, spent, created, mined⟩
    return none
  | .queue tx => do
    let id ← queue tx
    return some id
  | .drop id => do
    drop id
    return none
  | .insertUtxo o output => do
    insertUtxo o output
    return none
  | .deleteUtxo o => do
    deleteUtxo o
    return none

/-- The fields behind a call, as it leaves them when it ends and when it fails. -/
def called (state : LedgerState) (c : Call) : LedgerState :=
  match (call c).run state with
  | .ok _ after => after
  | .error _ after => after

/-- The fields behind calls, from the empty ones. -/
def afterCalls (calls : List Call) : LedgerState :=
  calls.foldl called empty

end LedgerState

end UtxoLedger
