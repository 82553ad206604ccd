import UtxoLedger.Ledger.Pending
import UtxoLedger.Ledger.State
import UtxoLedger.Transaction.Rules
import UtxoLedger.Transaction.Signing

/-!
Mining: pending transactions are checked against the confirmed outputs and the block under assembly,
those that pass are accepted, and the block is signed and committed. Those that do not pass stay
pending.
-/

namespace UtxoLedger

variable [CryptoSuite]

/-! ### Checking a transaction -/

/-- The output that an input consumes: one that the block under assembly creates, or a confirmed
one. -/
def Ledger.resolve (ledger : Ledger) (p : Pending) (o : Outpoint) : Except Error Output :=
  if p.isSpent o then .error (.doubleSpend o)
  else
    match p.newUnspent? o with
    | some output => .ok output
    | none =>
      match ledger.utxo? o with
      | some output => .ok output
      | none => .error (.utxoNotFound o)

/-- The outputs that inputs consume, in order. -/
def Ledger.resolveAll (ledger : Ledger) (p : Pending) : List Input → Except Error (List Output)
  | [] => .ok []
  | input :: rest =>
    match ledger.resolve p input.outpoint with
    | .error e => .error e
    | .ok output => (ledger.resolveAll p rest).map (output :: ·)

/-- Checks a transfer that consumes `previous`: what goes out is what comes in, and every input is
authorised. -/
def Transfer.checkSpending (t : Transfer) (version : UInt8) (previous : List Output) :
    Except Error Unit :=
  if totalValue previous ≠ totalValue t.outputs then
    .error (.transactionValidation (.unbalanced (totalValue t.outputs) (totalValue previous)))
  else
    Transaction.authorizeInputs (t.hasher version).digest 0 t.inputs t.witnesses previous

/-- Checks a transaction against the confirmed outputs and the block under assembly, which follows
`tip`. -/
def Ledger.validate (ledger : Ledger) (tip : Option BlockRecord) (p : Pending)
    (tx : Transaction) : Except Error Unit :=
  match tx.checkRules with
  | .error e => .error e
  | .ok () =>
    match tx.body with
    | .genesis _ =>
      if tip.isSome ∨ ¬p.isEmpty then .error (.transactionValidation .genesisNotFirst)
      else .ok ()
    | .escrowOpen => .error (.transactionValidation .escrowNotMinable)
    | .transfer t =>
      if p.hasGenesis then .error (.transactionValidation .genesisNotAlone)
      else
        match ledger.resolveAll p t.inputs with
        | .error e => .error e
        | .ok previous => t.checkSpending tx.version previous

/-! ### Assembly -/

/-- The block under assembly with one more transaction, if it can be accepted now. -/
def Ledger.extend? (ledger : Ledger) (tip : Option BlockRecord) (p : Pending)
    (tx : Transaction) : Option Pending :=
  match tx.txid with
  | .error _ => none
  | .ok id =>
    if p.contains id then none
    else
      match ledger.validate tip p tx with
      | .error _ => none
      | .ok () =>
        match p.add tx with
        | .error _ => none
        | .ok (_, p) => some p

/-- One pass over transactions: accepts what can be accepted in turn, and gives what is left. -/
def Ledger.sweep (ledger : Ledger) (tip : Option BlockRecord) (p : Pending) :
    List Transaction → Pending × List Transaction
  | [] => (p, [])
  | tx :: rest =>
    match ledger.extend? tip p tx with
    | some p => ledger.sweep tip p rest
    | none =>
      let (p, left) := ledger.sweep tip p rest
      (p, tx :: left)

/-- Passes over what is left until a pass accepts nothing, so that a transaction may spend outputs of
one behind it. -/
def Ledger.assemble (ledger : Ledger) (tip : Option BlockRecord) (p : Pending)
    (txs : List Transaction) : Pending :=
  let (p, left) := ledger.sweep tip p txs
  if left.length < txs.length then ledger.assemble tip p left else p
termination_by txs.length

/-! ### Blocks -/

/-- What a new block has of its own: a time and a random number. -/
structure Stamp where
  timestamp : UInt32
  random : UInt64

/-- The signed block over the accepted transactions, as a child of `tip`. -/
def Pending.seal (p : Pending) (key : SecretKey) (stamp : Stamp) (tip : Option BlockRecord) :
    Except Error Block :=
  let previous := (tip.map (·.id)).getD .zero
  (Block.make previous p.accepted stamp.timestamp stamp.random).map (·.sign key)

/-- All that a block over the accepted transactions changes. -/
def Pending.commit (p : Pending) (tip : Option BlockRecord) (block : Block) : Commit where
  record := .ofBlock ((tip.map (·.height + 1)).getD 0) block
  spent := p.confirmedSpent
  created := p.newUtxos
  mined := p.acceptedIds

namespace Ledger

/-- Signs a block over the accepted transactions and stores it as a child of `tip`. -/
def commitPending (ledger : Ledger) (key : SecretKey) (stamp : Stamp) (tip : Option BlockRecord)
    (p : Pending) : Except Error (Block × Ledger) :=
  match p.seal key stamp tip with
  | .error e => .error e
  | .ok block => (ledger.commit (p.commit tip block)).map fun ledger => (block, ledger)

/-- The transaction that mints `coins` to a public key. -/
def mintingTx (coins : UInt32) (owner : PublicKey) : Transaction :=
  .minting [⟨coins, (Script.payTo owner.keyHash).bytes⟩]

/-- Mints `coins` to `owner` in the first block. -/
def mintGenesis (ledger : Ledger) (key : SecretKey) (stamp : Stamp) (coins : UInt32)
    (owner : PublicKey) : Except Error (Block × Ledger) :=
  match ledger.tip? with
  | some tip => .error (.blockValidation (.chainNotEmpty tip.height))
  | none =>
    match Pending.new.add (mintingTx coins owner) with
    | .error e => .error e
    | .ok (_, p) => ledger.commitPending key stamp none p

/-- The block that pending transactions make: all that can be accepted, over as many passes as it
takes. -/
def assembled (ledger : Ledger) : Pending :=
  ledger.assemble ledger.tip? .new ledger.pending

/-- One mining cycle: a block over all that can be accepted, or none if that is nothing. -/
def generate (ledger : Ledger) (key : SecretKey) (stamp : Stamp) :
    Except Error (Option Block × Ledger) :=
  let p := ledger.assembled
  if p.isEmpty then .ok (none, ledger)
  else
    (ledger.commitPending key stamp ledger.tip? p).map fun (block, ledger) => (some block, ledger)

end Ledger

end UtxoLedger
