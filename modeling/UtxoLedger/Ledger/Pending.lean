import UtxoLedger.Table
import UtxoLedger.Block.Wire

/-!
The block under assembly: the transactions accepted so far, what they consume and what they create.
It refuses what would overflow the block, what it holds already, and what would consume an outpoint
for the second time.
-/

namespace UtxoLedger

/-- The block under assembly. -/
structure Pending where
  limit : Nat
  size : Nat
  /-- The outpoints consumed, each once, in the order in which they were first consumed. -/
  spent : List Outpoint
  /-- The outputs created, whether consumed since or not. -/
  created : Table Outpoint Output
  accepted : List Transaction
  /-- The identifiers of the accepted transactions in order. -/
  acceptedIds : List TxId

namespace Pending

/-- Nothing accepted yet, with room for `limit` bytes. -/
def withLimit (limit : Nat) : Pending :=
  ⟨limit, 0, [], .empty, [], []⟩

/-- Nothing accepted yet, with the room of a block. -/
def new : Pending :=
  withLimit Block.sizeLimit

def isSpent (p : Pending) (o : Outpoint) : Bool :=
  p.spent.contains o

def contains (p : Pending) (id : TxId) : Bool :=
  p.acceptedIds.contains id

/-- The output at an outpoint, if an accepted transaction creates it and none consumes it. -/
def newUnspent? (p : Pending) (o : Outpoint) : Option Output :=
  if p.isSpent o then none else p.created.get? o

/-- The consumed outpoints that existed before this block. -/
def confirmedSpent (p : Pending) : List Outpoint :=
  p.spent.filter fun o => !p.created.contains o

/-- The outputs created and not consumed, in the order of creation. -/
def newUtxos (p : Pending) : List (Outpoint × Output) :=
  p.created.entries.filter fun e => !p.isSpent e.1

def count (p : Pending) : Nat :=
  p.accepted.length

def isEmpty (p : Pending) : Bool :=
  p.accepted.isEmpty

def hasGenesis (p : Pending) : Bool :=
  p.accepted.any Transaction.isGenesis

/-- The outpoints of `more` that are not there yet, behind those that are. -/
def consume (spent : List Outpoint) (more : List Outpoint) : List Outpoint :=
  more.foldl (fun spent o => if spent.contains o then spent else spent ++ [o]) spent

/-- The block with one more transaction, whose identifier, size and outputs are given. -/
def accept (p : Pending) (tx : Transaction) (id : TxId) (outpoints : List (Outpoint × Output)) :
    Pending :=
  { p with
    size := p.size + Codec.size tx
    spent := consume p.spent tx.inpoints
    created := p.created.insertMany outpoints
    accepted := p.accepted ++ [tx]
    acceptedIds := p.acceptedIds ++ [id] }

/-- Accepts a transaction, or tells why not. -/
def add [CryptoSuite] (p : Pending) (tx : Transaction) : Except Error (TxId × Pending) :=
  let size := p.size + Codec.size tx
  if p.limit < size then .error (.blockFull size p.limit)
  else
    match tx.txid with
    | .error e => .error e
    | .ok id =>
      if p.contains id then .error (.duplicateTransaction id)
      else
        match tx.inpoints.find? p.isSpent with
        | some conflict => .error (.doubleSpend conflict)
        | none =>
          match tx.outpoints with
          | .error e => .error e
          | .ok outpoints => .ok (id, p.accept tx id outpoints)

end Pending

end UtxoLedger
