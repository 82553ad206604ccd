import UtxoLedger.Ledger.Pending

/-!
The block under assembly in place: accepting a transaction changes its collections one after the other,
and nothing takes back what has been changed before a failure.
-/

namespace UtxoLedger

/-- A program over a block under assembly, which may stop with an error anywhere. -/
abbrev PendingProgram :=
  EStateM Error Pending

namespace Pending.InPlace

variable [CryptoSuite]

/-- Accepts a transaction; gives its identifier. -/
def add (tx : Transaction) : PendingProgram TxId := do
  let p ← get
  let size := p.size + Codec.size tx
  if p.limit < size then
    throw (.blockFull size p.limit)
  let id ← MonadExcept.ofExcept tx.txid
  if p.contains id then
    throw (.duplicateTransaction id)
  if let some conflict := tx.inpoints.find? p.isSpent then
    throw (.doubleSpend conflict)
  let outpoints ← MonadExcept.ofExcept tx.outpoints
  tx.inpoints.forM fun o => modify fun p =>
    { p with spent := if p.spent.contains o then p.spent else p.spent ++ [o] }
  outpoints.forM fun e => modify fun p => { p with created := p.created.insert e.1 e.2 }
  modify fun p => { p with accepted := p.accepted ++ [tx] }
  modify fun p => { p with acceptedIds := p.acceptedIds ++ [id] }
  modify fun p => { p with size := size }
  return id

/-- The block under assembly behind a transaction that is offered, as it is left when it accepts and
when it refuses. -/
def offered (p : Pending) (tx : Transaction) : Pending :=
  match (add tx).run p with
  | .ok _ after => after
  | .error _ after => after

/-- The block under assembly behind transactions that are offered, from an empty one. -/
def afterOffers (limit : Nat) (txs : List Transaction) : Pending :=
  txs.foldl offered (withLimit limit)

/-- The transactions among those offered that are accepted. -/
def taken (p : Pending) : List Transaction → List Transaction
  | [] => []
  | tx :: txs =>
    match (add tx).run p with
    | .ok _ after => tx :: taken after txs
    | .error _ after => taken after txs

end Pending.InPlace

end UtxoLedger
