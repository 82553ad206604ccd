import UtxoLedger.Ledger.Mining

/-!
Assembly of a block by lookups: the same passes over pending transactions, but each confirmed output
that they ask for is looked up by itself, and between two lookups the ledger may have changed.
-/

namespace UtxoLedger

/-- A program that looks up confirmed outputs, one after the other. -/
inductive Lookups (α : Type) where
  | done (value : α)
  /-- Looks up an outpoint and goes on with what it finds there. -/
  | look (o : Outpoint) (next : Option Output → Lookups α)

namespace Lookups

variable {α β : Type}

/-- One program, and then another one with what it gives. -/
def bind : Lookups α → (α → Lookups β) → Lookups β
  | done value, f => f value
  | look o next, f => look o fun found => (next found).bind f

def map (f : α → β) (lookups : Lookups α) : Lookups β :=
  lookups.bind fun value => done (f value)

/-- What a program gives if nothing changes while it runs. -/
def under (find : Outpoint → Option Output) : Lookups α → α
  | done value => value
  | look o next => (next (find o)).under find

/-- The output that an input consumes: one that the block under assembly creates, or else one that is
looked up. -/
def resolve (p : Pending) (o : Outpoint) : Lookups (Except Error Output) :=
  if p.isSpent o then done (.error (.doubleSpend o))
  else
    match p.newUnspent? o with
    | some output => done (.ok output)
    | none => look o fun
      | some output => done (.ok output)
      | none => done (.error (.utxoNotFound o))

/-- The outputs that inputs consume, in order, up to the first one that is not there. -/
def resolveAll (p : Pending) : List Input → Lookups (Except Error (List Output))
  | [] => done (.ok [])
  | input :: rest => (resolve p input.outpoint).bind fun
    | .error e => done (.error e)
    | .ok output => (resolveAll p rest).map fun outputs => outputs.map (output :: ·)

variable [CryptoSuite]

/-- Checks a transaction for the block under assembly, which follows `tip`. -/
def validate (tip : Option BlockRecord) (p : Pending) (tx : Transaction) :
    Lookups (Except Error Unit) :=
  match tx.checkRules with
  | .error e => done (.error e)
  | .ok () =>
    match tx.body with
    | .genesis _ =>
      if tip.isSome ∨ ¬p.isEmpty then done (.error (.transactionValidation .genesisNotFirst))
      else done (.ok ())
    | .escrowOpen => done (.error (.transactionValidation .escrowNotMinable))
    | .transfer t =>
      if p.hasGenesis then done (.error (.transactionValidation .genesisNotAlone))
      else
        (resolveAll p t.inputs).map fun
          | .error e => .error e
          | .ok previous => t.checkSpending tx.version previous

/-- The block under assembly with one more transaction, if it can be accepted now. -/
def extend? (tip : Option BlockRecord) (p : Pending) (tx : Transaction) :
    Lookups (Option Pending) :=
  match tx.txid with
  | .error _ => done none
  | .ok id =>
    if p.contains id then done none
    else
      (validate tip p tx).map fun
        | .error _ => none
        | .ok () =>
          match p.add tx with
          | .error _ => none
          | .ok (_, p) => some p

/-- One pass. -/
def sweep (tip : Option BlockRecord) (p : Pending) :
    List Transaction → Lookups (Pending × List Transaction)
  | [] => done (p, [])
  | tx :: rest => (extend? tip p tx).bind fun
    | some p => sweep tip p rest
    | none => (sweep tip p rest).map fun (p, left) => (p, tx :: left)

/-- At most so many passes, until one accepts nothing. -/
def assembleFrom (tip : Option BlockRecord) :
    (passes : Nat) → Pending → List Transaction → Lookups Pending
  | 0, p, _ => done p
  | passes + 1, p, txs => (sweep tip p txs).bind fun (p, left) =>
    if left.length < txs.length then assembleFrom tip passes p left else done p

/-- All passes. Each that is followed by another one leaves less, so that there are no more than
transactions. -/
def assemble (tip : Option BlockRecord) (txs : List Transaction) : Lookups Pending :=
  assembleFrom tip txs.length .new txs

end Lookups

end UtxoLedger
