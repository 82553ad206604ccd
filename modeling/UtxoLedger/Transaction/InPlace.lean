import UtxoLedger.Transaction.Signing

/-!
Signing in place: the witnesses of a transfer are replaced when all of them have been made.
-/

namespace UtxoLedger

/-- A program over a transaction, which may stop with an error anywhere. -/
abbrev TransactionProgram :=
  EStateM Error Transaction

namespace Transaction

/-- The transaction with other witnesses, of which only a transfer has any. -/
def withWitnesses (tx : Transaction) (witnesses : List Witness) : Transaction :=
  match tx.body with
  | .transfer t => { tx with body := .transfer { t with witnesses } }
  | _ => tx

/-- Signs every input with `key`. `previous` holds the outputs that are spent, in the order of the
inputs. -/
def InPlace.sign [CryptoSuite] (key : SecretKey) (previous : List Output) :
    TransactionProgram Unit := do
  let tx ← get
  if previous.length ≠ tx.inputs.length then
    throw (.transactionValidation (.previousOutputs previous.length tx.inputs.length))
  let hasher ← MonadExcept.ofExcept tx.hasher?
  let witnesses ← MonadExcept.ofExcept (signInputsOnto key hasher.digest 0 [] previous)
  modify (·.withWitnesses witnesses)

end Transaction

end UtxoLedger
