import UtxoLedger.Transaction.Sighash

/-!
Signing all inputs of a transfer with one key, and checking the authorisation of one input.
-/

namespace UtxoLedger

variable [CryptoSuite]

/-- The witness that spends `output` with the given index: a signature and the public key. -/
def signInput (key : SecretKey) (source : DigestSource) (index : Nat) (output : Output) :
    Except Error Witness :=
  match scriptCodeFor output.script with
  | .error e => .error (.scriptParse e)
  | .ok scriptCode => do
    let digest ← source scriptCode index output.value.toUInt64
    return ⟨[CryptoSuite.derBytes (CryptoSuite.sign key digest),
      CryptoSuite.publicKeyBytes key.publicKey]⟩

/-- The witnesses that spend `outputs`, the first of which has the given index, onto those made
before, last first. -/
def signInputsOnto (key : SecretKey) (source : DigestSource) (index : Nat) (done : List Witness) :
    List Output → Except Error (List Witness)
  | [] => .ok done.reverse
  | output :: rest => do
    let witness ← signInput key source index output
    signInputsOnto key source (index + 1) (witness :: done) rest

namespace Transaction

/-- The transaction with every input signed by `key`. `previous` holds the outputs that are spent, in
the order of the inputs. -/
def sign (tx : Transaction) (key : SecretKey) (previous : List Output) :
    Except Error Transaction :=
  if previous.length ≠ tx.inputs.length then
    .error (.transactionValidation (.previousOutputs previous.length tx.inputs.length))
  else
    match tx.body with
    | .transfer t => do
      let witnesses ← signInputsOnto key (t.hasher tx.version).digest 0 [] previous
      return { tx with body := .transfer { t with witnesses } }
    | _ => .error (.transactionValidation (.unsigned tx.kind))

/-- Checks that the input at `index` may spend `previous`, with its digests given by `source`. -/
def authorizeInput (source : DigestSource) (index : Nat) (input : Input) (witness : Witness)
    (previous : Output) : Except Error Unit :=
  match Script.parse previous.script, Script.parse input.scriptSig with
  | .error e, _ => .error (.scriptParse e)
  | .ok _, .error e => .error (.scriptParse e)
  | .ok locking, .ok unlocking =>
    authorize locking unlocking witness ⟨source, index, previous.value.toUInt64⟩

/-- Checks that the input at `index` of a transfer may spend `previous`. -/
def checkInput (tx : Transaction) (index : Nat) (previous : Output) : Except Error Unit :=
  match tx.inputs[index]?, tx.witnesses[index]? with
  | some input, some witness => do
    let hasher ← tx.hasher?
    authorizeInput hasher.digest index input witness previous
  | _, _ => .error (.transactionValidation (.inputIndex index tx.inputs.length))

/-- Checks inputs from number `index` on, each with its witness and the output that it spends. The
shortest list ends the check. -/
def authorizeInputs (source : DigestSource) (index : Nat) :
    List Input → List Witness → List Output → Except Error Unit
  | input :: inputs, witness :: witnesses, previous :: outputs => do
    authorizeInput source index input witness previous
    authorizeInputs source (index + 1) inputs witnesses outputs
  | _, _, _ => .ok ()

end Transaction

end UtxoLedger
