import UtxoLedger.Script.Basic

/-!
The rules that a transaction keeps by itself, whatever the ledger holds: its structure, and that all
of its scripts are of the kind that can be spent.
-/

namespace UtxoLedger

/-- The first outpoint that occurs among those before it; `seen` comes before the first one. -/
def firstRepeated? (seen : List Outpoint) : List Outpoint → Option Outpoint
  | [] => none
  | o :: rest => if o ∈ seen then some o else firstRepeated? (o :: seen) rest

/-- The rules for the body of a transaction. -/
def Body.checkStructure : Body → Except StructureViolation Unit
  | transfer t =>
    if t.inputs.isEmpty ∨ t.outputs.isEmpty then
      .error .noInputsOrOutputs
    else if t.witnesses.length ≠ t.inputs.length then
      .error (.witnessCount t.witnesses.length t.inputs.length)
    else
      match firstRepeated? [] (t.inputs.map (·.outpoint)) with
      | some outpoint => .error (.duplicateInpoint outpoint)
      | none => .ok ()
  | genesis outputs => if outputs.isEmpty then .error .genesisWithoutOutputs else .ok ()
  | escrowOpen => .ok ()

namespace Transaction

/-- Checks the structure of a transaction. -/
def checkStructure (tx : Transaction) : Except StructureViolation Unit :=
  if tx.version ≠ currentVersion then
    .error (.unsupportedVersion tx.version)
  else if tx.flags ≠ 0 then
    .error (.reservedFlags tx.flags)
  else
    match tx.body.checkStructure with
    | .error violation => .error violation
    | .ok () =>
      if maxAddressableOutputs < tx.outputs.length then
        .error (.tooManyOutputs tx.outputs.length)
      else .ok ()

/-- Checks the outputs from number `index` on: each script is a standard output script. -/
def checkOutputs (index : Nat) : List Output → Except StandardViolation Unit
  | [] => .ok ()
  | output :: rest =>
    match (Script.parse output.script).bind Script.checkStandard with
    | .error cause => .error (.output index cause)
    | .ok () => checkOutputs (index + 1) rest

/-- Checks the inputs from number `index` on: each script can be parsed. -/
def checkInputs (index : Nat) : List Input → Except StandardViolation Unit
  | [] => .ok ()
  | input :: rest =>
    match Script.parse input.scriptSig with
    | .error cause => .error (.scriptSig index cause)
    | .ok _ => checkInputs (index + 1) rest

/-- Checks the scripts of a transaction, outputs before inputs. -/
def checkStandard (tx : Transaction) : Except StandardViolation Unit :=
  match checkOutputs 0 tx.outputs with
  | .error violation => .error violation
  | .ok () => checkInputs 0 tx.inputs

/-- Both kinds of rules, structure first. -/
def checkRules (tx : Transaction) : Except Error Unit :=
  match tx.checkStructure with
  | .error violation => .error (.transactionValidation (.malformed violation))
  | .ok () =>
    match tx.checkStandard with
    | .error violation => .error (.transactionValidation (.nonstandard violation))
    | .ok () => .ok ()

end Transaction

end UtxoLedger
