import UtxoLedger.Crypto.Suite
import UtxoLedger.Script.Basic
import UtxoLedger.Script.Stack

/-!
The script machine: it runs the instructions of a script one after the other on a stack. Signatures
are checked against the digest of the input that is being spent.
-/

namespace UtxoLedger

/-- Gives the digest to be signed for a script code, the index of an input and the amount that the
input spends. -/
abbrev DigestSource := Bytes → Nat → UInt64 → Except Error Digest

/-- Which spending a script runs for. -/
structure SpendContext where
  digest : DigestSource
  index : Nat
  amount : UInt64

/-- The stack, and the bytes of the script that runs. -/
structure Machine where
  stack : Stack
  scriptCode : Bytes

namespace Machine

def initial : Machine :=
  ⟨.empty, []⟩

/-- A step of the machine. One that fails leaves what it did before. -/
abbrev Run := ExceptT Error (StateM Machine)

def Run.apply {α : Type} (step : Run α) (m : Machine) : Except Error α × Machine :=
  step m

/-- A step on the stack as a step of the machine. -/
def onStack {α : Type} (step : Stack.Step α) : Run α := fun m =>
  match step m.stack with
  | (.ok x, stack) => (.ok x, { m with stack })
  | (.error e, stack) => (.error (.scriptExecution e), { m with stack })

/-- Takes the top element and fails unless it is true. -/
def verify : Run Unit := do
  if ← onStack Stack.popBool then return ()
  else throw (.scriptExecution .verifyFailed)

variable [CryptoSuite]

/-- Whether a signature is valid for a public key and the spending that the script runs for. What
cannot be read as a key or as a signature is not valid. -/
def checkSignature (context : Option SpendContext) (scriptCode signature key : Bytes) :
    Except Error Bool :=
  match context with
  | none => .error (.scriptExecution .noSignatureContext)
  | some context =>
    match CryptoSuite.publicKey? key, CryptoSuite.der? signature with
    | some key, some signature => do
      let digest ← context.digest scriptCode context.index context.amount
      return CryptoSuite.verify key digest signature
    | _, _ => .ok false

def equal : Run Unit := do
  let a ← onStack Stack.pop
  let b ← onStack Stack.pop
  onStack (Stack.pushBool (a == b))

def step (context : Option SpendContext) (instruction : Instruction) : Run Unit :=
  match instruction.op with
  | .zero => onStack (Stack.pushNumber 0)
  | .data20 =>
    match instruction.immediate with
    | none => throw (.scriptExecution (.missingImmediate instruction.op))
    | some bytes => onStack (Stack.push bytes)
  | .verify => verify
  | .dup => onStack do Stack.push (← Stack.peek 0)
  | .equal => equal
  | .equalVerify => do
    equal
    verify
  | .hash160 => onStack do Stack.push (hash160 (← Stack.pop)).toList
  | .checkSig => do
    let key ← onStack Stack.pop
    let signature ← onStack Stack.pop
    let scriptCode := (← get).scriptCode
    let valid ← ExceptT.mk (pure (checkSignature context scriptCode signature key))
    onStack (Stack.pushBool valid)

/-- Runs a script; signatures then commit to its bytes. -/
def execute (context : Option SpendContext) (script : Script) : Run Unit := do
  modify fun m => { m with scriptCode := script.bytes }
  script.instructions.forM (step context)

/-- Puts the items of a witness on the stack, the last one on top. -/
def pushWitness (witness : Witness) : Run Unit :=
  witness.items.forM fun item => onStack (Stack.push item)

/-! ### Spending -/

/-- Takes the digest that a standard output script leaves, and the version below it, which has to be
zero. -/
def popProgram : Run KeyHash := do
  let program ← onStack Stack.pop
  let version ← onStack Stack.popNumber
  if version ≠ 0 then
    throw (.scriptExecution (.witnessVersion version))
  else
    match FixedBytes.ofList? program with
    | none => throw (.scriptExecution (.programLength program.length))
    | some hash => return hash

/-- Checks that one element is left and that it is true. -/
def conclude (context : SpendContext) : Run Unit := do
  let size := (← get).stack.size
  if size ≠ 1 then
    throw (.scriptExecution (.finalStack size))
  else if ← onStack Stack.popBool then
    return ()
  else
    throw (.invalidSignature (.input context.index))

/-- Runs the scripts of a spending and checks what they leave. -/
def spend (context : SpendContext) (locking unlocking : Script) (witness : Witness) :
    Run Unit := do
  pushWitness witness
  execute (some context) unlocking
  execute (some context) locking
  let hash ← popProgram
  execute (some context) (Script.spendCode hash)
  conclude context

end Machine

/-- Checks that a witness authorises spending an output locked by `locking`.

The locking script has to be standard and the witness has to have two items. The unlocking script and
the locking script run on top of them; the digest that the latter leaves selects the script code,
which runs next and has to leave one true element. -/
def authorize [CryptoSuite] (locking unlocking : Script) (witness : Witness)
    (context : SpendContext) : Except Error Unit :=
  match locking.checkStandard with
  | .error e => .error (.scriptParse e)
  | .ok () =>
    if witness.items.length ≠ 2 then
      .error (.scriptExecution (.witnessItems witness.items.length))
    else
      ((Machine.spend context locking unlocking witness).apply .initial).1

end UtxoLedger
