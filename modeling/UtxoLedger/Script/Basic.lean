import UtxoLedger.Error

/-!
Scripts: flat lists of instructions. The standard output script names a public key by its digest, and
the script code is what runs, and what a signature commits to, when such an output is spent.
-/

namespace UtxoLedger

/-- An operation with the bytes that it pushes, if any. -/
structure Instruction where
  op : Opcode
  immediate : Option Bytes
  deriving DecidableEq, Repr

namespace Instruction

/-- An operation without bytes of its own. -/
def plain (op : Opcode) : Instruction :=
  ⟨op, none⟩

/-- Pushes a digest. -/
def push (hash : KeyHash) : Instruction :=
  ⟨.data20, some hash.toList⟩

def bytes (instruction : Instruction) : Bytes :=
  instruction.op.code :: instruction.immediate.getD []

def text (instruction : Instruction) : String :=
  match instruction.immediate with
  | some bytes => s!"{instruction.op.name} 0x{Hex.encode bytes}"
  | none => instruction.op.name

end Instruction

structure Script where
  instructions : List Instruction
  deriving DecidableEq, Repr

namespace Script

def bytes (script : Script) : Bytes :=
  script.instructions.flatMap Instruction.bytes

def text (script : Script) : String :=
  " ".intercalate (script.instructions.map Instruction.text)

/-- Reads instructions from offset `position` on; `done` holds those before it, last first. -/
def parseFrom (position : Nat) (done : List Instruction) (bytes : Bytes) :
    Except ScriptError Script :=
  match bytes with
  | [] => .ok ⟨done.reverse⟩
  | code :: rest =>
    match Opcode.ofCode? code with
    | none => .error (.unknownOpcode code position)
    | some op =>
      let immediate := rest.take (op.length - 1)
      if immediate.length < op.length - 1 then
        .error (.truncated op position op.length (rest.length + 1))
      else
        let instruction := ⟨op, if op.length = 1 then none else some immediate⟩
        parseFrom (position + op.length) (instruction :: done) (rest.drop (op.length - 1))
termination_by bytes.length
decreasing_by
  simp only [List.length_drop, List.length_cons]
  omega

/-- Reads a script from all of its bytes. -/
def parse (bytes : Bytes) : Except ScriptError Script :=
  parseFrom 0 [] bytes

/-! ### Standard shapes -/

/-- The standard output script for a public key with the given digest. -/
def payTo (hash : KeyHash) : Script :=
  ⟨[.plain .zero, .push hash]⟩

/-- What runs when an output that names `hash` is spent. -/
def spendCode (hash : KeyHash) : Script :=
  ⟨[.plain .dup, .plain .hash160, .push hash, .plain .equalVerify, .plain .checkSig]⟩

/-- The digest that a standard output script names. -/
def program (script : Script) : Except ScriptError KeyHash :=
  match script.instructions with
  | [version, program] =>
    if version ≠ .plain .zero then .error .missingVersion
    else if program.op ≠ .data20 then .error .missingProgram
    else
      match program.immediate.bind FixedBytes.ofList? with
      | some hash => .ok hash
      | none => .error .programLength
  | instructions => .error (.instructionCount instructions.length)

/-- Checks that a script is a standard output script. -/
def checkStandard (script : Script) : Except ScriptError Unit :=
  script.program.map fun _ => ()

end Script

/-- The script code that a signature commits to when an output with the given script is spent. -/
def scriptCodeFor (script : Bytes) : Except ScriptError Bytes := do
  let program ← (← Script.parse script).program
  return (Script.spendCode program).bytes

end UtxoLedger
