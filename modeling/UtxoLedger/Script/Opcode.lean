/-!
The operations of the script language. Each has a byte code and a fixed total length.
-/

namespace UtxoLedger

/-- An operation of the script language. -/
inductive Opcode where
  /-- Pushes the number zero. -/
  | zero
  /-- Pushes the twenty bytes that follow it. -/
  | data20
  /-- Fails unless the top element is true. -/
  | verify
  /-- Repeats the top element. -/
  | dup
  /-- Compares the two top elements. -/
  | equal
  /-- Compares the two top elements and fails unless they agree. -/
  | equalVerify
  /-- Replaces the top element by its 160-bit digest. -/
  | hash160
  /-- Checks a signature against a public key. -/
  | checkSig
  deriving DecidableEq, Repr

namespace Opcode

/-- The byte that stands for the operation. -/
def code : Opcode → UInt8
  | zero => 0x00
  | data20 => 0x14
  | verify => 0x69
  | dup => 0x76
  | equal => 0x87
  | equalVerify => 0x88
  | hash160 => 0xa9
  | checkSig => 0xac

/-- The name of the operation. -/
def name : Opcode → String
  | zero => "OP_0"
  | data20 => "OP_DATA_20"
  | verify => "OP_VERIFY"
  | dup => "OP_DUP"
  | equal => "OP_EQUAL"
  | equalVerify => "OP_EQUALVERIFY"
  | hash160 => "OP_HASH160"
  | checkSig => "OP_CHECKSIG"

/-- The bytes that an instruction takes, its code included. -/
def length : Opcode → Nat
  | data20 => 21
  | _ => 1

/-- The operation that a byte stands for. -/
def ofCode? (code : UInt8) : Option Opcode :=
  match code.toNat with
  | 0x00 => some zero
  | 0x14 => some data20
  | 0x69 => some verify
  | 0x76 => some dup
  | 0x87 => some equal
  | 0x88 => some equalVerify
  | 0xa9 => some hash160
  | 0xac => some checkSig
  | _ => none

@[simp]
theorem ofCode?_code (op : Opcode) : ofCode? op.code = some op := by
  cases op <;> rfl

end Opcode

end UtxoLedger
