import UtxoLedger.Script.Machine

/-!
The digest that a signature of an input commits to. It covers every outpoint, every sequence number
and every output through three digests that the inputs share, and the script code and the amount that
the input spends.
-/

namespace UtxoLedger

/-- A number in the compact form that scripts are prefixed with: one byte, or a marker and two, four
or eight bytes. -/
def compactSize (n : Nat) : Bytes :=
  if n < 0xfd then [UInt8.ofNat n]
  else if n < UInt16.size then 0xfd :: littleEndian 2 n
  else if n < UInt32.size then 0xfe :: littleEndian 4 n
  else 0xff :: littleEndian 8 n

/-- The tag at the end of what is signed: the signature covers everything. -/
def sighashAll : Nat := 1

namespace Sighash

/-- The identifier of an outpoint, and its index in four bytes. -/
def outpointBytes (o : Outpoint) : Bytes :=
  o.txid.bytes.toList ++ littleEndian 4 o.index.toNat

def sequenceBytes (input : Input) : Bytes :=
  littleEndian 4 input.sequence.toNat

/-- The value of an output in eight bytes, and its script behind its length. -/
def outputBytes (output : Output) : Bytes :=
  littleEndian 8 output.value.toNat ++ compactSize output.script.length ++ output.script

end Sighash

/-- The digests that the inputs of one transfer share. -/
structure SharedDigests where
  prevouts : Digest
  sequences : Digest
  outputs : Digest

namespace Transfer

variable [CryptoSuite]

def sharedDigests (t : Transfer) : SharedDigests where
  prevouts := hash256 (t.inputs.flatMap fun input => Sighash.outpointBytes input.outpoint)
  sequences := hash256 (t.inputs.flatMap Sighash.sequenceBytes)
  outputs := hash256 (t.outputs.flatMap Sighash.outputBytes)

/-- The bytes whose digest is signed for one input of a transfer. -/
def sighashBytes (t : Transfer) (shared : SharedDigests) (version : UInt8) (input : Input)
    (scriptCode : Bytes) (amount : UInt64) : Bytes :=
  littleEndian 4 version.toNat ++ shared.prevouts.toList ++ shared.sequences.toList ++
    Sighash.outpointBytes input.outpoint ++ compactSize scriptCode.length ++ scriptCode ++
    littleEndian 8 amount.toNat ++ Sighash.sequenceBytes input ++ shared.outputs.toList ++
    littleEndian 4 t.lockTime.toNat ++ littleEndian 4 sighashAll

end Transfer

/-- A transfer with the digests that its inputs share, which are computed once. -/
structure Hasher where
  transfer : Transfer
  version : UInt8
  shared : SharedDigests

variable [CryptoSuite]

/-- The hasher of a transfer that is part of a transaction of the given version. -/
def Transfer.hasher (t : Transfer) (version : UInt8) : Hasher :=
  ⟨t, version, t.sharedDigests⟩

/-- Gives the digests to be signed for the inputs of a transfer. -/
def Hasher.digest (hasher : Hasher) : DigestSource := fun scriptCode index amount =>
  match hasher.transfer.inputs[index]? with
  | none => .error (.transactionValidation (.inputIndex index hasher.transfer.inputs.length))
  | some input =>
    .ok (hash256
      (hasher.transfer.sighashBytes hasher.shared hasher.version input scriptCode amount))

namespace Transaction

/-- The hasher of a transaction. Only transfers have one. -/
def hasher? (tx : Transaction) : Except Error Hasher :=
  match tx.body with
  | .transfer t => .ok (t.hasher tx.version)
  | _ => .error (.transactionValidation (.unsigned tx.kind))

/-- The digest to be signed for one input of a transaction. -/
def sighash (tx : Transaction) : DigestSource := fun scriptCode index amount => do
  (← tx.hasher?).digest scriptCode index amount

end Transaction

end UtxoLedger
