import UtxoLedger.Sum
import UtxoLedger.Text.Hex

/-!
Transactions: what they spend, what they create, and what authorises the spending. Transactions are
named by a 256-bit identifier, and their outputs by the identifier and a one-byte index.
-/

namespace UtxoLedger

/-! ### Identifiers -/

structure TxId where
  bytes : Digest
  deriving DecidableEq, Inhabited

namespace TxId

def typeName : String := "TxId"

/-- The identifier of 32 zero bytes, which no transaction is expected to have. -/
def zero : TxId := ⟨.zero⟩

def isZero (id : TxId) : Bool := id.bytes.isZero

def text (id : TxId) : String := id.bytes.toHex

instance : ToString TxId := ⟨text⟩

end TxId

/-- The name of one output of one transaction. -/
structure Outpoint where
  txid : TxId
  index : UInt8
  deriving DecidableEq, Inhabited

namespace Outpoint

def text (o : Outpoint) : String :=
  s!"{o.txid.text}:{o.index.toNat}"

instance : ToString Outpoint := ⟨text⟩

/-- The 33 bytes of an outpoint: identifier, then index. -/
def key (o : Outpoint) : FixedBytes 33 :=
  ⟨o.txid.bytes.toList ++ [o.index], by simp⟩

/-- The outpoint whose key is given. -/
def ofKey (key : FixedBytes 33) : Outpoint where
  txid := ⟨key.toList.take 32, by simp⟩
  index := key.toList.getLastD 0

/-- An outpoint is told by its key. -/
@[simp]
theorem ofKey_key (o : Outpoint) : ofKey o.key = o := by
  obtain ⟨⟨txid⟩, index⟩ := o
  have htake : (txid.toList ++ [index]).take 32 = txid.toList :=
    List.take_left' txid.length_toList
  have hlast : (txid.toList ++ [index]).getLastD 0 = index := List.getLastD_concat
  simp only [ofKey, key, htake, hlast]

/-- Any 33 bytes are the key of an outpoint: a table of outpoints holds what a table of keys holds. -/
@[simp]
theorem key_ofKey (key : FixedBytes 33) : (ofKey key).key = key := by
  have hne : key.toList ≠ [] := List.ne_nil_of_length_pos (by simp)
  have htake : key.toList.take 32 = key.toList.dropLast := by
    rw [List.dropLast_eq_take, key.length_toList]
  have hlast : key.toList.getLastD 0 = key.toList.getLast hne := by
    rw [List.getLastD_eq_getLast?, List.getLast?_eq_some_getLast hne, Option.getD_some]
  ext1
  show key.toList.take 32 ++ [key.toList.getLastD 0] = key.toList
  rw [htake, hlast, List.dropLast_concat_getLast]

end Outpoint

/-! ### Parts of a transaction -/

/-- An amount, locked by a script. -/
structure Output where
  value : UInt32
  script : Bytes
  deriving DecidableEq, Inhabited

/-- Consumes one output. -/
structure Input where
  outpoint : Outpoint
  scriptSig : Bytes
  sequence : UInt32
  deriving DecidableEq, Inhabited

/-- The stack that authorises the input at the same place. -/
structure Witness where
  items : List Bytes
  deriving DecidableEq, Inhabited

/-- Moves value from the outputs it consumes to the outputs it creates. -/
structure Transfer where
  inputs : List Input
  outputs : List Output
  witnesses : List Witness
  lockTime : UInt32
  deriving DecidableEq, Inhabited

/-- What a transaction does. -/
inductive Body where
  | transfer (transfer : Transfer)
  /-- Creates outputs out of nothing. -/
  | genesis (outputs : List Output)
  /-- Reserved; it carries nothing. -/
  | escrowOpen
  deriving DecidableEq, Inhabited

/-- A transaction. Only version 1 without flags can be written. -/
structure Transaction where
  version : UInt8
  flags : UInt16
  body : Body
  deriving DecidableEq, Inhabited

/-! ### Kinds -/

inductive TxKind where
  | transfer
  | genesis
  | escrowOpen
  deriving DecidableEq, Repr

namespace TxKind

def tag : TxKind → UInt8
  | transfer => 1
  | genesis => 2
  | escrowOpen => 3

def ofTag? (tag : UInt8) : Option TxKind :=
  match tag.toNat with
  | 1 => some transfer
  | 2 => some genesis
  | 3 => some escrowOpen
  | _ => none

def name : TxKind → String
  | transfer => "Transfer"
  | genesis => "Genesis"
  | escrowOpen => "EscrowOpen"

theorem ofTag?_tag (kind : TxKind) : ofTag? kind.tag = some kind := by
  cases kind <;> rfl

end TxKind

def Body.kind : Body → TxKind
  | transfer _ => .transfer
  | genesis _ => .genesis
  | escrowOpen => .escrowOpen

namespace Transaction

/-- The only version that can be written. -/
def currentVersion : UInt8 := 1

/-- The transaction of the current version, without flags, that does what `body` says. -/
def ofBody (body : Body) : Transaction :=
  ⟨currentVersion, 0, body⟩

/-- An unsigned transfer: one empty witness for each input. -/
def unsigned (inputs : List Input) (outputs : List Output) (lockTime : UInt32) : Transaction :=
  ofBody (.transfer ⟨inputs, outputs, inputs.map fun _ => ⟨[]⟩, lockTime⟩)

def minting (outputs : List Output) : Transaction :=
  ofBody (.genesis outputs)

def kind (tx : Transaction) : TxKind :=
  tx.body.kind

def isGenesis (tx : Transaction) : Bool :=
  match tx.body with
  | .genesis _ => true
  | _ => false

def inputs (tx : Transaction) : List Input :=
  match tx.body with
  | .transfer t => t.inputs
  | _ => []

def outputs (tx : Transaction) : List Output :=
  match tx.body with
  | .transfer t => t.outputs
  | .genesis outputs => outputs
  | .escrowOpen => []

def witnesses (tx : Transaction) : List Witness :=
  match tx.body with
  | .transfer t => t.witnesses
  | _ => []

/-- The outpoints that a transaction consumes, in the order of its inputs. -/
def inpoints (tx : Transaction) : List Outpoint :=
  tx.inputs.map (·.outpoint)

end Transaction

def totalValue (outputs : List Output) : Nat :=
  sumOf (fun output => output.value.toNat) outputs

def Transaction.outputValue (tx : Transaction) : Nat :=
  totalValue tx.outputs

/-! ### Limits -/

def maxInputs : Nat := 512

def maxOutputs : Nat := 512

/-- The most items in one witness that can be written. -/
def maxWitnessItems : Nat := 512

/-- The longest script or witness item that can be written. -/
def maxFieldLength : Nat := 520

/-- How many outputs an index of one byte tells apart. -/
def maxAddressableOutputs : Nat := 256

/-- The sequence number of an input that is final. -/
def finalSequence : UInt32 := 0xffffffff

end UtxoLedger
