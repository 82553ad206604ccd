import UtxoLedger.Block.Basic
import UtxoLedger.Script.Opcode

/-!
Everything that can go wrong, by cause. `Error.message` gives the wording.
-/

namespace UtxoLedger

/-! ### Wire -/

/-- Why bytes are not the encoding of a value. -/
inductive DecodeError where
  | truncated (field : String) (needed position available : Nat)
  /-- A varint stands for a number of more than 64 bits. -/
  | varintOverflow (field : String)
  /-- A varint ends in a group of zeros. -/
  | varintPadded (field : String)
  | tooMany (field : String) (count limit : Nat)
  | tooLong (field : String) (length limit : Nat)
  | trailing (count : Nat)
  | unsupportedVersion (version : UInt8)
  | unknownKind (tag : UInt8)
  | reservedFlags (flags : UInt16)
  | emptyBlock
  /-- A transaction inside a block cannot be decoded. -/
  | transaction (index : Nat) (cause : DecodeError)
  /-- The text of an identifier is not hexadecimal. -/
  | identifierText (typeName : String) (cause : HexError)
  | identifierLength (typeName : String) (expected actual : Nat)
  deriving DecidableEq, Repr

inductive EncodeError where
  | noRoom (field : String) (needed position capacity : Nat)
  | tooMany (field : String) (count limit : Nat)
  | tooLong (field : String) (length limit : Nat)
  /-- The bytes written are not as many as announced. -/
  | sizeMismatch (written announced : Nat)
  | unsupportedVersion (version : UInt8)
  | reservedFlags (flags : UInt16)
  | witnessCount (witnesses inputs : Nat)
  | emptyBlock
  /-- A transaction is too large for its length field. -/
  | transactionTooLarge (size : Nat)
  deriving DecidableEq, Repr

/-! ### Scripts -/

/-- Why bytes are not a script, or a script not a standard output. -/
inductive ScriptError where
  | unknownOpcode (code : UInt8) (position : Nat)
  | truncated (op : Opcode) (position needed available : Nat)
  | instructionCount (count : Nat)
  | missingVersion
  | missingProgram
  | programLength
  deriving DecidableEq, Repr

/-- Why running a script fails. -/
inductive ExecutionError where
  | numberTooLong (length limit : Nat)
  | numberNotMinimal (bytes : Bytes)
  | stackOverflow (size : Nat)
  | stackUnderflow
  | stackDepth (depth size : Nat)
  | missingImmediate (op : Opcode)
  | verifyFailed
  | noSignatureContext
  | witnessItems (count : Nat)
  | witnessVersion (version : Int)
  | programLength (length : Nat)
  | finalStack (size : Nat)
  deriving DecidableEq, Repr

inductive SignatureError where
  | malformed
  | block (id : BlockId)
  | input (index : Nat)
  deriving DecidableEq

/-! ### Transactions and blocks -/

/-- The first structural rule that a transaction breaks. -/
inductive StructureViolation where
  | unsupportedVersion (version : UInt8)
  | reservedFlags (flags : UInt16)
  | noInputsOrOutputs
  | witnessCount (witnesses inputs : Nat)
  | duplicateInpoint (outpoint : Outpoint)
  | genesisWithoutOutputs
  | tooManyOutputs (count : Nat)
  deriving DecidableEq

/-- The first script of a transaction that is not of the standard kind. -/
inductive StandardViolation where
  | output (index : Nat) (cause : ScriptError)
  | scriptSig (index : Nat) (cause : ScriptError)
  deriving DecidableEq, Repr

inductive TransactionError where
  | malformed (violation : StructureViolation)
  | nonstandard (violation : StandardViolation)
  | outputsNotAddressable (count : Nat)
  | inputIndex (index inputs : Nat)
  | unsigned (kind : TxKind)
  | previousOutputs (given inputs : Nat)
  /-- A genesis transaction is offered after something else. -/
  | genesisNotFirst
  | escrowNotMinable
  /-- A transfer is offered to a block that holds the genesis transaction. -/
  | genesisNotAlone
  | unbalanced (outputs inputs : Nat)
  | noRules (kind : TxKind)
  | genesisPosition (index : Nat) (block : BlockId) (height : Nat)
  | alreadySpent (outpoint : Outpoint)
  | noSuchOutput (outpoint : Outpoint)
  | unequalValues (inputs outputs : Nat)
  deriving DecidableEq

inductive BlockError where
  | emptyMerkleTree
  | merkleMismatch (header computed : Digest)
  | alreadyStored (id : BlockId)
  | notFirst (parent : BlockId) (height : Nat)
  | doesNotExtend (id : BlockId) (height : Nat) (tip : BlockId) (tipHeight : Nat)
  | chainNotEmpty (height : Nat)
  | secondGenesis
  | parentNotFound (parent : BlockId)
  | alreadyPresent (id : BlockId)
  | alreadyInDatabase (id : BlockId)
  | notFound (id : BlockId)
  | transactionIndex (index : Nat) (block : BlockId) (count : Nat)
  deriving DecidableEq

/-! ### Addresses -/

/-- Why a text is not an address. -/
inductive AddressError where
  | invalidCharacter (code : UInt8) (position : Nat)
  | nonAscii (position : Nat)
  | tooShort
  | checksum (actual expected : Bytes)
  | length (expected actual : Nat)
  | unknownVersion (version : UInt8)
  | witnessVersion (version : UInt8)
  | reservedByte
  deriving DecidableEq, Repr

/-! ### All together -/

/-- Any failure of the library. -/
inductive Error where
  | decode (cause : DecodeError)
  | encode (cause : EncodeError)
  | scriptParse (cause : ScriptError)
  | scriptExecution (cause : ExecutionError)
  | invalidSignature (cause : SignatureError)
  | transactionValidation (cause : TransactionError)
  /-- The outpoint is consumed by the block under assembly. -/
  | doubleSpend (outpoint : Outpoint)
  | duplicateTransaction (id : TxId)
  | blockFull (size limit : Nat)
  | utxoNotFound (outpoint : Outpoint)
  | blockValidation (cause : BlockError)
  | utxoExists (outpoint : Outpoint)
  | address (cause : AddressError)
  deriving DecidableEq

/-! ### Wording -/

namespace DecodeError

def heading : String := "Decode failed: "

def message : DecodeError → String
  | truncated field needed position available =>
    s!"truncated {field}: need {needed} bytes at offset {position}, have {available}"
  | varintOverflow field => s!"{field} overflows u64"
  | varintPadded field => s!"non-canonical varint for {field}"
  | tooMany field count limit => s!"too many {field}: {count} > {limit}"
  | tooLong field length limit => s!"{field} too long: {length} > {limit} bytes"
  | trailing count => s!"{count} trailing bytes after value"
  | unsupportedVersion version => s!"unsupported transaction version {version.toNat}"
  | unknownKind tag => s!"unknown transaction type {Text.hexLiteral 2 tag.toNat}"
  | reservedFlags flags => s!"reserved flags set: {Text.hexLiteral 4 flags.toNat}"
  | emptyBlock => "block without transactions"
  | transaction index cause => s!"transaction {index}: {heading}{cause.message}"
  | identifierText typeName cause => s!"{typeName}: {cause.message}"
  | identifierLength typeName expected actual =>
    s!"{typeName}: expected {expected} bytes, got {actual}"

end DecodeError

namespace EncodeError

def message : EncodeError → String
  | noRoom field needed position capacity =>
    s!"buffer too small for {field}: need {needed} bytes at offset {position}, have {capacity}"
  | tooMany field count limit => s!"too many {field}: {count} > {limit}"
  | tooLong field length limit => s!"{field} too long: {length} > {limit} bytes"
  | sizeMismatch written announced => s!"wrote {written} bytes but size() reported {announced}"
  | unsupportedVersion version => s!"unsupported transaction version {version.toNat}"
  | reservedFlags flags => s!"reserved flags set: {Text.hexLiteral 4 flags.toNat}"
  | witnessCount witnesses inputs => s!"{witnesses} witnesses for {inputs} inputs"
  | emptyBlock => "block without transactions"
  | transactionTooLarge size => s!"transaction of {size} bytes"

end EncodeError

namespace ScriptError

def message : ScriptError → String
  | unknownOpcode code position =>
    s!"unknown opcode {Text.hexLiteral 2 code.toNat} at offset {position}"
  | truncated op position needed available =>
    s!"{op.name} at offset {position} needs {needed} bytes, {available} left"
  | instructionCount count => s!"standard output has 2 instructions, found {count}"
  | missingVersion => "standard output must begin with OP_0"
  | missingProgram => "standard output must end with OP_DATA_20"
  | programLength => "OP_DATA_20 immediate must be 20 bytes"

end ScriptError

namespace ExecutionError

def message : ExecutionError → String
  | numberTooLong length limit => s!"script number of {length} bytes exceeds {limit}"
  | numberNotMinimal bytes => s!"non-minimal script number {Hex.encode bytes}"
  | stackOverflow size => s!"stack overflow: {size} elements"
  | stackUnderflow => "stack underflow"
  | stackDepth depth size => s!"stack depth {depth} out of range for {size} elements"
  | missingImmediate op => s!"{op.name} without immediate"
  | verifyFailed => "OP_VERIFY failed; top stack element is not truthy"
  | noSignatureContext => "OP_CHECKSIG without a transaction to sign"
  | witnessItems count => s!"P2WPKH witness needs 2 items, found {count}"
  | witnessVersion version => s!"unsupported witness version {version}"
  | programLength length => s!"witness program of {length} bytes"
  | finalStack size => s!"expected 1 stack element after execution, found {size}"

end ExecutionError

namespace SignatureError

def message : SignatureError → String
  | malformed => "malformed signature"
  | block id => s!"block {id.text}: signature failed verification"
  | input index => s!"signature for input {index} does not verify"

end SignatureError

namespace StructureViolation

def message : StructureViolation → String
  | unsupportedVersion version => s!"Unsupported version {version.toNat}"
  | reservedFlags flags => s!"Reserved flags set: {flags.toNat}"
  | noInputsOrOutputs => "Empty inputs or outputs"
  | witnessCount witnesses inputs => s!"{witnesses} witnesses for {inputs} inputs"
  | duplicateInpoint outpoint => s!"Duplicate inpoint {outpoint.text}"
  | genesisWithoutOutputs => "Genesis without outputs"
  | tooManyOutputs count => s!"Too many outputs: {count}"

end StructureViolation

namespace StandardViolation

def message : StandardViolation → String
  | output index cause => s!"Non-standard output {index}: Script parse failed: {cause.message}"
  | scriptSig index cause => s!"Unparseable script_sig {index}: Script parse failed: {cause.message}"

end StandardViolation

namespace TransactionError

def message : TransactionError → String
  | malformed violation => violation.message
  | nonstandard violation => violation.message
  | outputsNotAddressable count => s!"{count} outputs cannot be addressed by a u8 index"
  | inputIndex index inputs => s!"input index {index} out of range for {inputs} inputs"
  | unsigned kind => s!"{kind.name} transactions carry no signatures"
  | previousOutputs given inputs => s!"{given} previous outputs for {inputs} inputs"
  | genesisNotFirst => "only the first block can hold a genesis transaction"
  | escrowNotMinable => "escrow transactions cannot be mined"
  | genesisNotAlone => "the genesis transaction must be alone in its block"
  | unbalanced outputs inputs => s!"output sum {outputs} does not match input sum {inputs}"
  | noRules kind => s!"no validation rules for {kind.name} transactions"
  | genesisPosition index block height =>
    s!"genesis transaction at index {index} of block {block.text} (height {height}); " ++
      "only the sole transaction of the first block may mint"
  | alreadySpent outpoint => s!"input {outpoint.text} already spent"
  | noSuchOutput outpoint =>
    s!"input index out of range for previous transaction: {outpoint.text}"
  | unequalValues inputs outputs =>
    s!"value of inputs ({inputs}) does not equal value of outputs ({outputs})"

end TransactionError

namespace BlockError

def message : BlockError → String
  | emptyMerkleTree => "Cannot calculate merkle root for empty transaction list"
  | merkleMismatch header computed =>
    s!"merkle root mismatch: header {header.toHex}, computed {computed.toHex}"
  | alreadyStored id => s!"block {id.text} already stored"
  | notFirst parent height =>
    "first block must have a zero parent and height 0, got parent " ++
      s!"{parent.text} height {height}"
  | doesNotExtend id height tip tipHeight =>
    s!"block {id.text} at height {height} does not extend tip {tip.text} " ++
      s!"at height {tipHeight}"
  | chainNotEmpty height => s!"chain already has blocks up to height {height}"
  | secondGenesis => "genesis blocks must be height #0"
  | parentNotFound parent => s!"parent block {parent.text} not found"
  | alreadyPresent id => s!"block {id.text} already present"
  | alreadyInDatabase id => s!"block {id.text} already present in database"
  | notFound id => s!"block {id.text} not found"
  | transactionIndex index block count =>
    s!"transaction index {index} out of range for block {block.text} with {count} transactions"

end BlockError

namespace AddressError

def message : AddressError → String
  | invalidCharacter code position =>
    "provided string contained invalid character " ++
      s!"{Text.quoteChar (Char.ofNat code.toNat)} at byte {position}"
  | nonAscii position => s!"provided string contained non-ascii character starting at byte {position}"
  | tooShort => "check-encoded address malformed or too short"
  | checksum actual expected =>
    s!"checksum failed (got {Hex.encode actual}, expected {Hex.encode expected})"
  | length expected actual => s!"expected {expected} bytes, got {actual}"
  | unknownVersion version => s!"unknown version {Text.hexLiteral 2 version.toNat}"
  | witnessVersion version => s!"unexpected witness program version {version.toNat}"
  | reservedByte => "reserved byte is set"

end AddressError

namespace Error

def message : Error → String
  | decode cause => s!"{DecodeError.heading}{cause.message}"
  | encode cause => s!"Encode failed: {cause.message}"
  | scriptParse cause => s!"Script parse failed: {cause.message}"
  | scriptExecution cause => s!"Script execution failed: {cause.message}"
  | invalidSignature cause => s!"Invalid signature: {cause.message}"
  | transactionValidation cause => s!"Transaction validation failed: {cause.message}"
  | doubleSpend outpoint => s!"Outpoint already spent in pending block: {outpoint.text}"
  | duplicateTransaction id => s!"Transaction already accepted: {id.text}"
  | blockFull size limit => s!"Block size limit exceeded: {size} > {limit}"
  | utxoNotFound outpoint => s!"UTXO not found: {outpoint.text}"
  | blockValidation cause => s!"Block validation failed: {cause.message}"
  | utxoExists outpoint => s!"Storage error: utxo {outpoint.text} already exists"
  | address cause => s!"Invalid address: {cause.message}"

def kindName : Error → String
  | decode _ => "Decode"
  | encode _ => "Encode"
  | scriptParse _ => "ScriptParse"
  | scriptExecution _ => "ScriptExecution"
  | invalidSignature _ => "InvalidSignature"
  | transactionValidation _ => "TransactionValidation"
  | doubleSpend _ => "DoubleSpend"
  | duplicateTransaction _ => "DuplicateTransaction"
  | blockFull _ _ => "BlockFull"
  | utxoNotFound _ => "UtxoNotFound"
  | blockValidation _ => "BlockValidation"
  | utxoExists _ => "Storage"
  | address _ => "Address"

/-- Whether a refusal is only about room in the block under assembly, so that the transaction may
still fit into a later one. -/
def isCapacity : Error → Bool
  | blockFull _ _ => true
  | _ => false

end Error

end UtxoLedger
