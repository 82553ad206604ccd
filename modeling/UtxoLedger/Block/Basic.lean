import UtxoLedger.Transaction.Basic

/-!
Blocks: a signed header that names its parent and commits to a list of transactions.
-/

namespace UtxoLedger

/-- The identifier of a block. The zero identifier stands for "no block". -/
structure BlockId where
  bytes : Digest
  deriving DecidableEq, Inhabited

namespace BlockId

def typeName : String := "BlockId"

def zero : BlockId := ⟨.zero⟩

def isZero (id : BlockId) : Bool := id.bytes.isZero

def text (id : BlockId) : String := id.bytes.toHex

instance : ToString BlockId := ⟨text⟩

end BlockId

/-- A signature over the identifier of a block, in compact form. -/
structure BlockSignature where
  bytes : FixedBytes 64
  deriving DecidableEq, Inhabited

namespace BlockSignature

def typeName : String := "BlockSignature"

def zero : BlockSignature := ⟨.zero⟩

def isZero (signature : BlockSignature) : Bool := signature.bytes.isZero

def text (signature : BlockSignature) : String := signature.bytes.toHex

end BlockSignature

structure BlockHeader where
  version : UInt32
  previous : BlockId
  merkleRoot : Digest
  timestamp : UInt32
  signature : BlockSignature
  random : UInt64
  deriving DecidableEq, Inhabited

/-- A header with the transactions that it commits to. -/
structure Block where
  header : BlockHeader
  transactions : List Transaction
  deriving DecidableEq, Inhabited

namespace Block

def currentVersion : UInt32 := 1

/-- The bytes that a header takes. -/
def headerSize : Nat := 144

/-- The most bytes that the transactions of a block may take together. -/
def sizeLimit : Nat := 1024 * 1024

/-- The most transactions that can be written in one block; each takes at least eight bytes. -/
def maxTransactions : Nat := sizeLimit / 8

/-- Whether a block has no parent. -/
def isGenesis (block : Block) : Bool :=
  block.header.previous.isZero

end Block

end UtxoLedger
