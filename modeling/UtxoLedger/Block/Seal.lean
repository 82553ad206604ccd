import UtxoLedger.Block.Wire
import UtxoLedger.Block.Merkle

/-!
What ties a block together: its identifier, the Merkle root of its transactions, and the signature
over the identifier.
-/

namespace UtxoLedger

variable [CryptoSuite]

/-- The identifier of a block: the digest of every field of its header but the signature. -/
def BlockHeader.id (header : BlockHeader) : BlockId :=
  ⟨hash256 (littleEndian 4 header.version.toNat ++ header.previous.bytes.toList ++
    header.merkleRoot.toList ++ littleEndian 4 header.timestamp.toNat ++
    littleEndian 8 header.random.toNat)⟩

namespace Block

/-- The identifier of a block. -/
def id (block : Block) : BlockId :=
  block.header.id

/-- The identifiers of the transactions, in order. -/
def txids (block : Block) : Except Error (List TxId) :=
  block.transactions.mapM Transaction.txid

/-- The Merkle root of the transactions. -/
def merkleRoot (block : Block) : Except Error Digest := do
  Merkle.root (← block.txids)

/-- An unsigned block over `transactions`, with their Merkle root. -/
def make (previous : BlockId) (transactions : List Transaction) (timestamp : UInt32)
    (random : UInt64) : Except Error Block := do
  let header : BlockHeader := ⟨currentVersion, previous, .zero, timestamp, .zero, random⟩
  let root ← merkleRoot ⟨header, transactions⟩
  return ⟨{ header with merkleRoot := root }, transactions⟩

/-- The block with a signature made with `key`. -/
def sign (block : Block) (key : SecretKey) : Block :=
  let signature := CryptoSuite.compactBytes (CryptoSuite.sign key block.id.bytes)
  { block with header := { block.header with signature := ⟨signature⟩ } }

/-- Checks the signature of a block against a public key. -/
def checkSignature (block : Block) (key : PublicKey) : Except Error Unit :=
  match CryptoSuite.compact? block.header.signature.bytes with
  | none => .error (.invalidSignature .malformed)
  | some signature =>
    if CryptoSuite.verify key block.id.bytes signature then .ok ()
    else .error (.invalidSignature (.block block.id))

/-- Checks that the header commits to exactly these transactions. -/
def checkMerkleRoot (block : Block) : Except Error Unit := do
  let computed ← block.merkleRoot
  if computed = block.header.merkleRoot then .ok ()
  else .error (.blockValidation (.merkleMismatch block.header.merkleRoot computed))

end Block

end UtxoLedger
