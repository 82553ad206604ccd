import UtxoLedger.Transaction.Wire

/-!
The encoding of headers and blocks. A block is its header and its counted transactions, each behind
its length in four bytes.
-/

namespace UtxoLedger

open Wire

instance : Codec BlockHeader where
  size _ := Block.headerSize
  encode header := do
    Writer.u32 header.version
    Writer.bytes header.previous.bytes.toList
    Writer.bytes header.merkleRoot.toList
    Writer.u32 header.timestamp
    Writer.bytes header.signature.bytes.toList
    Writer.u64 header.random
  decode := do
    let version ← Reader.u32 "block version"
    let previous ← Reader.fixed 32 "previous block"
    let merkleRoot ← Reader.fixed 32 "merkle root"
    let timestamp ← Reader.u32 "timestamp"
    let signature ← Reader.fixed 64 "block signature"
    let random ← Reader.u64 "random"
    return ⟨version, ⟨previous⟩, merkleRoot, timestamp, ⟨signature⟩, random⟩

namespace Block

/-- Writes a transaction behind its length. -/
def encodeTransaction (tx : Transaction) : Write :=
  let size := Codec.size tx
  if UInt32.size ≤ size then throw (.transactionTooLarge size)
  else do
    Writer.u32 (UInt32.ofNat size)
    Codec.encode tx

/-- Reads a transaction behind its length, which it takes up entirely. -/
def decodeTransaction (index : Nat) : Read Transaction := do
  let size ← Reader.u32 "transaction length"
  match Codec.unmarshal (← Reader.take size.toNat "transaction") with
  | .ok tx => return tx
  | .error cause => throw (.transaction index cause)

/-- Reads `count` transactions, the first of which has the given index, onto those read before, last
first. -/
def decodeTransactionsOnto (index : Nat) :
    (count : Nat) → (done : List Transaction) → Read (List Transaction)
  | 0, done => return done.reverse
  | count + 1, done => do
    let tx ← decodeTransaction index
    decodeTransactionsOnto (index + 1) count (tx :: done)

end Block

instance : Codec Block where
  size block :=
    Block.headerSize + Varint.size block.transactions.length +
      sumOf (fun tx => 4 + Codec.size tx) block.transactions
  encode block :=
    if block.transactions.isEmpty then
      throw .emptyBlock
    else do
      Codec.encode block.header
      Writer.count block.transactions.length Block.maxTransactions "block transactions"
      block.transactions.forM Block.encodeTransaction
  decode := do
    let header ← Codec.decode
    let count ← Reader.count Block.maxTransactions "block transactions"
    if count = 0 then
      throw .emptyBlock
    else
      return ⟨header, ← Block.decodeTransactionsOnto 0 count []⟩

namespace Block

/-- How many bytes the transactions of a block take, without their lengths. -/
def transactionsSize (block : Block) : Nat :=
  sumOf Codec.size block.transactions

end Block

end UtxoLedger
