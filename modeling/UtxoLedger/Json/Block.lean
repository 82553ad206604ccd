import UtxoLedger.Json.Transaction
import UtxoLedger.Ledger.State

/-!
The JSON forms of blocks and of their records.
-/

namespace UtxoLedger

open Json

instance : Form BlockId where
  write id := Form.write id.bytes
  read? levels v := (Form.read? levels v).map BlockId.mk

instance : Form BlockSignature where
  write signature := Form.write signature.bytes
  read? levels v := (Form.read? levels v).map BlockSignature.mk

instance : Form BlockHeader where
  write header := ofFields [
    ("version", Form.write header.version), ("previous_block", Form.write header.previous),
    ("merkle_root", Form.write header.merkleRoot), ("timestamp", Form.write header.timestamp),
    ("signature", Form.write header.signature), ("random", Form.write header.random)]
  read? levels v := do
    let fields ← fields?
      ["version", "previous_block", "merkle_root", "timestamp", "signature", "random"] v
    let version ← readField? (levels - 1) fields "version"
    let previous ← readField? (levels - 1) fields "previous_block"
    let merkleRoot ← readField? (levels - 1) fields "merkle_root"
    let timestamp ← readField? (levels - 1) fields "timestamp"
    let signature ← readField? (levels - 1) fields "signature"
    let random ← readField? (levels - 1) fields "random"
    return ⟨version, previous, merkleRoot, timestamp, signature, random⟩

instance : Form Block where
  write block := ofFields [
    ("header", Form.write block.header), ("transactions", Form.write block.transactions)]
  read? levels v := do
    let fields ← fields? ["header", "transactions"] v
    let header ← readField? (levels - 1) fields "header"
    let transactions ← readField? (levels - 1) fields "transactions"
    return ⟨header, transactions⟩

/-- Heights are written as numbers of 64 bits. -/
instance : Form BlockRecord where
  write record := ofFields [
    ("block_id", Form.write record.id), ("height", ofNat record.height),
    ("parent", Form.write record.parent), ("block", Form.write record.block)]
  read? levels v := do
    let fields ← fields? ["block_id", "height", "parent", "block"] v
    let id ← readField? (levels - 1) fields "block_id"
    let height ← natBelow? UInt64.size (← field? fields "height")
    let parent ← readField? (levels - 1) fields "parent"
    let block ← readField? (levels - 1) fields "block"
    return ⟨id, height, parent, block⟩

end UtxoLedger
