import UtxoLedger.Wire.Codec
import UtxoLedger.Crypto.Suite

/-!
The encoding of transactions and of their parts, and the identifier that it determines.

A transaction is its version, its kind, its flags and its body. The body of a transfer is the counted
inputs, the counted outputs, one witness for each input without a count of their own, and the lock
time; that of a genesis transaction is the counted outputs; the third kind has an empty body.
-/

namespace UtxoLedger

open Wire

/-! ### Parts -/

instance : Codec Input where
  size input := 37 + Varint.size input.scriptSig.length + input.scriptSig.length
  encode input := do
    Writer.bytes input.outpoint.txid.bytes.toList
    Writer.u8 input.outpoint.index
    Writer.varBytes input.scriptSig maxFieldLength "script_sig"
    Writer.u32 input.sequence
  decode := do
    let txid ← Reader.fixed 32 "outpoint txid"
    let index ← Reader.u8 "outpoint index"
    let scriptSig ← Reader.varBytes maxFieldLength "script_sig"
    let sequence ← Reader.u32 "sequence"
    return ⟨⟨⟨txid⟩, index⟩, scriptSig, sequence⟩

instance : Codec Output where
  size output := 4 + Varint.size output.script.length + output.script.length
  encode output := do
    Writer.u32 output.value
    Writer.varBytes output.script maxFieldLength "script_pubkey"
  decode := do
    let value ← Reader.u32 "output value"
    let script ← Reader.varBytes maxFieldLength "script_pubkey"
    return ⟨value, script⟩

/-- Writes one item of a witness. -/
def Witness.encodeItem (item : Bytes) : Write :=
  Writer.varBytes item maxFieldLength "witness item"

/-- Reads one item of a witness. -/
def Witness.decodeItem : Read Bytes :=
  Reader.varBytes maxFieldLength "witness item"

instance : Codec Witness where
  size witness :=
    Varint.size witness.items.length +
      sumOf (fun item => Varint.size item.length + item.length) witness.items
  encode witness := do
    Writer.count witness.items.length maxWitnessItems "witness items"
    witness.items.forM Witness.encodeItem
  decode := do
    let count ← Reader.count maxWitnessItems "witness items"
    return ⟨← readMany Witness.decodeItem count⟩

/-! ### Bodies -/

namespace Transfer

/-- How many bytes the body of a transfer takes. -/
def size (t : Transfer) : Nat :=
  Codec.listSize t.inputs + Codec.listSize t.outputs + sumOf Codec.size t.witnesses + 4

/-- Writes the body of a transfer, which needs one witness for each input. -/
def encode (t : Transfer) : Write :=
  if t.witnesses.length ≠ t.inputs.length then
    throw (.witnessCount t.witnesses.length t.inputs.length)
  else do
    Codec.encodeList t.inputs maxInputs "inputs"
    Codec.encodeList t.outputs maxOutputs "outputs"
    t.witnesses.forM Codec.encode
    Writer.u32 t.lockTime

/-- Reads the body of a transfer. -/
def decode : Read Transfer := do
  let inputs ← Codec.decodeList maxInputs "inputs"
  let outputs ← Codec.decodeList maxOutputs "outputs"
  let witnesses ← readMany Codec.decode inputs.length
  let lockTime ← Reader.u32 "lock_time"
  return ⟨inputs, outputs, witnesses, lockTime⟩

end Transfer

namespace Body

/-- How many bytes a body takes. -/
def size : Body → Nat
  | transfer t => t.size
  | genesis outputs => Codec.listSize outputs
  | escrowOpen => 0

/-- Writes a body. -/
def encode : Body → Write
  | transfer t => t.encode
  | genesis outputs => Codec.encodeList outputs maxOutputs "outputs"
  | escrowOpen => return ()

/-- Reads a body of a given kind. -/
def decode : TxKind → Read Body
  | .transfer => return transfer (← Transfer.decode)
  | .genesis => return genesis (← Codec.decodeList maxOutputs "outputs")
  | .escrowOpen => return escrowOpen

end Body

/-! ### Transactions -/

instance : Codec Transaction where
  size tx := 4 + tx.body.size
  encode tx :=
    if tx.version ≠ Transaction.currentVersion then
      throw (.unsupportedVersion tx.version)
    else if tx.flags ≠ 0 then
      throw (.reservedFlags tx.flags)
    else do
      Writer.u8 tx.version
      Writer.u8 tx.kind.tag
      Writer.u16 tx.flags
      tx.body.encode
  decode := do
    let version ← Reader.u8 "version"
    if version ≠ Transaction.currentVersion then
      throw (.unsupportedVersion version)
    else
      let tag ← Reader.u8 "transaction type"
      match TxKind.ofTag? tag with
      | none => throw (.unknownKind tag)
      | some kind =>
        let flags ← Reader.u16 "flags"
        if flags ≠ 0 then
          throw (.reservedFlags flags)
        else
          return ⟨version, flags, ← Body.decode kind⟩

namespace Transaction

variable [CryptoSuite]

/-- The identifier of a transaction: the digest of its bytes. A transaction that cannot be written
has none. -/
def txid (tx : Transaction) : Except Error TxId :=
  match Codec.marshal tx with
  | .ok bytes => .ok ⟨hash256 bytes⟩
  | .error e => .error (.encode e)

/-- The outpoint of the output at `index`. -/
def outpointAt (id : TxId) (index : Nat) : Outpoint :=
  ⟨id, UInt8.ofNat index⟩

/-- The outputs that a transaction creates, each with its outpoint, in order. -/
def outpoints (tx : Transaction) : Except Error (List (Outpoint × Output)) :=
  if maxAddressableOutputs < tx.outputs.length then
    .error (.transactionValidation (.outputsNotAddressable tx.outputs.length))
  else do
    let id ← tx.txid
    return tx.outputs.mapIdx fun i output => (outpointAt id i, output)

end Transaction

end UtxoLedger
