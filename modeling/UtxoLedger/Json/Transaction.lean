import UtxoLedger.Json.Form
import UtxoLedger.Transaction.Basic

/-!
The JSON forms of transactions and of their parts.
-/

namespace UtxoLedger

open Json

instance : Form TxId where
  write id := Form.write id.bytes
  read? levels v := (Form.read? levels v).map TxId.mk

instance : Form Outpoint where
  write o := ofFields [("previous_tx", Form.write o.txid), ("index", Form.write o.index)]
  read? levels v := do
    let fields ← fields? ["previous_tx", "index"] v
    let txid ← readField? (levels - 1) fields "previous_tx"
    let index ← readField? (levels - 1) fields "index"
    return ⟨txid, index⟩

instance : Form Output where
  write output := ofFields [
    ("value", Form.write output.value), ("script_pubkey", ofBytes output.script)]
  read? levels v := do
    let fields ← fields? ["value", "script_pubkey"] v
    let value ← readField? (levels - 1) fields "value"
    let script ← bytes? (← field? fields "script_pubkey")
    return ⟨value, script⟩

instance : Form Input where
  write input := ofFields [
    ("outpoint", Form.write input.outpoint), ("script_sig", ofBytes input.scriptSig),
    ("sequence", Form.write input.sequence)]
  read? levels v := do
    let fields ← fields? ["outpoint", "script_sig", "sequence"] v
    let outpoint ← readField? (levels - 1) fields "outpoint"
    let scriptSig ← bytes? (← field? fields "script_sig")
    let sequence ← readField? (levels - 1) fields "sequence"
    return ⟨outpoint, scriptSig, sequence⟩

instance : Form Witness where
  write witness := ofFields [("data", Form.write witness.items)]
  read? levels v := do
    let fields ← fields? ["data"] v
    return ⟨← readField? (levels - 1) fields "data"⟩

instance : Form TxKind where
  write kind := .string (some kind.name)
  read? _ v := do
    let name ← word? v
    [TxKind.transfer, .genesis, .escrowOpen].find? (·.name == name)

/-- The tag of each kind of body. -/
def TxKind.formTag : TxKind → String
  | transfer => "transfer"
  | genesis => "genesis"
  | escrowOpen => "escrow_open"

/-- The kind with a given tag. -/
def TxKind.ofFormTag? (tag : String) : Option TxKind :=
  [transfer, genesis, escrowOpen].find? (·.formTag == tag)

namespace Transfer

/-- The fields of a transfer. -/
def formFields (t : Transfer) : List (String × Value) :=
  [("inputs", Form.write t.inputs), ("outputs", Form.write t.outputs),
    ("witnesses", Form.write t.witnesses), ("lock_time", Form.write t.lockTime)]

/-- Reads a transfer from its fields. -/
def ofForm? (levels : Nat) (v : Value) : Option Transfer := do
  let fields ← fields? ["inputs", "outputs", "witnesses", "lock_time"] v
  let inputs ← readField? (levels - 1) fields "inputs"
  let outputs ← readField? (levels - 1) fields "outputs"
  let witnesses ← readField? (levels - 1) fields "witnesses"
  let lockTime ← readField? (levels - 1) fields "lock_time"
  return ⟨inputs, outputs, witnesses, lockTime⟩

end Transfer

/-- A body is an object whose field `type` tells the kind. Since that field may come last, all others
have to be such as can be kept until then. In an array the kind comes first. -/
instance : Form Body where
  write body :=
    let tag := ("type", Value.string (some body.kind.formTag))
    match body with
    | .transfer t => ofFields (tag :: t.formFields)
    | .genesis outputs => ofFields [tag, ("outputs", Form.write outputs)]
    | .escrowOpen => ofFields [tag]
  read? levels v := do
    if ¬v.isKeepable levels then none
    let (tag, v) ← splitField? "type" v
    match ← TxKind.ofFormTag? (← Form.read? (levels - 1) tag) with
    | .transfer => return .transfer (← Transfer.ofForm? levels v)
    | .genesis =>
      let fields ← fields? ["outputs"] v
      return .genesis (← readField? (levels - 1) fields "outputs")
    | .escrowOpen =>
      let _ ← fields? [] v
      return .escrowOpen

instance : Form Transaction where
  write tx := ofFields [
    ("version", Form.write tx.version), ("flags", Form.write tx.flags),
    ("body", Form.write tx.body)]
  read? levels v := do
    let fields ← fields? ["version", "flags", "body"] v
    let version ← readField? (levels - 1) fields "version"
    let flags ← readField? (levels - 1) fields "flags"
    let body ← readField? (levels - 1) fields "body"
    return ⟨version, flags, body⟩

end UtxoLedger
