import UtxoLedger.Json.Block
import UtxoLedger.Json.Address
import UtxoLedger.Proofs.Addresses
import UtxoLedger.Proofs.JsonText

/-!
The JSON forms of the ledger lose nothing. A type is lossless if its forms are plain, so that nothing is
lost in their text, and each value is read back from its form. Lists of a lossless type are lossless, and
an object is read back field by field.
-/

namespace UtxoLedger

namespace Json

theorem mapM_map_eq_some {α β : Type} {f : α → β} {g : β → Option α} (xs : List α)
    (h : ∀ x, g (f x) = some x) : (xs.map f).mapM g = some xs := by
  have hpure : g ∘ f = fun x => pure (id x) := funext h
  rw [List.mapM_map, hpure, List.mapM_pure, List.map_id]
  rfl

/-- A type whose values are read back from their forms, which are plain values of a bounded depth. -/
class Lossless (α : Type) [Form α] (depth : outParam Nat) : Prop where
  plain : ∀ x : α, Plain depth (Form.write x)
  read?_write : ∀ (x : α) {levels : Nat}, depth ≤ levels →
    Form.read? levels (Form.write x) = some x

section Lossless

variable {α : Type} [Form α] {depth levels : Nat} [Lossless α depth] {x : α}

@[simp]
theorem Lossless.plain_of_le (h : depth ≤ levels) : Plain levels (Form.write x) :=
  (Lossless.plain x).mono h

theorem decode?_encode (x : α) (hdepth : depth ≤ maxLevels) : decode? (encode x) = some x := by
  rw [decode?, encode, (Lossless.plain x).parse_text]
  exact Lossless.read?_write x hdepth

instance : Lossless (List α) (depth + 1) where
  plain xs := .array (List.forall_mem_map.2 fun x _ => Lossless.plain x)
  read?_write xs _ h := mapM_map_eq_some xs fun x => Lossless.read?_write x (by omega)

end Lossless

/-! ### Numbers and bytes -/

theorem natBelow?_ofNat {bound n : Nat} (h : n < bound) : natBelow? bound (ofNat n) = some n := by
  simp [natBelow?, ofNat, Number.toNat?, Number.ofNat, h]

instance : Lossless UInt8 0 where
  plain n := .word (Nat.lt_of_lt_of_le n.toNat_lt (by decide))
  read?_write n _ _ := by
    simp only [Form.read?, Form.write, natBelow?_ofNat n.toNat_lt, Option.map_some, UInt8.ofNat_toNat]

instance : Lossless UInt16 0 where
  plain n := .word (Nat.lt_of_lt_of_le n.toNat_lt (by decide))
  read?_write n _ _ := by
    simp only [Form.read?, Form.write, natBelow?_ofNat n.toNat_lt, Option.map_some, UInt16.ofNat_toNat]

instance : Lossless UInt32 0 where
  plain n := .word (Nat.lt_of_lt_of_le n.toNat_lt (by decide))
  read?_write n _ _ := by
    simp only [Form.read?, Form.write, natBelow?_ofNat n.toNat_lt, Option.map_some, UInt32.ofNat_toNat]

instance : Lossless UInt64 0 where
  plain n := .word n.toNat_lt
  read?_write n _ _ := by
    simp only [Form.read?, Form.write, natBelow?_ofNat n.toNat_lt, Option.map_some, UInt64.ofNat_toNat]

@[simp]
theorem plain_ofBytes (levels : Nat) (bytes : Bytes) : Plain levels (ofBytes bytes) :=
  .text _

@[simp]
theorem bytes?_ofBytes (bytes : Bytes) : bytes? (ofBytes bytes) = some bytes := by
  rw [ofBytes, bytes?, Hex.decode_encode]
  rfl

instance {n : Nat} : Lossless (FixedBytes n) 0 where
  plain bytes := plain_ofBytes 0 bytes.toList
  read?_write bytes _ _ := by
    have hlength : FixedBytes.ofList? bytes.toList = some bytes :=
      FixedBytes.ofList?_eq_some_iff.2 rfl
    simp only [Form.read?, Form.write, bytes?_ofBytes, Option.bind_some, hlength]

/-! ### Objects -/

section Object

variable {name other : String} {v : Value} {fields : List (String × Value)}

@[simp]
theorem fields?_ofFields (known : List String) (h : (fields.map Prod.fst).Nodup) :
    fields? known (ofFields fields) = some fields := by
  have hnames : ((fields.map fun e => (some e.1, e.2) : List (Literal × Value)).mapM fun e =>
      e.1.map fun name => (name, e.2)) = some fields := by
    rw [mapM_map_eq_some fields]
    exact fun _ => rfl
  simp only [fields?, ofFields, hnames, if_pos (h.filter _)]

@[simp]
theorem field?_head : field? ((name, v) :: fields) name = some v :=
  List.lookup_cons_self

@[simp]
theorem field?_of_ne (h : name ≠ other) : field? ((other, v) :: fields) name = field? fields name := by
  rw [field?, List.lookup_cons, beq_false_of_ne h]
  rfl

/-- The first field is split off; the others stay as they are. -/
theorem splitField?_ofFields (h : (((name, v) :: fields).map Prod.fst).Nodup) :
    splitField? name (ofFields ((name, v) :: fields)) = some (v, ofFields fields) := by
  have hothers : (((name, v) :: fields).map fun e => ((some e.1, e.2) : Literal × Value)).filter
      (fun e => e.1 ≠ some name) = fields.map fun e => (some e.1, e.2) := by
    have hkept : ∀ e ∈ fields.map fun e => ((some e.1, e.2) : Literal × Value),
        decide (e.1 ≠ some name) = true := by
      refine List.forall_mem_map.2 fun field hfield => decide_eq_true fun heq => ?_
      have hmem : name ∈ fields.map Prod.fst :=
        List.mem_map.2 ⟨field, hfield, Option.some.inj heq⟩
      exact (List.nodup_cons.1 h).1 hmem
    rw [List.map_cons, List.filter_cons_of_neg (by simp), List.filter_eq_self.2 hkept]
  have hread := fields?_ofFields [name] h
  rw [ofFields] at hread ⊢
  simp only [splitField?, hread, field?_head, hothers, Option.bind_eq_bind, Option.bind_some]
  rfl

variable {α : Type} [Form α] {levels : Nat}

@[simp]
theorem readField?_head {depth : Nat} [Lossless α depth] {x : α} (h : depth ≤ levels) :
    readField? levels ((name, Form.write x) :: fields) name = some x := by
  rw [readField?, field?_head]
  exact Lossless.read?_write x h

@[simp]
theorem readField?_of_ne (h : name ≠ other) :
    readField? levels ((other, v) :: fields) name = (readField? levels fields name : Option α) := by
  rw [readField?, field?_of_ne h, readField?]

end Object

end Json

open Json

/-! ### Transactions -/

instance : Lossless TxId 0 where
  plain id := Lossless.plain id.bytes
  read?_write id _ h := congrArg (Option.map TxId.mk) (Lossless.read?_write id.bytes h)

theorem Outpoint.write_eq (o : Outpoint) : Form.write o = ofFields [
    ("previous_tx", Form.write o.txid), ("index", Form.write o.index)] :=
  rfl

instance : Lossless Outpoint 1 where
  plain o := .object (by simp (disch := omega))
  read?_write o levels h := by
    rw [o.write_eq]
    simp (disch := first | omega | simp) [Form.read?]

theorem Output.write_eq (output : Output) : Form.write output = ofFields [
    ("value", Form.write output.value), ("script_pubkey", ofBytes output.script)] :=
  rfl

instance : Lossless Output 1 where
  plain output := .object (by simp (disch := omega))
  read?_write output levels h := by
    rw [output.write_eq]
    simp (disch := first | omega | simp) [Form.read?]

theorem Input.write_eq (input : Input) : Form.write input = ofFields [
    ("outpoint", Form.write input.outpoint), ("script_sig", ofBytes input.scriptSig),
    ("sequence", Form.write input.sequence)] :=
  rfl

instance : Lossless Input 2 where
  plain input := .object (by simp (disch := omega))
  read?_write input levels h := by
    rw [input.write_eq]
    simp (disch := first | omega | simp) [Form.read?]

/-- The items of a witness are arrays of numbers: only a byte string in a field of its own is written in
hexadecimal. -/
theorem Witness.write_eq (witness : Witness) :
    Form.write witness = ofFields [("data", Form.write witness.items)] :=
  rfl

instance : Lossless Witness 3 where
  plain witness := .object (by simp (disch := omega))
  read?_write witness levels h := by
    rw [witness.write_eq]
    simp (disch := first | omega | simp) [Form.read?]

theorem TxKind.ofFormTag?_formTag (kind : TxKind) : ofFormTag? kind.formTag = some kind := by
  cases kind <;> decide

/-- What a body carries besides its tag. -/
def Body.formFields : Body → List (String × Value)
  | .transfer t => t.formFields
  | .genesis outputs => [("outputs", Form.write outputs)]
  | .escrowOpen => []

theorem Body.write_eq (body : Body) : Form.write body =
    ofFields (("type", .string (some body.kind.formTag)) :: body.formFields) := by
  cases body <;> rfl

/-- No field of a body clashes with its tag or with another. -/
theorem Body.nodup_formFields (body : Body) : ("type" :: body.formFields.map Prod.fst).Nodup := by
  cases body <;> simp [formFields, Transfer.formFields]

theorem Body.plain_write (body : Body) : Plain 5 (Form.write body) := by
  rw [body.write_eq]
  refine .object (List.forall_mem_cons.2 ⟨.text _, ?_⟩)
  cases body <;> simp (disch := omega) [formFields, Transfer.formFields]

theorem Transfer.ofForm?_formFields (t : Transfer) {levels : Nat} (h : 5 ≤ levels) :
    ofForm? levels (ofFields t.formFields) = some t := by
  simp (disch := first | omega | simp) [formFields, ofForm?]

instance : Lossless Body 5 where
  plain := Body.plain_write
  read?_write body levels h := by
    have hkeep := (body.plain_write.mono h).isKeepable
    have hsplit : splitField? "type" (Form.write body) =
        some (.string (some body.kind.formTag), ofFields body.formFields) := by
      rw [body.write_eq]
      exact splitField?_ofFields body.nodup_formFields
    generalize Form.write body = v at hkeep hsplit
    simp only [Form.read?, hkeep, hsplit, TxKind.ofFormTag?_formTag, not_true_eq_false, if_false,
      Option.bind_eq_bind, Option.bind_some]
    cases body with
    | transfer t => simp [Body.kind, Body.formFields, t.ofForm?_formFields h]
    | genesis outputs =>
      simp (disch := first | omega | simp) [Body.kind, Body.formFields]
    | escrowOpen =>
      simp (disch := first | omega | simp) [Body.kind, Body.formFields]

theorem Transaction.write_eq (tx : Transaction) : Form.write tx = ofFields [
    ("version", Form.write tx.version), ("flags", Form.write tx.flags),
    ("body", Form.write tx.body)] :=
  rfl

instance : Lossless Transaction 6 where
  plain tx := .object (by simp (disch := omega))
  read?_write tx levels h := by
    rw [tx.write_eq]
    simp (disch := first | omega | simp) [Form.read?]

/-! ### Blocks and addresses -/

instance : Lossless BlockId 0 where
  plain id := Lossless.plain id.bytes
  read?_write id _ h := congrArg (Option.map BlockId.mk) (Lossless.read?_write id.bytes h)

instance : Lossless BlockSignature 0 where
  plain signature := Lossless.plain signature.bytes
  read?_write signature _ h :=
    congrArg (Option.map BlockSignature.mk) (Lossless.read?_write signature.bytes h)

theorem BlockHeader.write_eq (header : BlockHeader) : Form.write header = ofFields [
    ("version", Form.write header.version), ("previous_block", Form.write header.previous),
    ("merkle_root", Form.write header.merkleRoot), ("timestamp", Form.write header.timestamp),
    ("signature", Form.write header.signature), ("random", Form.write header.random)] :=
  rfl

instance : Lossless BlockHeader 1 where
  plain header := .object (by simp (disch := omega))
  read?_write header levels h := by
    rw [header.write_eq]
    simp (disch := first | omega | simp) [Form.read?]

theorem Block.write_eq (block : Block) : Form.write block = ofFields [
    ("header", Form.write block.header), ("transactions", Form.write block.transactions)] :=
  rfl

instance : Lossless Block 8 where
  plain block := .object (by simp (disch := omega))
  read?_write block levels h := by
    rw [block.write_eq]
    simp (disch := first | omega | simp) [Form.read?]

instance [CryptoSuite] : Lossless Address 0 where
  plain _ := .text _
  read?_write address _ _ := by
    have hparse : Address.parse address.text = .ok address := Address.parse_eq_ok_iff.2 rfl
    simp only [Form.read?, Form.write, hparse]
    rfl

/-! ### The texts in the forms -/

namespace Json

/-- A text of `length` lowercase hexadecimal digits that stand for the given bytes. -/
def IsHex (length : Nat) (v : Value) (bytes : Bytes) : Prop :=
  ∃ text, v = .string (some text) ∧ text.length = length ∧
    (∀ c ∈ text.toList, c ∈ Hex.alphabet) ∧ Hex.decode text = .ok bytes

/-- The value of a field of an object. -/
def member? (name : String) (v : Value) : Option Value := do
  field? (← fields? [name] v) name

/-- An object with a field of hexadecimal text. -/
def HasHex (name : String) (length : Nat) (v : Value) (bytes : Bytes) : Prop :=
  ∃ w, member? name v = some w ∧ IsHex length w bytes

variable {length : Nat} {bytes : Bytes}

theorem isHex_ofBytes (h : 2 * bytes.length = length) : IsHex length (ofBytes bytes) bytes := by
  refine ⟨_, rfl, ?_, fun c hc => ?_, Hex.decode_encode bytes⟩
  · rw [Hex.encode, String.length_ofList, Hex.length_digits, h]
  · rw [Hex.encode, String.toList_ofList] at hc
    obtain ⟨n, hn, rfl⟩ := Hex.mem_digits hc
    exact Hex.digit_mem_alphabet n hn

theorem isHex_write {n : Nat} (bytes : FixedBytes n) (h : 2 * n = length) :
    IsHex length (Form.write bytes) bytes.toList :=
  isHex_ofBytes (by rw [bytes.length_toList, h])

theorem hasHex_ofFields {name : String} {fields : List (String × Value)} {w : Value}
    (hnodup : (fields.map Prod.fst).Nodup) (hfield : field? fields name = some w)
    (hhex : IsHex length w bytes) : HasHex name length (ofFields fields) bytes := by
  refine ⟨w, ?_, hhex⟩
  rw [member?, fields?_ofFields [name] hnodup]
  exact hfield

end Json

/-- A capitalised name with its words in lowercase and underscores between them. -/
def snakeCase (name : String) : String :=
  String.ofList (name.toList.zipIdx.flatMap fun (c, i) =>
    if 0 < i ∧ c.isUpper then ['_', c.toLower] else [c.toLower])

theorem TxKind.formTag_eq (kind : TxKind) : kind.formTag = snakeCase kind.name := by
  cases kind <;> decide

/-- **The JSON forms lose nothing.** Every block, header, transaction, outpoint and address is read back
from its text. Identifiers, signatures and byte strings in a field of their own stand in it as lowercase
hexadecimal text, of fixed length where the width is fixed; a body is an object with the kind, in snake
case, in a field that no other clashes with; and an address is its text with a checksum. -/
theorem json_forms_lossless [CryptoSuite] :
    ((∀ block : Block, decode? (encode block) = some block) ∧
      (∀ header : BlockHeader, decode? (encode header) = some header) ∧
      (∀ tx : Transaction, decode? (encode tx) = some tx) ∧
      (∀ o : Outpoint, decode? (encode o) = some o) ∧
      ∀ address : Address, decode? (encode address) = some address) ∧
    ((∀ id : TxId, IsHex 64 (Form.write id) id.bytes.toList) ∧
      (∀ id : BlockId, IsHex 64 (Form.write id) id.bytes.toList) ∧
      ∀ signature : BlockSignature, IsHex 128 (Form.write signature) signature.bytes.toList) ∧
    ((∀ output : Output,
        HasHex "script_pubkey" (2 * output.script.length) (Form.write output) output.script) ∧
      (∀ input : Input,
        HasHex "script_sig" (2 * input.scriptSig.length) (Form.write input) input.scriptSig) ∧
      ∀ header : BlockHeader,
        HasHex "merkle_root" 64 (Form.write header) header.merkleRoot.toList) ∧
    (∀ body : Body, ∃ fields,
      Form.write body = ofFields (("type", .string (some (snakeCase body.kind.name))) :: fields) ∧
        "type" ∉ fields.map Prod.fst) ∧
    ∀ address : Address, Form.write address = .string (some (Base58Check.encode address.bytes)) := by
  refine ⟨⟨?_, ?_, ?_, ?_, ?_⟩, ⟨?_, ?_, ?_⟩, ⟨?_, ?_, ?_⟩, ?_, fun _ => rfl⟩
  · exact fun block => decode?_encode block (by decide)
  · exact fun header => decode?_encode header (by decide)
  · exact fun tx => decode?_encode tx (by decide)
  · exact fun o => decode?_encode o (by decide)
  · exact fun address => decode?_encode address (by decide)
  · exact fun id => isHex_write id.bytes rfl
  · exact fun id => isHex_write id.bytes rfl
  · exact fun signature => isHex_write signature.bytes rfl
  · exact fun output => hasHex_ofFields (by simp) (by simp) (isHex_ofBytes rfl)
  · exact fun input => hasHex_ofFields (by simp) (by simp) (isHex_ofBytes rfl)
  · exact fun header => hasHex_ofFields (by simp) (by simp) (isHex_write header.merkleRoot rfl)
  · intro body
    refine ⟨body.formFields, ?_, (List.nodup_cons.1 body.nodup_formFields).1⟩
    rw [body.write_eq, TxKind.formTag_eq]

end UtxoLedger
