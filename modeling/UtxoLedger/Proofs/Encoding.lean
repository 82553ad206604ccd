import UtxoLedger.Block.Wire
import UtxoLedger.Proofs.Format

/-!
The formats of all that is sent and stored: inputs, outputs, witnesses, transactions, headers and
blocks. Each is what its fields make one behind the other, within the limits of each field. A
transaction within its limits is short enough for the four bytes of its length in a block.
-/

namespace UtxoLedger

open Wire Read Write Writer Reader Format

/-! ### Sizes -/

theorem length_flatMap {α : Type} {f : α → Bytes} {g : α → Nat} {xs : List α}
    (h : ∀ x, (f x).length = g x) : (xs.flatMap f).length = sumOf g xs := by
  induction xs with
  | nil => rfl
  | cons x xs ih => rw [List.flatMap_cons, List.length_append, h x, ih, sumOf_cons]

theorem sumOf_le {α : Type} {f : α → Nat} {xs : List α} {most : Nat} (h : ∀ x ∈ xs, f x ≤ most) :
    sumOf f xs ≤ xs.length * most := by
  induction xs with
  | nil => exact Nat.zero_le _
  | cons x xs ih =>
    obtain ⟨hx, hxs⟩ := List.forall_mem_cons.1 h
    have := ih hxs
    rw [sumOf_cons, List.length_cons, Nat.succ_mul]
    omega

theorem Wire.Varint.size_le (n : Nat) : Varint.size n ≤ n / 128 + 1 := by
  induction n using Varint.size.induct with
  | case1 n h =>
    rw [Varint.size, if_pos h]
    omega
  | case2 n h ih =>
    rw [Varint.size, if_neg h]
    omega

/-! ### Counted lists -/

namespace Format

variable {α : Type} [Codec α] [Format α] {limit : Nat}

/-- The bytes of a list behind its length. -/
def wireList (xs : List α) : Bytes :=
  Varint.encode xs.length ++ xs.flatMap wire

/-- No more items than `limit`, each of them within its own limits. -/
def FitsList (limit : Nat) (xs : List α) : Prop :=
  xs.length ≤ limit ∧ ∀ x ∈ xs, Fits x

theorem length_wireList (xs : List α) : (wireList xs).length = Codec.listSize xs := by
  rw [wireList, List.length_append, Varint.length_encode, length_flatMap length_wire, Codec.listSize]

theorem writes_encodeList (xs : List α) (limit : Nat) (field : String) :
    (Codec.encodeList xs limit field).Writes (FitsList limit xs) (wireList xs) :=
  (writes_count xs.length limit field).seq (writes_forM Format.writes xs)

theorem reads_decodeList (hlimit : limit < UInt64.size) (field : String) :
    (Codec.decodeList limit field : Read (List α)).Reads fun xs bytes =>
      FitsList limit xs ∧ bytes = wireList xs := by
  refine ((reads_count hlimit field).bind fun n => reads_readMany reads n).of_iff fun xs bytes => ?_
  constructor
  · rintro ⟨n, front, back, ⟨hn, rfl⟩, ⟨rfl, hxs, rfl⟩, rfl⟩
    exact ⟨⟨hn, hxs⟩, rfl⟩
  · rintro ⟨⟨hn, hxs⟩, rfl⟩
    exact ⟨_, _, _, ⟨hn, rfl⟩, ⟨rfl, hxs, rfl⟩, rfl⟩

theorem listSize_le {xs : List α} {most : Nat} (h : FitsList limit xs)
    (hmost : ∀ x : α, Fits x → Codec.size x ≤ most) : Codec.listSize xs ≤ limit * (most + 1) + 1 := by
  obtain ⟨hn, hxs⟩ := h
  have hcount := Varint.size_le xs.length
  have hitems := sumOf_le fun x hx => hmost x (hxs x hx)
  have hlimit : xs.length * (most + 1) ≤ limit * (most + 1) := Nat.mul_le_mul_right _ hn
  rw [Codec.listSize]
  rw [Nat.mul_succ] at hlimit
  omega

end Format

/-! ### Parts of a transaction -/

namespace Wire

/-- The bytes of a field behind its length. -/
def delimited (field : Bytes) : Bytes :=
  Varint.encode field.length ++ field

theorem length_delimited (field : Bytes) :
    (delimited field).length = Varint.size field.length + field.length := by
  rw [delimited, List.length_append, Varint.length_encode]

end Wire

instance : Format Input where
  Fits input := input.scriptSig.length ≤ maxFieldLength
  wire input := input.outpoint.txid.bytes.toList ++ (littleEndian 1 input.outpoint.index.toNat ++
    (delimited input.scriptSig ++ littleEndian 4 input.sequence.toNat))
  length_wire input := by
    simp only [List.length_append, length_littleEndian, length_delimited, FixedBytes.length_toList,
      Codec.size]
    omega
  writes input :=
    ((writes_put _ _).seq ((writes_put _ _).seq ((writes_varBytes _ _ _).seq
      (writes_put _ _)))).of_iff (by simp) fun _ => rfl
  reads := by
    refine ((reads_fixed 32 _).bind fun txid => (reads_u8 _).bind fun index =>
      (reads_varBytes (by decide) _).bind fun script => (reads_u32 _).bind fun sequence =>
      reads_pure _).of_iff fun input bytes => ?_
    constructor
    · rintro ⟨txid, _, _, rfl, ⟨index, _, _, rfl, ⟨script, _, _, ⟨hscript, rfl⟩,
        ⟨sequence, _, _, rfl, ⟨rfl, rfl⟩, rfl⟩, rfl⟩, rfl⟩, rfl⟩
      exact ⟨hscript, by rw [List.append_nil]; rfl⟩
    · rintro ⟨hscript, rfl⟩
      exact ⟨_, _, _, rfl, ⟨_, _, _, rfl, ⟨_, _, _, ⟨hscript, rfl⟩,
        ⟨_, _, [], rfl, ⟨rfl, rfl⟩, (List.append_nil _).symm⟩, rfl⟩, rfl⟩, rfl⟩

instance : Format Output where
  Fits output := output.script.length ≤ maxFieldLength
  wire output := littleEndian 4 output.value.toNat ++ delimited output.script
  length_wire output := by
    simp only [List.length_append, length_littleEndian, length_delimited, Codec.size]
    omega
  writes output :=
    ((writes_put _ _).seq (writes_varBytes _ _ _)).of_iff (by simp) fun _ => rfl
  reads := by
    refine ((reads_u32 _).bind fun value => (reads_varBytes (by decide) _).bind fun script =>
      reads_pure _).of_iff fun output bytes => ?_
    constructor
    · rintro ⟨value, _, _, rfl, ⟨script, _, _, ⟨hscript, rfl⟩, ⟨rfl, rfl⟩, rfl⟩, rfl⟩
      exact ⟨hscript, by rw [List.append_nil]; rfl⟩
    · rintro ⟨hscript, rfl⟩
      exact ⟨_, _, _, rfl, ⟨_, _, [], ⟨hscript, rfl⟩, ⟨rfl, rfl⟩, (List.append_nil _).symm⟩, rfl⟩

instance : Format Witness where
  Fits witness := witness.items.length ≤ maxWitnessItems ∧
    ∀ item ∈ witness.items, item.length ≤ maxFieldLength
  wire witness := Varint.encode witness.items.length ++ witness.items.flatMap delimited
  length_wire witness := by
    rw [List.length_append, Varint.length_encode, length_flatMap length_delimited]
    rfl
  writes witness :=
    (writes_count _ _ _).seq (writes_forM (fun item => writes_varBytes item _ _) _)
  reads := by
    refine ((reads_count (by decide) _).bind fun n => (reads_readMany (reads_varBytes (by decide) _)
      n).bind fun items => reads_pure _).of_iff fun witness bytes => ?_
    constructor
    · rintro ⟨n, _, _, ⟨hn, rfl⟩, ⟨items, _, _, ⟨rfl, hitems, rfl⟩, ⟨rfl, rfl⟩, rfl⟩, rfl⟩
      exact ⟨⟨hn, hitems⟩, by rw [List.append_nil]; rfl⟩
    · rintro ⟨⟨hn, hitems⟩, rfl⟩
      exact ⟨_, _, _, ⟨hn, rfl⟩, ⟨_, _, [], ⟨rfl, hitems, rfl⟩, ⟨rfl, rfl⟩,
        (List.append_nil _).symm⟩, rfl⟩

/-! ### Transactions -/

namespace Transfer

/-- A transfer within its limits; it has one witness for each input. -/
structure Fits (t : Transfer) : Prop where
  paired : t.witnesses.length = t.inputs.length
  inputs : FitsList maxInputs t.inputs
  outputs : FitsList maxOutputs t.outputs
  witnesses : ∀ witness ∈ t.witnesses, Format.Fits witness

/-- The bytes of a transfer. -/
def wire (t : Transfer) : Bytes :=
  wireList t.inputs ++ (wireList t.outputs ++
    (t.witnesses.flatMap Format.wire ++ littleEndian 4 t.lockTime.toNat))

variable (t : Transfer)

theorem length_wire : t.wire.length = t.size := by
  simp only [wire, size, List.length_append, length_wireList, length_littleEndian,
    length_flatMap Format.length_wire, Nat.add_assoc]

theorem writes_encode : t.encode.Writes t.Fits t.wire := by
  refine (Writes.guard fun _ => (writes_encodeList _ _ _).seq ((writes_encodeList _ _ _).seq
    ((writes_forM Format.writes _).seq (writes_put _ _)))).of_iff ?_ fun _ => rfl
  constructor
  · rintro ⟨hpaired, hinputs, houtputs, hwitnesses, -⟩
    exact ⟨Decidable.not_not.1 hpaired, hinputs, houtputs, hwitnesses⟩
  · rintro ⟨hpaired, hinputs, houtputs, hwitnesses⟩
    exact ⟨not_not_intro hpaired, hinputs, houtputs, hwitnesses, trivial⟩

theorem reads_decode : Transfer.decode.Reads fun t bytes => t.Fits ∧ bytes = t.wire := by
  refine ((reads_decodeList (by decide) _).bind fun inputs =>
    (reads_decodeList (by decide) _).bind fun outputs =>
    (reads_readMany Format.reads inputs.length).bind fun witnesses =>
    (reads_u32 _).bind fun lockTime => reads_pure _).of_iff fun t bytes => ?_
  constructor
  · rintro ⟨inputs, _, _, ⟨hinputs, rfl⟩, ⟨outputs, _, _, ⟨houtputs, rfl⟩, ⟨witnesses, _, _,
      ⟨hpaired, hwitnesses, rfl⟩, ⟨lockTime, _, _, rfl, ⟨rfl, rfl⟩, rfl⟩, rfl⟩, rfl⟩, rfl⟩
    exact ⟨⟨hpaired, hinputs, houtputs, hwitnesses⟩, by rw [List.append_nil]; rfl⟩
  · rintro ⟨⟨hpaired, hinputs, houtputs, hwitnesses⟩, rfl⟩
    exact ⟨_, _, _, ⟨hinputs, rfl⟩, ⟨_, _, _, ⟨houtputs, rfl⟩, ⟨_, _, _, ⟨hpaired, hwitnesses, rfl⟩,
      ⟨_, _, [], rfl, ⟨rfl, rfl⟩, (List.append_nil _).symm⟩, rfl⟩, rfl⟩, rfl⟩

end Transfer

namespace Body

/-- A body within its limits. -/
def Fits : Body → Prop
  | transfer t => t.Fits
  | genesis outputs => FitsList maxOutputs outputs
  | escrowOpen => True

/-- The bytes of a body. -/
def wire : Body → Bytes
  | transfer t => t.wire
  | genesis outputs => wireList outputs
  | escrowOpen => []

theorem length_wire (body : Body) : body.wire.length = body.size := by
  cases body with
  | transfer t => exact t.length_wire
  | genesis outputs => exact length_wireList outputs
  | escrowOpen => rfl

theorem writes_encode (body : Body) : body.encode.Writes body.Fits body.wire := by
  cases body with
  | transfer t => exact t.writes_encode
  | genesis outputs => exact writes_encodeList outputs _ _
  | escrowOpen => exact writes_pure

theorem reads_decode (kind : TxKind) : (Body.decode kind).Reads fun body bytes =>
    (body.kind = kind ∧ body.Fits) ∧ bytes = body.wire := by
  cases kind with
  | transfer =>
    refine (Transfer.reads_decode.bind fun t => reads_pure _).of_iff fun body bytes => ?_
    constructor
    · rintro ⟨t, _, _, ⟨ht, rfl⟩, ⟨rfl, rfl⟩, rfl⟩
      exact ⟨⟨rfl, ht⟩, List.append_nil _⟩
    · rintro ⟨⟨hkind, hfits⟩, rfl⟩
      cases body with
      | transfer t => exact ⟨t, _, [], ⟨hfits, rfl⟩, ⟨rfl, rfl⟩, (List.append_nil _).symm⟩
      | genesis outputs => cases hkind
      | escrowOpen => cases hkind
  | genesis =>
    refine ((reads_decodeList (by decide) _).bind fun outputs => reads_pure _).of_iff
      fun body bytes => ?_
    constructor
    · rintro ⟨outputs, _, _, ⟨houtputs, rfl⟩, ⟨rfl, rfl⟩, rfl⟩
      exact ⟨⟨rfl, houtputs⟩, List.append_nil _⟩
    · rintro ⟨⟨hkind, hfits⟩, rfl⟩
      cases body with
      | transfer t => cases hkind
      | genesis outputs => exact ⟨outputs, _, [], ⟨hfits, rfl⟩, ⟨rfl, rfl⟩, (List.append_nil _).symm⟩
      | escrowOpen => cases hkind
  | escrowOpen =>
    refine (reads_pure _).of_iff fun body bytes => ?_
    constructor
    · rintro ⟨rfl, rfl⟩
      exact ⟨⟨rfl, trivial⟩, rfl⟩
    · rintro ⟨⟨hkind, -⟩, rfl⟩
      cases body with
      | transfer t => cases hkind
      | genesis outputs => cases hkind
      | escrowOpen => exact ⟨rfl, rfl⟩

end Body

theorem TxKind.ofTag?_eq_some_iff {tag : UInt8} {kind : TxKind} :
    TxKind.ofTag? tag = some kind ↔ tag = kind.tag := by
  constructor
  · intro h
    have hto : tag.toNat = kind.tag.toNat := by
      unfold TxKind.ofTag? at h
      split at h <;> cases h <;> assumption
    exact UInt8.toNat_inj.1 hto
  · rintro rfl
    exact kind.ofTag?_tag

namespace Transaction

/-- A transaction within its limits. -/
structure Fits (tx : Transaction) : Prop where
  version : tx.version = currentVersion
  flags : tx.flags = 0
  body : tx.body.Fits

/-- The bytes of a transaction. -/
def wire (tx : Transaction) : Bytes :=
  littleEndian 1 tx.version.toNat ++ (littleEndian 1 tx.kind.tag.toNat ++
    (littleEndian 2 tx.flags.toNat ++ tx.body.wire))

end Transaction

instance : Format Transaction where
  Fits := Transaction.Fits
  wire := Transaction.wire
  length_wire tx := by
    simp only [Transaction.wire, List.length_append, length_littleEndian, Body.length_wire, Codec.size]
    omega
  writes tx := by
    refine (Writes.guard fun _ => Writes.guard fun _ => (writes_put _ _).seq ((writes_put _ _).seq
      ((writes_put _ _).seq tx.body.writes_encode))).of_iff ?_ fun _ => rfl
    constructor
    · rintro ⟨hversion, hflags, -, -, -, hbody⟩
      exact ⟨Decidable.not_not.1 hversion, Decidable.not_not.1 hflags, hbody⟩
    · rintro ⟨hversion, hflags, hbody⟩
      exact ⟨not_not_intro hversion, not_not_intro hflags, trivial, trivial, trivial, hbody⟩
  reads := by
    refine ((reads_u8 _).bind fun version => Reads.guard (c := version ≠ Transaction.currentVersion)
      fun _ => @Reads.bind _ _ _ _ _ (fun tag (tx : Transaction) bytes =>
        (tx.version = version ∧ TxKind.ofTag? tag = some tx.kind ∧ tx.flags = 0 ∧ tx.body.Fits) ∧
          bytes = littleEndian 2 tx.flags.toNat ++ tx.body.wire) (reads_u8 _)
      fun tag => ?_).of_iff fun tx bytes => ?_
    · cases TxKind.ofTag? tag with
      | none => exact (reads_throw _).of_iff fun tx bytes => by simp
      | some kind =>
        refine ((reads_u16 _).bind fun flags => Reads.guard fun _ =>
          (Body.reads_decode kind).bind fun body => reads_pure _).of_iff fun tx bytes => ?_
        constructor
        · rintro ⟨flags, _, _, rfl, ⟨hflags, body, _, _, ⟨⟨rfl, hbody⟩, rfl⟩, ⟨rfl, rfl⟩, rfl⟩, rfl⟩
          exact ⟨⟨rfl, rfl, Decidable.not_not.1 hflags, hbody⟩, by rw [List.append_nil]⟩
        · rintro ⟨⟨rfl, hkind, hflags, hbody⟩, rfl⟩
          obtain rfl := Option.some.inj hkind
          exact ⟨_, _, _, rfl, ⟨not_not_intro hflags, _, _, [], ⟨⟨rfl, hbody⟩, rfl⟩, ⟨rfl, rfl⟩,
            (List.append_nil _).symm⟩, rfl⟩
    · simp only [TxKind.ofTag?_eq_some_iff]
      constructor
      · rintro ⟨version, _, _, rfl, ⟨hversion, tag, _, _, rfl, ⟨⟨rfl, rfl, hflags, hbody⟩, rfl⟩, rfl⟩,
          rfl⟩
        exact ⟨⟨Decidable.not_not.1 hversion, hflags, hbody⟩, rfl⟩
      · rintro ⟨⟨hversion, hflags, hbody⟩, rfl⟩
        exact ⟨_, _, _, rfl, ⟨not_not_intro hversion, _, _, _, rfl,
          ⟨⟨rfl, rfl, hflags, hbody⟩, rfl⟩, rfl⟩, rfl⟩

/-! ### Headers -/

instance : Format BlockHeader where
  Fits _ := True
  wire header := littleEndian 4 header.version.toNat ++ (header.previous.bytes.toList ++
    (header.merkleRoot.toList ++ (littleEndian 4 header.timestamp.toNat ++
    (header.signature.bytes.toList ++ littleEndian 8 header.random.toNat))))
  length_wire header := by
    simp only [List.length_append, length_littleEndian, FixedBytes.length_toList]
    rfl
  writes header :=
    ((writes_put _ _).seq ((writes_put _ _).seq ((writes_put _ _).seq ((writes_put _ _).seq
      ((writes_put _ _).seq (writes_put _ _)))))).of_iff (by simp) fun _ => rfl
  reads := by
    refine ((reads_u32 _).bind fun version => (reads_fixed 32 _).bind fun previous =>
      (reads_fixed 32 _).bind fun merkleRoot => (reads_u32 _).bind fun timestamp =>
      (reads_fixed 64 _).bind fun signature => (reads_u64 _).bind fun random =>
      reads_pure _).of_iff fun header bytes => ?_
    constructor
    · rintro ⟨version, _, _, rfl, ⟨previous, _, _, rfl, ⟨merkleRoot, _, _, rfl, ⟨timestamp, _, _, rfl,
        ⟨signature, _, _, rfl, ⟨random, _, _, rfl, ⟨rfl, rfl⟩, rfl⟩, rfl⟩, rfl⟩, rfl⟩, rfl⟩, rfl⟩
      exact ⟨trivial, by rw [List.append_nil]⟩
    · rintro ⟨-, rfl⟩
      exact ⟨_, _, _, rfl, ⟨_, _, _, rfl, ⟨_, _, _, rfl, ⟨_, _, _, rfl, ⟨_, _, _, rfl,
        ⟨_, _, [], rfl, ⟨rfl, rfl⟩, (List.append_nil _).symm⟩, rfl⟩, rfl⟩, rfl⟩, rfl⟩, rfl⟩

/-! ### Blocks -/

theorem Input.size_le {input : Input} (h : Fits input) : Codec.size input ≤ 562 := by
  have hscript : input.scriptSig.length ≤ 520 := h
  have := Varint.size_le input.scriptSig.length
  simp only [Codec.size]
  omega

theorem Output.size_le {output : Output} (h : Fits output) : Codec.size output ≤ 529 := by
  have hscript : output.script.length ≤ 520 := h
  have := Varint.size_le output.script.length
  simp only [Codec.size]
  omega

theorem Witness.size_le {witness : Witness} (h : Fits witness) :
    Codec.size witness ≤ witness.items.length * 526 + 1 := by
  have hitem : ∀ item ∈ witness.items, Varint.size item.length + item.length ≤ 525 := by
    intro item hmem
    have hlength : item.length ≤ 520 := h.2 item hmem
    have := Varint.size_le item.length
    omega
  have hsum := sumOf_le hitem
  have := Varint.size_le witness.items.length
  simp only [Codec.size]
  omega

/-- How long a transfer is at most, with so many outputs and so many items in each witness. -/
theorem Transfer.Fits.size_le {t : Transfer} (h : t.Fits) {outputs items : Nat}
    (houtputs : t.outputs.length ≤ outputs)
    (hitems : ∀ witness ∈ t.witnesses, witness.items.length ≤ items) :
    t.size ≤ 512 * 563 + outputs * 530 + 512 * (items * 526 + 1) + 6 := by
  have hinput := listSize_le h.inputs fun _ => Input.size_le
  have houtput := listSize_le ⟨houtputs, h.outputs.2⟩ fun _ => Output.size_le
  have hwitness : ∀ witness ∈ t.witnesses, Codec.size witness ≤ items * 526 + 1 := by
    intro witness hw
    refine Nat.le_trans (Witness.size_le (h.witnesses witness hw)) ?_
    exact Nat.succ_le_succ (Nat.mul_le_mul_right 526 (hitems witness hw))
  have hpaired : t.witnesses.length ≤ 512 := h.paired ▸ h.inputs.1
  have hwitnesses := Nat.le_trans (sumOf_le hwitness) (Nat.mul_le_mul_right _ hpaired)
  simp only [maxInputs] at hinput
  rw [Transfer.size]
  omega

namespace Transaction

/-- A transaction within its limits is short enough for the four bytes of its length. -/
theorem Fits.size_lt {tx : Transaction} (h : tx.Fits) : Codec.size tx < UInt32.size := by
  have hbody : tx.body.size < 4294967292 := by
    have hfits := h.body
    cases hb : tx.body with
    | transfer t =>
      rw [hb] at hfits
      have hsize := hfits.size_le hfits.outputs.1 fun witness hw => (hfits.witnesses witness hw).1
      simp only [Body.size, maxOutputs, maxWitnessItems] at *
      omega
    | genesis outputs =>
      rw [hb] at hfits
      have houtputs := listSize_le hfits fun _ => Output.size_le
      simp only [Body.size, maxOutputs] at *
      omega
    | escrowOpen => decide
  simp only [Codec.size, UInt32.size]
  omega

/-- The bytes of a transaction behind their number. -/
def wireInBlock (tx : Transaction) : Bytes :=
  littleEndian 4 (Codec.size tx) ++ tx.wire

theorem length_wireInBlock (tx : Transaction) : tx.wireInBlock.length = 4 + Codec.size tx := by
  rw [wireInBlock, List.length_append, length_littleEndian]
  exact congrArg (4 + ·) (Format.length_wire tx)

/-- A number that four bytes can hold is the word that is written. -/
theorem wireInBlock_eq {tx : Transaction} (h : Codec.size tx < UInt32.size) :
    tx.wireInBlock = littleEndian 4 (UInt32.ofNat (Codec.size tx)).toNat ++ Format.wire tx := by
  have hto : (UInt32.ofNat (Codec.size tx)).toNat = Codec.size tx := UInt32.toNat_ofNat_of_lt h
  rw [hto]
  rfl

end Transaction

namespace Block

theorem writes_encodeTransaction (tx : Transaction) :
    (encodeTransaction tx).Writes tx.Fits tx.wireInBlock := by
  refine (Writes.guard fun _ => (writes_put _ _).seq (Format.writes tx)).of_iff ?_ ?_
  · exact ⟨fun h => h.2.2, fun h => ⟨Nat.not_le.2 h.size_lt, trivial, h⟩⟩
  · rintro ⟨hsize, -⟩
    exact (Transaction.wireInBlock_eq (Nat.not_le.1 hsize)).symm

theorem reads_decodeTransaction (index : Nat) :
    (decodeTransaction index).Reads fun tx bytes => tx.Fits ∧ bytes = tx.wireInBlock := by
  refine ((reads_u32 _).bind fun size => @Reads.bind _ _ _ _ _
    (fun data (tx : Transaction) bytes => Codec.unmarshal data = .ok tx ∧ bytes = [])
    (reads_take size.toNat _) fun data => ?_).of_iff fun tx bytes => ?_
  · cases (Codec.unmarshal data : Except DecodeError Transaction) with
    | error cause => exact (reads_throw _).of_iff fun tx bytes => by simp
    | ok tx => exact (reads_pure tx).of_iff fun tx' bytes => by simp [eq_comm]
  · simp only [unmarshal_eq_ok_iff]
    constructor
    · rintro ⟨size, _, _, rfl, ⟨data, _, _, ⟨hlength, rfl⟩, ⟨⟨hfits, rfl⟩, rfl⟩, rfl⟩, rfl⟩
      rw [Format.length_wire] at hlength
      exact ⟨hfits, by rw [List.append_nil, ← hlength]; rfl⟩
    · rintro ⟨hfits, rfl⟩
      have hto : (UInt32.ofNat (Codec.size tx)).toNat = Codec.size tx :=
        UInt32.toNat_ofNat_of_lt hfits.size_lt
      refine ⟨UInt32.ofNat (Codec.size tx), _, _, rfl, ⟨Format.wire tx, _, [], ⟨?_, rfl⟩,
        ⟨⟨hfits, rfl⟩, rfl⟩, (List.append_nil _).symm⟩, ?_⟩
      · rw [hto, Format.length_wire]
      · rw [hto]
        rfl

/-- A block within its limits. -/
structure Fits (block : Block) : Prop where
  nonempty : block.transactions ≠ []
  count : block.transactions.length ≤ maxTransactions
  transactions : ∀ tx ∈ block.transactions, tx.Fits

/-- The bytes of a block. -/
def wire (block : Block) : Bytes :=
  Format.wire block.header ++ (Varint.encode block.transactions.length ++
    block.transactions.flatMap Transaction.wireInBlock)

end Block

instance : Format Block where
  Fits := Block.Fits
  wire := Block.wire
  length_wire block := by
    have hheader : (Format.wire block.header).length = Block.headerSize := Format.length_wire _
    rw [Block.wire, List.length_append, List.length_append, Varint.length_encode, hheader,
      length_flatMap Transaction.length_wireInBlock, ← Nat.add_assoc]
    rfl
  writes block := by
    refine (Writes.guard fun _ => (Format.writes block.header).seq ((writes_count _ _ _).seq
      (writes_forM Block.writes_encodeTransaction _))).of_iff ?_ fun _ => rfl
    constructor
    · rintro ⟨hnonempty, -, hcount, htransactions⟩
      exact ⟨fun h => hnonempty (List.isEmpty_iff.2 h), hcount, htransactions⟩
    · rintro ⟨hnonempty, hcount, htransactions⟩
      exact ⟨fun h => hnonempty (List.isEmpty_iff.1 h), trivial, hcount, htransactions⟩
  reads := by
    refine ((Format.reads (α := BlockHeader)).bind fun header =>
      (reads_count (by decide) _).bind fun n => Reads.guard fun _ =>
      (reads_onto Block.reads_decodeTransaction Block.decodeTransactionsOnto (fun _ _ => rfl)
        (fun _ _ _ => rfl) 0 n []).bind fun transactions => reads_pure _).of_iff fun block bytes => ?_
    constructor
    · rintro ⟨header, _, _, ⟨-, rfl⟩, ⟨n, _, _, ⟨hcount, rfl⟩, ⟨hnonempty, _, _, _,
        ⟨transactions, rfl, rfl, htransactions, rfl⟩, ⟨rfl, rfl⟩, rfl⟩, rfl⟩, rfl⟩
      exact ⟨⟨fun h => hnonempty (List.length_eq_zero_iff.2 h), hcount, htransactions⟩,
        by rw [List.append_nil]; rfl⟩
    · rintro ⟨⟨hnonempty, hcount, htransactions⟩, rfl⟩
      exact ⟨_, _, _, ⟨trivial, rfl⟩, ⟨_, _, _, ⟨hcount, rfl⟩,
        ⟨fun h => hnonempty (List.length_eq_zero_iff.1 h), _, _, [],
        ⟨_, rfl, rfl, htransactions, rfl⟩, ⟨rfl, rfl⟩, (List.append_nil _).symm⟩, rfl⟩, rfl⟩

/-! ### Round trip and canonical form -/

/-- Everything that is sent or stored is read back from what was written of it, and ends where its
bytes say. -/
theorem wire_types_round_trip :
    Codec.RoundTrips Input ∧ Codec.RoundTrips Output ∧ Codec.RoundTrips Witness ∧
      Codec.RoundTrips Transaction ∧ Codec.RoundTrips BlockHeader ∧ Codec.RoundTrips Block :=
  ⟨roundTrips _, roundTrips _, roundTrips _, roundTrips _, roundTrips _, roundTrips _⟩

example : Codec.marshal (Transaction.minting [⟨5, [0x51]⟩]) =
    .ok [1, 2, 0, 0, 1, 5, 0, 0, 0, 1, 0x51] := by
  decide +kernel

/-- Everything that is sent or stored is read from one string only, its own bytes; the identifier of
a transaction is the digest of what it was read from. -/
theorem wire_types_canonical [CryptoSuite] :
    Codec.Canonical Input ∧ Codec.Canonical Output ∧ Codec.Canonical Witness ∧
      Codec.Canonical Transaction ∧ Codec.Canonical BlockHeader ∧ Codec.Canonical Block ∧
      ∀ (bytes : Bytes) (tx : Transaction) (n : Nat), Codec.unmarshalFrom bytes = .ok (tx, n) →
        tx.txid = .ok ⟨hash256 (bytes.take n)⟩ := by
  refine ⟨canonical _, canonical _, canonical _, canonical _, canonical _, canonical _,
    fun bytes tx n h => ?_⟩
  have hmarshal := ((canonical Transaction).remarshal bytes tx n h).2
  rw [Transaction.txid, hmarshal]

end UtxoLedger
