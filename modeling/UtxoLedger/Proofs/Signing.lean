import UtxoLedger.Transaction.InPlace
import UtxoLedger.Proofs.Commitment
import UtxoLedger.Proofs.Parsing

/-!
Signing and authorisation agree. The digests that a key signs for a transfer are those that are asked
for when the signed transfer is checked: neither the script code nor anything else that goes into them
depends on the witnesses. So signing needs only an output of the standard kind for each input, and what
is signed for an output of the key is accepted, as far as the signature scheme accepts it.
-/

namespace UtxoLedger

/-! ### Scripts -/

theorem Script.parse_nil : parse [] = .ok ⟨[]⟩ := by
  rw [parse, parseFrom]
  rfl

/-- Exactly the standard output scripts have a script code. -/
theorem Script.scriptCodeFor_eq_ok_iff {bytes code : Bytes} : scriptCodeFor bytes = .ok code ↔
    ∃ hash, bytes = (payTo hash).bytes ∧ code = (spendCode hash).bytes := by
  unfold scriptCodeFor
  simp only [except_bind_eq_ok_iff, program_eq_ok_iff]
  constructor
  · rintro ⟨_, hparse, hash, rfl, hcode⟩
    exact ⟨hash, (parse_eq_ok_iff.1 hparse).2.symm, (Except.ok.inj hcode).symm⟩
  · rintro ⟨hash, rfl, rfl⟩
    exact ⟨_, parse_payTo hash, hash, rfl, rfl⟩

/-- A standard output script tells the digest that it names. -/
theorem Script.payTo_bytes_injective {hash hash' : KeyHash}
    (h : (payTo hash).bytes = (payTo hash').bytes) : hash = hash' := by
  have hprogram : (payTo hash).program = .ok hash := program_eq_ok_iff.2 rfl
  have hparse := parse_payTo hash
  rw [h, parse_payTo] at hparse
  rw [← Except.ok.inj hparse, program_eq_ok_iff.2 rfl] at hprogram
  exact (Except.ok.inj hprogram).symm

section

variable [CryptoSuite]

/-! ### One input -/

/-- The witness by which the owner of a key spends an output: a signature and the public key. -/
def SecretKey.witness (key : SecretKey) (digest : Digest) : Witness :=
  ⟨[CryptoSuite.derBytes (CryptoSuite.sign key digest),
    CryptoSuite.publicKeyBytes key.publicKey]⟩

/-- From the owner's witness the key and its signature of the digest can be read back, and the
signature is then valid. -/
def SecretKey.Verifies (key : SecretKey) (digest : Digest) : Prop :=
  ∃ publicKey signature,
    CryptoSuite.publicKey? (CryptoSuite.publicKeyBytes key.publicKey) = some publicKey ∧
      CryptoSuite.der? (CryptoSuite.derBytes (CryptoSuite.sign key digest)) = some signature ∧
      CryptoSuite.verify publicKey digest signature = true

section Input

variable {key : SecretKey} {source : DigestSource} {index : Nat} {output : Output} {witness : Witness}
  {digest : Digest}

/-- An output of the standard kind is signed for, with the digest that its script code has. -/
theorem signInput_eq_ok_iff : signInput key source index output = .ok witness ↔
    ∃ hash digest, output.script = (Script.payTo hash).bytes ∧
      source (Script.spendCode hash).bytes index output.value.toUInt64 = .ok digest ∧
      witness = key.witness digest := by
  constructor
  · intro h
    unfold signInput at h
    cases hcode : scriptCodeFor output.script with
    | error e =>
      rw [hcode] at h
      cases h
    | ok code =>
      rw [hcode] at h
      obtain ⟨hash, hscript, rfl⟩ := Script.scriptCodeFor_eq_ok_iff.1 hcode
      obtain ⟨digest, hdigest, hw⟩ := except_bind_eq_ok_iff.1 h
      exact ⟨hash, digest, hscript, hdigest, (Except.ok.inj hw).symm⟩
  · rintro ⟨hash, digest, hscript, hdigest, rfl⟩
    unfold signInput
    rw [hscript, Script.scriptCodeFor_eq_ok_iff.2 ⟨hash, rfl, rfl⟩]
    exact except_bind_eq_ok_iff.2 ⟨digest, hdigest, rfl⟩

/-- Every output is signed for on its own. -/
theorem signInputsOnto_eq_mapM (done : List Witness) (outputs : List Output) :
    signInputsOnto key source index done outputs =
      ((outputs.zipIdx index).mapM fun e => signInput key source e.2 e.1).map (done.reverse ++ ·) := by
  induction outputs generalizing index done with
  | nil => exact congrArg Except.ok (List.append_nil _).symm
  | cons output outputs ih =>
    rw [signInputsOnto, List.zipIdx_cons, List.mapM_cons]
    cases signInput key source index output with
    | error e => rfl
    | ok witness =>
      simp only [bind, Except.bind, ih]
      cases (outputs.zipIdx (index + 1)).mapM fun e => signInput key source e.2 e.1 with
      | error e => rfl
      | ok made => simp [Except.map, pure, Except.pure]

theorem signInputs_eq_mapM (outputs : List Output) : signInputsOnto key source 0 [] outputs =
    outputs.zipIdx.mapM fun e => signInput key source e.2 e.1 := by
  rw [signInputsOnto_eq_mapM]
  cases outputs.zipIdx.mapM fun e => signInput key source e.2 e.1 <;> rfl

/-- **The owner's witness authorises the spending** of what is paid to the key. -/
theorem authorize_witness {amount : UInt64} (h : key.Verifies digest)
    (hd : source (Script.spendCode key.publicKey.keyHash).bytes index amount = .ok digest) :
    authorize (.payTo key.publicKey.keyHash) ⟨[]⟩ (key.witness digest) ⟨source, index, amount⟩ =
      .ok () := by
  obtain ⟨publicKey, signature, hkey, hsignature, hverify⟩ := h
  -- an empty unlocking script leaves the two items as they are
  refine authorize_iff_signed.2 ⟨key.publicKey.keyHash, _, _, rfl, rfl, _, _, _, rfl, rfl, rfl, ?_⟩
  exact ⟨publicKey, signature, digest, hkey, hsignature, hd, hverify⟩

end Input

namespace Transaction

variable {tx signed : Transaction} {t : Transfer} {key : SecretKey} {previous : List Output}

/-- The witness is made by the key for the input at `index`, which spends `output`: it signs the digest
of `tx` that goes with the script code of the output. -/
def WitnessFor (tx : Transaction) (key : SecretKey) (index : Nat) (output : Output)
    (witness : Witness) : Prop :=
  ∃ hash digest, output.script = (Script.payTo hash).bytes ∧
    tx.sighash (Script.spendCode hash).bytes index output.value.toUInt64 = .ok digest ∧
    witness = key.witness digest

/-! ### All inputs -/

theorem sign_eq_ok_iff (hb : tx.body = .transfer t) : tx.sign key previous = .ok signed ↔
    previous.length = t.inputs.length ∧ ∃ witnesses,
      (previous.zipIdx.mapM fun e => signInput key tx.sighash e.2 e.1) = .ok witnesses ∧
      signed = { tx with body := .transfer { t with witnesses } } := by
  have hinputs : tx.inputs = t.inputs := by rw [inputs, hb]
  unfold sign
  rw [hinputs]
  by_cases hlen : previous.length = t.inputs.length
  · rw [if_neg (not_not.2 hlen), hb]
    simp only [← sighash_eq hb, signInputs_eq_mapM, except_bind_eq_ok_iff, hlen, true_and]
    refine exists_congr fun witnesses => and_congr_right fun _ => ?_
    exact ⟨fun h => (Except.ok.inj h).symm, fun h => congrArg Except.ok h.symm⟩
  · simp [hlen]

/-- Every output has a witness of its own. -/
theorem exists_witnessFor {witnesses : List Witness}
    (h : (previous.zipIdx.mapM fun e => signInput key tx.sighash e.2 e.1) = .ok witnesses) {i : Nat}
    {output : Output} (ho : previous[i]? = some output) :
    ∃ witness, witnesses[i]? = some witness ∧ tx.WitnessFor key i output witness := by
  obtain ⟨hlen, hmade⟩ := List.forall₂_iff_get.1 (mapM_eq_ok_iff.1 h)
  obtain ⟨hi, rfl⟩ := List.getElem?_eq_some_iff.1 ho
  have hi' : i < previous.zipIdx.length := by rwa [List.length_zipIdx]
  have hone := hmade i hi' (hlen ▸ hi')
  simp only [List.get_eq_getElem, List.getElem_zipIdx, Nat.zero_add] at hone
  exact ⟨_, List.getElem?_eq_getElem _, signInput_eq_ok_iff.1 hone⟩

/-- There is a digest for every input, so only for an output that is not standard nothing can be
signed. -/
theorem exists_sign_eq_ok_iff (hb : tx.body = .transfer t) :
    (∃ signed, tx.sign key previous = .ok signed) ↔ previous.length = t.inputs.length ∧
      ∀ output ∈ previous, ∃ hash, output.script = (Script.payTo hash).bytes := by
  constructor
  · rintro ⟨signed, hsign⟩
    obtain ⟨hlen, witnesses, hmade, -⟩ := (sign_eq_ok_iff hb).1 hsign
    refine ⟨hlen, fun output ho => ?_⟩
    obtain ⟨i, hi⟩ := List.mem_iff_getElem?.1 ho
    obtain ⟨witness, -, hash, digest, hscript, -⟩ := exists_witnessFor hmade hi
    exact ⟨hash, hscript⟩
  · rintro ⟨hlen, hstandard⟩
    obtain ⟨witnesses, hmade⟩ : ∃ witnesses,
        (previous.zipIdx.mapM fun e => signInput key tx.sighash e.2 e.1) = .ok witnesses := by
      refine exists_mapM_eq_ok fun e he => ?_
      obtain ⟨hash, hscript⟩ := hstandard e.1 (List.fst_mem_of_mem_zipIdx he)
      have hi : e.2 < t.inputs.length := by simpa [hlen] using List.snd_lt_of_mem_zipIdx he
      exact ⟨_, signInput_eq_ok_iff.2
        ⟨hash, _, hscript, sighash_eq_ok hb (List.getElem?_eq_getElem hi) _ _, rfl⟩⟩
    exact ⟨_, (sign_eq_ok_iff hb).2 ⟨hlen, witnesses, hmade, rfl⟩⟩

/-- **Signing leaves the digests as they are**, so those that are signed are those that are asked for. -/
theorem sighash_of_sign (hb : tx.body = .transfer t) (h : tx.sign key previous = .ok signed) :
    signed.sighash = tx.sighash := by
  obtain ⟨-, witnesses, -, rfl⟩ := (sign_eq_ok_iff hb).1 h
  exact sighash_eq_of_unlocking rfl hb rfl rfl rfl rfl rfl

/-- **What the key has signed for is authorised**, as far as the scheme accepts it: the script code that
the check rebuilds is the one that the digest was made with. -/
theorem authorize_of_sign (hb : tx.body = .transfer t) (h : tx.sign key previous = .ok signed)
    {i : Nat} {output : Output} (ho : previous[i]? = some output)
    (hscript : output.script = (Script.payTo key.publicKey.keyHash).bytes)
    (hverifies : ∀ digest, tx.sighash (Script.spendCode key.publicKey.keyHash).bytes i
      output.value.toUInt64 = .ok digest → key.Verifies digest) :
    ∃ witness hasher, signed.witnesses[i]? = some witness ∧ signed.hasher? = .ok hasher ∧
      authorize (.payTo key.publicKey.keyHash) ⟨[]⟩ witness
        ⟨hasher.digest, i, output.value.toUInt64⟩ = .ok () := by
  have hsame := sighash_of_sign hb h
  obtain ⟨-, witnesses, hmade, rfl⟩ := (sign_eq_ok_iff hb).1 h
  obtain ⟨witness, hw, hash, digest, hpaid, hdigest, rfl⟩ := exists_witnessFor hmade ho
  obtain rfl := Script.payTo_bytes_injective (hpaid.symm.trans hscript)
  refine ⟨_, _, hw, rfl, authorize_witness (hverifies digest hdigest) ?_⟩
  rw [← sighash_eq rfl, hsame]
  exact hdigest

/-! ### In place -/

theorem InPlace.run_sign (tx : Transaction) (key : SecretKey) (previous : List Output) :
    (InPlace.sign key previous).run tx =
      match tx.sign key previous with
      | .ok signed => .ok () signed
      | .error e => .error e tx := by
  unfold InPlace.sign Transaction.sign
  simp only [EStateM.run_bind, EStateM.run_get]
  by_cases hlen : previous.length ≠ tx.inputs.length
  · rw [if_pos hlen, if_pos hlen]
    rfl
  · rw [if_neg hlen, if_neg hlen]
    cases hb : tx.body with
    | transfer t =>
      simp only [EStateM.run_bind, run_ofExcept, hasher?, hb]
      cases signInputsOnto key (t.hasher tx.version).digest 0 [] previous with
      | error e => rfl
      | ok witnesses =>
        simp only [withWitnesses, EStateM.run_modify, hb]
        rfl
    | genesis outputs => simp only [EStateM.run_bind, run_ofExcept, hasher?, hb]
    | escrowOpen => simp only [EStateM.run_bind, run_ofExcept, hasher?, hb]

theorem InPlace.run_sign_eq_ok_iff :
    (InPlace.sign key previous).run tx = .ok () signed ↔ tx.sign key previous = .ok signed := by
  rw [InPlace.run_sign]
  cases tx.sign key previous <;> simp

/-- Nothing is changed before all witnesses have been made. -/
theorem InPlace.eq_of_run_sign_eq_error {e : Error} {after : Transaction}
    (h : (InPlace.sign key previous).run tx = .error e after) : after = tx := by
  rw [InPlace.run_sign] at h
  cases hs : tx.sign key previous with
  | ok signed =>
    rw [hs] at h
    cases h
  | error found =>
    rw [hs] at h
    cases h
    rfl

/-- What signing all inputs of a transfer with one key comes to. -/
structure Signing (tx : Transaction) (t : Transfer) (key : SecretKey) (previous : List Output) :
    Prop where
  /-- It succeeds exactly if there is an output for each input, and all of these are standard. -/
  succeeds : (∃ signed, (InPlace.sign key previous).run tx = .ok () signed) ↔
    previous.length = t.inputs.length ∧
      ∀ output ∈ previous, ∃ hash, output.script = (Script.payTo hash).bytes
  /-- If it fails, the transaction is as it was. -/
  refused : ∀ e after, (InPlace.sign key previous).run tx = .error e after → after = tx
  /-- If it succeeds, the witnesses are replaced by one for each input, and nothing else. -/
  replaced : ∀ signed, (InPlace.sign key previous).run tx = .ok () signed → ∃ witnesses,
    signed = { tx with body := .transfer { t with witnesses } } ∧
      witnesses.length = t.inputs.length ∧ ∀ i output, previous[i]? = some output →
        ∃ witness, witnesses[i]? = some witness ∧ tx.WitnessFor key i output witness
  /-- The digests for the inputs stay the same. -/
  sighash_eq : ∀ signed, (InPlace.sign key previous).run tx = .ok () signed →
    signed.sighash = tx.sighash
  /-- An input without an unlocking script may then spend an output of the key, if the signature scheme
  accepts what it has signed there. -/
  authorized : ∀ signed, (InPlace.sign key previous).run tx = .ok () signed →
    ∀ i input output, t.inputs[i]? = some input → previous[i]? = some output →
      input.scriptSig = [] → output.script = (Script.payTo key.publicKey.keyHash).bytes →
      (∀ digest, tx.sighash (Script.spendCode key.publicKey.keyHash).bytes i output.value.toUInt64 =
        .ok digest → key.Verifies digest) →
      ∃ locking unlocking witness hasher, Script.parse output.script = .ok locking ∧
        Script.parse input.scriptSig = .ok unlocking ∧ signed.witnesses[i]? = some witness ∧
        signed.hasher? = .ok hasher ∧
        authorize locking unlocking witness ⟨hasher.digest, i, output.value.toUInt64⟩ = .ok ()

/-- **A transfer is signed for what is checked later.** -/
theorem signing_transfer (hb : tx.body = .transfer t) (key : SecretKey)
    (previous : List Output) : tx.Signing t key previous := by
  constructor
  case succeeds => simp only [InPlace.run_sign_eq_ok_iff, exists_sign_eq_ok_iff hb]
  case refused => exact fun e after => InPlace.eq_of_run_sign_eq_error
  case replaced =>
    intro signed h
    obtain ⟨hlen, witnesses, hmade, rfl⟩ := (sign_eq_ok_iff hb).1 (InPlace.run_sign_eq_ok_iff.1 h)
    have hcount := (mapM_eq_ok_iff.1 hmade).length_eq
    rw [List.length_zipIdx, hlen] at hcount
    exact ⟨witnesses, rfl, hcount.symm, fun i output => exists_witnessFor hmade⟩
  case sighash_eq => exact fun signed h => sighash_of_sign hb (InPlace.run_sign_eq_ok_iff.1 h)
  case authorized =>
    intro signed h i input output _ ho hempty hscript hverifies
    obtain ⟨witness, hasher, hw, hh, ha⟩ :=
      authorize_of_sign hb (InPlace.run_sign_eq_ok_iff.1 h) ho hscript hverifies
    exact ⟨_, _, witness, hasher, hscript ▸ Script.parse_payTo _, hempty ▸ Script.parse_nil, hw, hh, ha⟩

end Transaction

end

/-! ### A payment -/

namespace Payment

/-- A transfer that divides the minted coins, before it is signed. -/
def division : Transaction :=
  .unsigned [⟨⟨mintingId, 0⟩, [], 5⟩]
    [⟨20, (Script.payTo owner.keyHash).bytes⟩, ⟨30, (Script.payTo owner.keyHash).bytes⟩] 7

/-- What the owner signs for it. -/
def orderDigest : Digest :=
  ⟨bigEndian 32 0xb3dc0c7fc5931d86e75d83863e15bc3515246ce4bc3885504d91977fcb1c01f2, by simp⟩

/-- The owner's signature of it. -/
def orderSignature : Signature where
  r := 0xc524c0ae35799242e16794bc7f267b44714a0fbca46dfd1150716e03b2270a8d
  s := 0x1d257592dd1781d7f39f64fbe5f5a7dbcf2934d18bb9abaf47923faa10683950

theorem publicKey_key : key.publicKey = owner := by
  decide +kernel

theorem sign_orderDigest : CryptoSuite.sign key orderDigest = orderSignature := by
  decide +kernel

theorem verifies_orderDigest : key.Verifies orderDigest := by
  refine ⟨owner, orderSignature, ?_, ?_, ?_⟩
  · rw [publicKey_key]
    decide +kernel
  · rw [sign_orderDigest]
    decide +kernel
  · decide +kernel

theorem sighash_division :
    division.sighash (Script.spendCode owner.keyHash).bytes 0 50 = .ok orderDigest := by
  decide +kernel

end Payment

open Payment in
/-- The owner of the minted coins signs for them in place, and the witness authorises the spending. -/
theorem Transaction.signing_division :
    (∃ t, division.body = .transfer t) ∧
      ∃ signed, (InPlace.sign key Payment.minting.outputs).run division = .ok () signed ∧
        ∃ locking unlocking witness hasher,
          Script.parse (Script.payTo owner.keyHash).bytes = .ok locking ∧
          Script.parse [] = .ok unlocking ∧ signed.witnesses[0]? = some witness ∧
          signed.hasher? = .ok hasher ∧
          authorize locking unlocking witness ⟨hasher.digest, 0, 50⟩ = .ok () := by
  have hb : division.body = .transfer ⟨division.inputs, division.outputs, [⟨[]⟩], 7⟩ := rfl
  have h := signing_transfer hb key Payment.minting.outputs
  have hstandard : ∀ output ∈ Payment.minting.outputs,
      ∃ hash, output.script = (Script.payTo hash).bytes :=
    fun output ho => ⟨owner.keyHash, by rw [List.mem_singleton.1 ho]⟩
  obtain ⟨signed, hsigned⟩ := h.succeeds.2 ⟨rfl, hstandard⟩
  refine ⟨⟨_, hb⟩, signed, hsigned, ?_⟩
  refine h.authorized signed hsigned 0 ⟨⟨mintingId, 0⟩, [], 5⟩
    ⟨50, (Script.payTo owner.keyHash).bytes⟩ rfl rfl rfl ?_ fun digest hdigest => ?_
  · rw [publicKey_key]
  · rw [publicKey_key] at hdigest
    obtain rfl := Except.ok.inj (sighash_division.symm.trans hdigest)
    exact verifies_orderDigest

end UtxoLedger
