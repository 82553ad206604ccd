import UtxoLedger.Proofs.Authorization
import UtxoLedger.Proofs.Run

/-!
Coins move with their owner's signature: what an input of a stored transfer consumes was created by
one transaction before it, and is locked to a key that has signed this transfer for this input.
-/

namespace UtxoLedger

section

variable [CryptoSuite]

/-! ### The inputs of a transfer -/

/-- All inputs are authorised exactly if each one is, with the witness and the output at its place. -/
theorem Transaction.authorizeInputs_eq_ok_iff {source : DigestSource} {inputs : List Input}
    {witnesses : List Witness} {outputs : List Output} {first : Nat} :
    authorizeInputs source first inputs witnesses outputs = .ok () ↔
      ∀ i input witness previous, inputs[i]? = some input → witnesses[i]? = some witness →
        outputs[i]? = some previous →
          authorizeInput source (first + i) input witness previous = .ok () := by
  induction inputs generalizing first witnesses outputs with
  | nil => simp [authorizeInputs]
  | cons input inputs ih =>
    cases witnesses with
    | nil => simp [authorizeInputs]
    | cons witness witnesses =>
      cases outputs with
      | nil => simp [authorizeInputs]
      | cons output outputs =>
        rw [authorizeInputs, except_bind_eq_ok_iff, ← Nat.and_forall_add_one]
        simp [ih, Unique.exists_iff, Nat.add_assoc, Nat.add_comm 1]

/-- An authorised input consumes an output that names the digest of a key, and has a valid signature
by that key. -/
theorem Transaction.exists_signed_of_authorizeInput {source : DigestSource} {index : Nat}
    {input : Input} {witness : Witness} {previous : Output}
    (h : authorizeInput source index input witness previous = .ok ()) :
    ∃ hash key signature, Script.parse previous.script = .ok (.payTo hash) ∧
      (SpendContext.mk source index previous.value.toUInt64).Signed hash key signature := by
  unfold authorizeInput at h
  cases hl : Script.parse previous.script with
  | error e =>
    rw [hl] at h
    cases h
  | ok locking =>
    cases hu : Script.parse input.scriptSig with
    | error e =>
      rw [hl, hu] at h
      cases h
    | ok unlocking =>
      rw [hl, hu] at h
      obtain ⟨hash, key, signature, rfl, hs⟩ := exists_signed_of_authorize h
      exact ⟨hash, key, signature, rfl, hs⟩

theorem Transaction.sighash_eq {tx : Transaction} {t : Transfer} (hb : tx.body = .transfer t) :
    tx.sighash = (t.hasher tx.version).digest := by
  funext code index amount
  rw [sighash, hasher?, hb]
  rfl

/-- What an input of a transfer consumes is locked to a key that signs the transfer for it. -/
theorem Transaction.Spends.exists_signed {tx : Transaction} {t : Transfer} {previous : List Output}
    {utxos : Utxos} (h : tx.Spends t previous utxos) {i : Nat} {input : Input}
    (hi : t.inputs[i]? = some input) :
    ∃ output hash key signature, utxos.get? input.outpoint = some output ∧
      Script.parse output.script = .ok (.payTo hash) ∧
      (SpendContext.mk tx.sighash i output.value.toUInt64).Signed hash key signature := by
  obtain ⟨hlt, rfl⟩ := List.getElem?_eq_some_iff.1 hi
  have hwitnesses := (Body.checkStructure_transfer.1 h.structure_eq_ok).2.2.1
  have hprevious : i < previous.length := h.found.length_eq ▸ hlt
  have hall := (Transfer.checkSpending_eq_ok_iff.1 h.checked).2
  have hone := authorizeInputs_eq_ok_iff.1 hall i _ _ _ hi
    (List.getElem?_eq_getElem (hwitnesses ▸ hlt)) (List.getElem?_eq_getElem hprevious)
  obtain ⟨hash, key, signature, hparse, hs⟩ := exists_signed_of_authorizeInput hone
  rw [← sighash_eq h.body, Nat.zero_add] at hs
  exact ⟨previous[i], hash, key, signature, h.found.get hlt hprevious, hparse, hs⟩

/-! ### The chain -/

/-- In a lawful chain, what an input of a transfer consumes was created before it, and only once. -/
theorem Lawful.exists_signed {pre post : List Transaction} {tx : Transaction} {utxos : Utxos}
    (h : Lawful (pre ++ tx :: post) utxos) {t : Transfer} (hb : tx.body = .transfer t) {i : Nat}
    {input : Input} (hi : t.inputs[i]? = some input) :
    ∃ creator ∈ pre, ∃ output hash key signature, creator.Creates input.outpoint output ∧
      Script.parse output.script = .ok (.payTo hash) ∧
      (SpendContext.mk tx.sighash i output.value.toUInt64).Signed hash key signature := by
  obtain ⟨before, after, hpre, step⟩ := h.split
  rcases step.kind with ⟨-, hg⟩ | ⟨t', previous, hs⟩
  · simp [Transaction.isGenesis, hb] at hg
  · obtain rfl : t = t' := by simpa [hb] using hs.body
    obtain ⟨output, hash, key, signature, hget, hparse, hsigned⟩ := hs.exists_signed hi
    obtain ⟨creator, hmem, hc⟩ := hpre.exists_creator (Table.mem_of_get? hget)
    exact ⟨creator, hmem, output, hash, key, signature, hc, hparse, hsigned⟩

/-- **Coins move only with the owner's signature.** What an input of a stored transfer consumes was
created by a transaction before it, which is the only one to create anything there; it is locked to
the digest of a key, and there is a signature by that key which is valid for this transfer, this
input and the value that it consumes. -/
theorem Ledger.exists_signed_run {events : List Event} (hd : DistinctIds (broughtBy events))
    {pre post : List Transaction} {tx : Transaction}
    (hs : (Ledger.run events).transactions = pre ++ tx :: post) {t : Transfer}
    (hb : tx.body = .transfer t) {i : Nat} {input : Input} (hi : t.inputs[i]? = some input) :
    ∃ creator ∈ pre, ∃ output hash key signature,
      (∀ other ∈ pre ++ tx :: post, ∀ output',
        other.Creates input.outpoint output' ↔ other = creator ∧ output' = output) ∧
      Script.parse output.script = .ok (.payTo hash) ∧
      (SpendContext.mk tx.sighash i output.value.toUInt64).Signed hash key signature := by
  have hl := (Ledger.sound_run hd).lawful
  rw [hs] at hl
  obtain ⟨creator, hmem, output, hash, key, signature, hc, hrest⟩ := hl.exists_signed hb hi
  refine ⟨creator, hmem, output, hash, key, signature, fun other ho output' => ⟨fun hc' => ?_, ?_⟩,
    hrest⟩
  · obtain rfl : other = creator :=
      hl.eq_of_txid_eq ho (List.mem_append_left _ hmem) (hc'.1.trans hc.1.symm)
    exact ⟨rfl, hc'.output_eq hc⟩
  · rintro ⟨rfl, rfl⟩
    exact hc

end

open Payment in
/-- The coins of the payment are locked to the digest of a key, and a signature by that key is valid
for the payment. -/
theorem Ledger.exists_signed_payment : ∃ output hash key signature,
    minting.Creates ⟨mintingId, 0⟩ output ∧ Script.parse output.script = .ok (.payTo hash) ∧
      (SpendContext.mk spend.sighash 0 output.value.toUInt64).Signed hash key signature := by
  have hs : (Ledger.run events).transactions = [minting] ++ spend :: [] := transactions_run
  have hb : spend.body = .transfer transfer := rfl
  have hi : transfer.inputs[0]? = some ⟨⟨mintingId, 0⟩, [], finalSequence⟩ := rfl
  obtain ⟨creator, hmem, output, hash, key, signature, hc, hrest⟩ :=
    Ledger.exists_signed_run distinctIds hs hb hi
  obtain rfl := List.mem_singleton.1 hmem
  exact ⟨output, hash, key, signature, (hc minting (by simp) output).2 ⟨rfl, rfl⟩, hrest⟩

end UtxoLedger
