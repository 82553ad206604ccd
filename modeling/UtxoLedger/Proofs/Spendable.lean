import UtxoLedger.Proofs.Agreement
import UtxoLedger.Proofs.Encoding
import UtxoLedger.Proofs.Standard

/-!
Coins can be spent by their owner. A transfer that an owner makes of confirmed outputs, signs and
sends is written, queued and accepted: nothing that is asked of it on the way is stricter than what
signing gives. Of the signature scheme this needs that it accepts its own signatures.
-/

namespace UtxoLedger

/-! ### Scripts of an owner -/

/-- A transaction that pays to digests of keys, with nothing in its unlocking scripts, is standard. -/
theorem Transaction.checkStandard_eq_ok {tx : Transaction}
    (ho : ∀ output ∈ tx.outputs, ∃ hash, output.script = (Script.payTo hash).bytes)
    (hi : ∀ input ∈ tx.inputs, input.scriptSig = []) : tx.checkStandard = .ok () := by
  simp only [Script.bytes_payTo] at ho
  exact checkStandard_eq_ok_iff.2
    ⟨ho, fun input hinput => ⟨⟨[]⟩, hi input hinput ▸ Script.parse_nil⟩⟩

section

variable [CryptoSuite]

/-! ### Signatures of an owner -/

/-- **The scheme accepts its own signature** of a digest: key and signature can be read back from a
witness, into which they fit, and verification succeeds. -/
structure SecretKey.SignsFor (key : SecretKey) (digest : Digest) : Prop where
  verifies : ∃ publicKey signature,
    CryptoSuite.publicKey? (CryptoSuite.publicKeyBytes key.publicKey) = some publicKey ∧
      CryptoSuite.der? (CryptoSuite.derBytes (CryptoSuite.sign key digest)) = some signature ∧
      CryptoSuite.verify publicKey digest signature = true
  keyLength : (CryptoSuite.publicKeyBytes key.publicKey).length ≤ maxFieldLength
  signatureLength :
    (CryptoSuite.derBytes (CryptoSuite.sign key digest)).length ≤ maxFieldLength

section Signing

variable {key : SecretKey} {source : DigestSource} {index : Nat} {output : Output}
  {digest : Digest}

theorem SecretKey.SignsFor.fits (h : key.SignsFor digest) : Format.Fits (key.witness digest) := by
  refine ⟨by show 2 ≤ maxWitnessItems; decide, ?_⟩
  intro item hitem
  rcases List.mem_pair.1 hitem with rfl | rfl
  · exact h.signatureLength
  · exact h.keyLength

theorem authorizeInput_witness {input : Input} (h : key.Verifies digest)
    (hempty : input.scriptSig = [])
    (ho : output.script = (Script.payTo key.publicKey.keyHash).bytes)
    (hd : source (Script.spendCode key.publicKey.keyHash).bytes index output.value.toUInt64 =
      .ok digest) :
    Transaction.authorizeInput source index input (key.witness digest) output = .ok () := by
  unfold Transaction.authorizeInput
  rw [ho, hempty, Script.parse_payTo, Script.parse_nil]
  exact authorize_witness h hd

end Signing

/-! ### Orders -/

/-- What an owner asks for: coins to be spent, each with a sequence number, and what to make of
them. -/
structure Order where
  coins : List (Outpoint × UInt32)
  outputs : List Output
  lockTime : UInt32

namespace Order

/-- The coins as inputs, without unlocking scripts. -/
def inputs (order : Order) : List Input :=
  order.coins.map fun coin => ⟨coin.1, [], coin.2⟩

/-- The transaction before it is signed. -/
def transaction (order : Order) : Transaction :=
  .unsigned order.inputs order.outputs order.lockTime

/-- The transfer with given witnesses. -/
def transfer (order : Order) (witnesses : List Witness) : Transfer :=
  ⟨order.inputs, order.outputs, witnesses, order.lockTime⟩

/-- What is to be signed for the inputs. Witnesses do not count. -/
def digest (order : Order) : DigestSource :=
  ((order.transfer []).hasher Transaction.currentVersion).digest

/-- **An owner may order this**: coins that are confirmed and pay to the key, no more than fit and
none twice, and outputs to digests of keys, as many as have addresses, that are worth the same. -/
structure Payable (order : Order) (ledger : Ledger) (key : SecretKey) (previous : List Output) :
    Prop where
  coins_ne_nil : order.coins ≠ []
  coins_length : order.coins.length ≤ maxInputs
  coins_nodup : (order.coins.map Prod.fst).Nodup
  confirmed : List.Forall₂ (fun coin output => ledger.utxo? coin.1 = some output) order.coins previous
  owned : ∀ output ∈ previous, output.script = (Script.payTo key.publicKey.keyHash).bytes
  outputs_ne_nil : order.outputs ≠ []
  outputs_length : order.outputs.length ≤ maxAddressableOutputs
  standard : ∀ output ∈ order.outputs, ∃ hash, output.script = (Script.payTo hash).bytes
  balanced : totalValue previous = totalValue order.outputs

/-- The scheme accepts the signatures that the order takes. -/
def Signable (order : Order) (key : SecretKey) (previous : List Output) : Prop :=
  ∀ i output digest, previous[i]? = some output →
    order.digest (Script.spendCode key.publicKey.keyHash).bytes i output.value.toUInt64 =
      .ok digest → key.SignsFor digest

variable {order : Order} {ledger : Ledger} {key : SecretKey} {previous : List Output}

omit [CryptoSuite] in
theorem body_transaction (order : Order) : order.transaction.body =
    .transfer (order.transfer (order.inputs.map fun _ => ⟨[]⟩)) := rfl

theorem sighash_transaction (order : Order) : order.transaction.sighash = order.digest :=
  (Transaction.sighash_eq order.body_transaction).trans rfl

namespace Payable

variable (h : order.Payable ledger key previous) (hs : order.Signable key previous)

include h hs in
/-- **Signing succeeds**, and every witness fits and authorises its input. -/
theorem exists_sign : ∃ witnesses,
    order.transaction.sign key previous = .ok (.ofBody (.transfer (order.transfer witnesses))) ∧
      witnesses.length = order.inputs.length ∧ (∀ witness ∈ witnesses, Format.Fits witness) ∧
      Transaction.authorizeInputs order.digest 0 order.inputs witnesses previous = .ok () := by
  have hbody := order.body_transaction
  have hlen : previous.length = order.inputs.length := by
    rw [inputs, List.length_map, h.confirmed.length_eq]
  obtain ⟨signed, hsign⟩ := (Transaction.exists_sign_eq_ok_iff hbody).2
    ⟨hlen, fun output ho => ⟨_, h.owned output ho⟩⟩
  obtain ⟨-, witnesses, hmade, rfl⟩ := (Transaction.sign_eq_ok_iff hbody).1 hsign
  have hcount : witnesses.length = previous.length := by
    rw [← (mapM_eq_ok_iff.1 hmade).length_eq, List.length_zipIdx]
  -- every witness is the owner's, for a digest that the scheme accepts
  have howner : ∀ i output witness, previous[i]? = some output → witnesses[i]? = some witness →
      ∃ digest, order.digest (Script.spendCode key.publicKey.keyHash).bytes i
        output.value.toUInt64 = .ok digest ∧ key.SignsFor digest ∧ witness = key.witness digest := by
    intro i output witness ho hw
    obtain ⟨witness', hw', hash, digest, hpaid, hdigest, rfl⟩ :=
      Transaction.exists_witnessFor hmade ho
    obtain rfl := Option.some.inj (hw.symm.trans hw')
    obtain rfl := Script.payTo_bytes_injective
      (hpaid.symm.trans (h.owned output (List.mem_of_getElem? ho)))
    rw [sighash_transaction] at hdigest
    exact ⟨digest, hdigest, hs i output digest ho hdigest, rfl⟩
  refine ⟨witnesses, hsign, hcount.trans hlen, fun witness hw => ?_, ?_⟩
  · obtain ⟨i, hi, rfl⟩ := List.mem_iff_getElem.1 hw
    obtain ⟨digest, -, hsigns, hwitness⟩ := howner i _ _
      (List.getElem?_eq_getElem (hcount ▸ hi)) (List.getElem?_eq_getElem hi)
    rw [hwitness]
    exact hsigns.fits
  · refine Transaction.authorizeInputs_eq_ok_iff.2 fun i input witness output hi hw ho => ?_
    obtain ⟨digest, hdigest, hsigns, rfl⟩ := howner i output witness ho hw
    have hempty : input.scriptSig = [] := by
      obtain ⟨coin, -, rfl⟩ := List.mem_map.1 (List.mem_of_getElem? hi)
      rfl
    rw [Nat.zero_add]
    exact authorizeInput_witness hsigns.verifies hempty (h.owned _ (List.mem_of_getElem? ho)) hdigest

section Signed

variable {witnesses : List Witness}

include h in
/-- What is signed can be written. -/
theorem fits (hcount : witnesses.length = order.inputs.length)
    (hfits : ∀ witness ∈ witnesses, Format.Fits witness) :
    Format.Fits (Transaction.ofBody (.transfer (order.transfer witnesses))) := by
  refine ⟨rfl, rfl, hcount, ⟨?_, ?_⟩, ⟨?_, ?_⟩, hfits⟩
  · show order.inputs.length ≤ maxInputs
    rw [inputs, List.length_map]
    exact h.coins_length
  · intro input hinput
    obtain ⟨coin, -, rfl⟩ := List.mem_map.1 hinput
    exact Nat.zero_le _
  · show order.outputs.length ≤ maxOutputs
    have hmost : maxAddressableOutputs ≤ maxOutputs := by decide
    exact Nat.le_trans h.outputs_length hmost
  · intro output houtput
    obtain ⟨hash, hscript⟩ := h.standard output houtput
    show output.script.length ≤ maxFieldLength
    rw [hscript, Script.length_payTo]
    decide

include h in
/-- What is signed keeps the rules. -/
theorem checkRules_eq_ok (hcount : witnesses.length = order.inputs.length) :
    (Transaction.ofBody (.transfer (order.transfer witnesses))).checkRules = .ok () := by
  have hbody : (Body.transfer (order.transfer witnesses)).checkStructure = .ok () := by
    refine Body.checkStructure_transfer.2 ⟨?_, h.outputs_ne_nil, hcount, ?_⟩
    · show order.inputs ≠ []
      rw [inputs, Ne, List.map_eq_nil_iff]
      exact h.coins_ne_nil
    · show (order.inputs.map (·.outpoint)).Nodup
      rw [inputs, List.map_map]
      exact h.coins_nodup
  refine Transaction.checkRules_eq_ok_iff.2
    ⟨Transaction.checkStructure_eq_ok_iff.2 ⟨rfl, rfl, hbody, h.outputs_length⟩, ?_⟩
  refine Transaction.checkStandard_eq_ok h.standard fun input hinput => ?_
  obtain ⟨coin, -, rfl⟩ := List.mem_map.1 hinput
  rfl

include h in
/-- What is signed finds its coins, is balanced and is authorised. -/
theorem validate_eq_ok (tip : Option BlockRecord) (hcount : witnesses.length = order.inputs.length)
    (hauthorized :
      Transaction.authorizeInputs order.digest 0 order.inputs witnesses previous = .ok ()) :
    ledger.validate tip .new (.ofBody (.transfer (order.transfer witnesses))) = .ok () := by
  have hresolve : ledger.resolveAll .new order.inputs = .ok previous := by
    rw [Ledger.resolveAll_eq_ok_iff, inputs, List.forall₂_map_left_iff]
    refine h.confirmed.imp fun coin output hfound => ?_
    show ledger.resolve .new coin.1 = .ok output
    have hfree : Pending.new.isSpent coin.1 = false := rfl
    have hnone : Pending.new.newUnspent? coin.1 = none := rfl
    rw [Ledger.resolve, hfree, hnone, hfound]
    rfl
  have hchecked : (order.transfer witnesses).checkSpending Transaction.currentVersion previous =
      .ok () :=
    Transfer.checkSpending_eq_ok_iff.2 ⟨h.balanced, hauthorized⟩
  exact Ledger.validate_eq_ok_iff.2
    ⟨h.checkRules_eq_ok hcount, .inr ⟨_, previous, rfl, rfl, hresolve, hchecked⟩⟩

end Signed

end Payable

/-- What becomes of an order: a signed transaction with the coins and the outputs that are asked for,
which can be written, is queued behind all that waits unless its identifier waits already, and passes
the checks of the next block. -/
structure Settled (order : Order) (ledger : Ledger) (key : SecretKey) (previous : List Output)
    (tx : Transaction) : Prop where
  signed : order.transaction.sign key previous = .ok tx
  inpoints : tx.inpoints = order.coins.map Prod.fst
  outputs : tx.outputs = order.outputs
  written : ∃ bytes, Codec.marshal tx = .ok bytes
  queued : ∃ id, tx.txid = .ok id ∧
    (ledger.mempool.contains id = false → ∃ after, ledger.queue tx = .ok (id, after) ∧
      after.pending = ledger.pending ++ [tx] ∧ after.utxos = ledger.utxos ∧
        after.blocks = ledger.blocks)
  valid : ledger.validate ledger.tip? .new tx = .ok ()

/-- **Owned coins can be spent**, whatever the ledger holds besides. -/
theorem exists_settled (h : order.Payable ledger key previous)
    (hs : order.Signable key previous) : ∃ tx, order.Settled ledger key previous tx := by
  obtain ⟨witnesses, hsign, hcount, hfits, hauthorized⟩ := h.exists_sign hs
  have hmarshal := Format.marshal_eq_ok_iff.2 ⟨h.fits hcount hfits, rfl⟩
  refine ⟨_, hsign, ?_, rfl, ⟨_, hmarshal⟩, ?_, h.validate_eq_ok _ hcount hauthorized⟩
  · show order.inputs.map (·.outpoint) = order.coins.map Prod.fst
    rw [inputs, List.map_map]
    rfl
  · obtain ⟨id, hid⟩ : ∃ id, (Transaction.ofBody (.transfer (order.transfer witnesses))).txid =
        .ok id := by
      unfold Transaction.txid
      rw [hmarshal]
      exact ⟨_, rfl⟩
    refine ⟨id, hid, fun hfree => ?_⟩
    have hqueue := Ledger.queue_eq_ok_iff.2 ⟨hid, Table.contains_eq_false_iff.1 hfree, rfl⟩
    exact ⟨_, hqueue, Ledger.pending_of_queue hqueue, rfl, rfl⟩

end Order

end

/-! ### An order -/

namespace Payment

/-- The owner divides the coins. -/
def order : Order where
  coins := [(⟨mintingId, 0⟩, 5)]
  outputs := [⟨20, (Script.payTo owner.keyHash).bytes⟩, ⟨30, (Script.payTo owner.keyHash).bytes⟩]
  lockTime := 7

theorem signsFor_orderDigest : key.SignsFor orderDigest := by
  refine ⟨verifies_orderDigest, ?_, ?_⟩
  · rw [publicKey_key]
    decide +kernel
  · rw [sign_orderDigest]
    decide +kernel

theorem signable_order : order.Signable key minting.outputs := by
  intro i output digest ho hd
  obtain ⟨hlt, rfl⟩ := List.getElem?_eq_some_iff.1 ho
  obtain rfl : i = 0 := Nat.lt_one_iff.1 hlt
  have hdigest : order.digest (Script.spendCode owner.keyHash).bytes 0 50 = .ok orderDigest := by
    rw [← Order.sighash_transaction]
    exact sighash_division
  rw [publicKey_key] at hd
  obtain rfl : digest = orderDigest := Except.ok.inj (hd.symm.trans hdigest)
  exact signsFor_orderDigest

theorem payable_order : order.Payable start key minting.outputs where
  coins_ne_nil := by decide
  coins_length := by decide
  coins_nodup := by decide
  confirmed := by
    have hsub : broughtBy opening ⊆ broughtBy events := by simp [broughtBy, events]
    have hl : Lawful start.transactions start.utxos :=
      (Ledger.sound_run (distinctIds.subset hsub)).lawful
    rw [stored.1.1] at hl
    have hfound : start.utxos.get? ⟨mintingId, 0⟩ =
        some ⟨50, (Script.payTo owner.keyHash).bytes⟩ := by
      refine hl.get?_eq_some_iff.2 ⟨⟨minting, List.mem_singleton_self _, ?_⟩, ?_⟩
      · exact ⟨by decide +kernel, rfl⟩
      · intro tx htx
        rw [List.mem_singleton.1 htx]
        exact List.not_mem_nil
    exact .cons hfound .nil
  owned := by
    intro output ho
    rw [publicKey_key, List.mem_singleton.1 ho]
  outputs_ne_nil := by decide
  outputs_length := by decide
  standard := by
    intro output ho
    rcases List.mem_pair.1 ho with rfl | rfl <;> exact ⟨_, rfl⟩
  balanced := rfl

end Payment

open Payment in
/-- The owner of the minted coins can divide them. -/
theorem Order.exists_settled_payment : start.transactions = [minting] ∧
    ∃ tx, order.Settled start key minting.outputs tx :=
  ⟨stored.1.1, Order.exists_settled payable_order signable_order⟩

end UtxoLedger
