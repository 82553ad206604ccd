import UtxoLedger.Transaction.Rules
import UtxoLedger.Transaction.Wire
import Mathlib.Data.List.Nodup

/-!
What a transaction creates, and what the rules say of a transfer that passes them.
-/

namespace UtxoLedger

/-! ### Outpoints -/

namespace Transaction

theorem inpoints_of_isGenesis {tx : Transaction} (h : tx.isGenesis = true) : tx.inpoints = [] := by
  unfold isGenesis at h
  split at h
  · next hb => simp [inpoints, inputs, hb]
  · cases h

theorem toNat_index_outpointAt {id : TxId} {i : Nat} (h : i < maxAddressableOutputs) :
    (outpointAt id i).index.toNat = i := by
  simp only [outpointAt, UInt8.toNat_ofNat']
  exact Nat.mod_eq_of_lt h

section Outpoints

variable [CryptoSuite]

/-- The transaction creates `output` at the outpoint `o`. -/
def Creates (tx : Transaction) (o : Outpoint) (output : Output) : Prop :=
  tx.txid = .ok o.txid ∧ tx.outputs[o.index.toNat]? = some output

theorem Creates.output_eq {tx : Transaction} {o : Outpoint} {output output' : Output}
    (h : tx.Creates o output) (h' : tx.Creates o output') : output = output' := by
  have := h.2.symm.trans h'.2
  simpa using this

theorem outpoints_eq_ok_iff {tx : Transaction} {created : List (Outpoint × Output)} :
    tx.outpoints = .ok created ↔ tx.outputs.length ≤ maxAddressableOutputs ∧
      ∃ id, tx.txid = .ok id ∧
        created = tx.outputs.mapIdx fun i output => (outpointAt id i, output) := by
  unfold outpoints
  split
  · next h =>
    simp
    omega
  · next h =>
    cases hid : tx.txid with
    | error e => simp [bind, Except.bind]
    | ok id => simp [bind, Except.bind, pure, Except.pure, eq_comm, Nat.not_lt.1 h]

theorem mem_outpoints {tx : Transaction} {created : List (Outpoint × Output)}
    (h : tx.outpoints = .ok created) {o : Outpoint} {output : Output} :
    (o, output) ∈ created ↔ tx.Creates o output := by
  obtain ⟨hlen, id, hid, rfl⟩ := outpoints_eq_ok_iff.1 h
  simp only [List.mem_mapIdx, Prod.mk.injEq, Creates, hid, Except.ok.injEq]
  constructor
  · rintro ⟨i, hi, rfl, rfl⟩
    refine ⟨rfl, ?_⟩
    rw [toNat_index_outpointAt (by omega), List.getElem?_eq_getElem hi]
  · rintro ⟨rfl, ho⟩
    obtain ⟨hi, rfl⟩ := List.getElem?_eq_some_iff.1 ho
    exact ⟨o.index.toNat, hi, by simp [outpointAt], rfl⟩

theorem txid_eq_of_mem_outpoints {tx : Transaction} {id : TxId} {created : List (Outpoint × Output)}
    (hid : tx.txid = .ok id) (h : tx.outpoints = .ok created) {e : Outpoint × Output}
    (he : e ∈ created) : e.1.txid = id := by
  have hc : tx.Creates e.1 e.2 := (mem_outpoints h).1 he
  simpa [hid, eq_comm] using hc.1

theorem values_outpoints {tx : Transaction} {created : List (Outpoint × Output)}
    (h : tx.outpoints = .ok created) : created.map Prod.snd = tx.outputs := by
  obtain ⟨-, id, -, rfl⟩ := outpoints_eq_ok_iff.1 h
  refine List.ext_getElem (by simp) fun i hi hi' => ?_
  simp

theorem nodup_outpoints {tx : Transaction} {created : List (Outpoint × Output)}
    (h : tx.outpoints = .ok created) : (created.map Prod.fst).Nodup := by
  obtain ⟨hlen, id, -, rfl⟩ := outpoints_eq_ok_iff.1 h
  rw [List.Nodup, List.pairwise_iff_getElem]
  intro i j hi hj hij he
  simp only [List.length_map, List.length_mapIdx] at hi hj
  simp only [List.getElem_map, List.getElem_mapIdx] at he
  have hn := congrArg (fun o : Outpoint => o.index.toNat) he
  simp only [toNat_index_outpointAt (show i < maxAddressableOutputs by omega),
    toNat_index_outpointAt (show j < maxAddressableOutputs by omega)] at hn
  omega

end Outpoints

/-! ### Rules -/

end Transaction

theorem firstRepeated?_eq_none_iff {seen os : List Outpoint} :
    firstRepeated? seen os = none ↔ os.Nodup ∧ ∀ o ∈ os, o ∉ seen := by
  induction os generalizing seen with
  | nil => simp [firstRepeated?]
  | cons o os ih =>
    rw [firstRepeated?]
    split
    · next h => simp [h]
    · next h =>
      rw [ih, List.nodup_cons]
      constructor
      · rintro ⟨hn, hs⟩
        refine ⟨⟨fun ho => hs o ho List.mem_cons_self, hn⟩, fun o' ho' => ?_⟩
        rcases List.mem_cons.1 ho' with rfl | ho'
        · exact h
        · exact fun hs' => hs o' ho' (List.mem_cons_of_mem _ hs')
      · rintro ⟨⟨ho, hn⟩, hs⟩
        refine ⟨hn, fun o' ho' hs' => ?_⟩
        rcases List.mem_cons.1 hs' with rfl | hs'
        · exact ho ho'
        · exact hs o' (List.mem_cons_of_mem _ ho') hs'

theorem Body.checkStructure_transfer {t : Transfer} :
    (Body.transfer t).checkStructure = .ok () ↔
      t.inputs ≠ [] ∧ t.outputs ≠ [] ∧ t.witnesses.length = t.inputs.length ∧
        (t.inputs.map (·.outpoint)).Nodup := by
  have hn : firstRepeated? [] (t.inputs.map (·.outpoint)) = none ↔
      (t.inputs.map (·.outpoint)).Nodup := by simp [firstRepeated?_eq_none_iff]
  rw [← hn, Body.checkStructure]
  split
  · next h => rcases h with h | h <;> simp_all
  · next h =>
    rw [not_or] at h
    split
    · next hw => simp [hw]
    · next hw =>
      have hw' : t.witnesses.length = t.inputs.length := not_not.1 hw
      cases firstRepeated? [] (t.inputs.map (·.outpoint)) <;> simp_all

namespace Transaction

theorem checkStructure_eq_ok_iff {tx : Transaction} :
    tx.checkStructure = .ok () ↔ tx.version = currentVersion ∧ tx.flags = 0 ∧
      tx.body.checkStructure = .ok () ∧ tx.outputs.length ≤ maxAddressableOutputs := by
  unfold checkStructure
  split
  · next h => simp [h]
  · next h =>
    split
    · next hf => simp [hf]
    · next hf =>
      cases hb : tx.body.checkStructure with
      | error v => simp
      | ok u =>
        by_cases hl : maxAddressableOutputs < tx.outputs.length
        · simp [hl]
        · simp [not_not.1 h, not_not.1 hf, hl, Nat.not_lt.1 hl]

theorem nodup_inpoints_of_checkStructure {tx : Transaction} (h : tx.checkStructure = .ok ()) :
    tx.inpoints.Nodup := by
  obtain ⟨-, -, hbody, -⟩ := checkStructure_eq_ok_iff.1 h
  rw [inpoints, inputs]
  cases hb : tx.body with
  | transfer t =>
    rw [hb] at hbody
    exact (Body.checkStructure_transfer.1 hbody).2.2.2
  | genesis outputs => exact List.nodup_nil
  | escrowOpen => exact List.nodup_nil

theorem checkRules_eq_ok_iff {tx : Transaction} :
    tx.checkRules = .ok () ↔ tx.checkStructure = .ok () ∧ tx.checkStandard = .ok () := by
  unfold checkRules
  cases tx.checkStructure with
  | error v => simp
  | ok u => cases tx.checkStandard <;> simp

end Transaction

end UtxoLedger
