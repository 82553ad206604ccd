import UtxoLedger.Ledger.Mining
import UtxoLedger.Proofs.Lists
import UtxoLedger.Proofs.Replay

/-!
Lawful chains of transactions: the first one mints, each later one is new and a transfer that passes
every check against what is unspent before it, and each one can be settled there. A chain is built
from its end, so that what holds of all chains is proved by one step.
-/

namespace UtxoLedger

variable [CryptoSuite]

theorem Transfer.checkSpending_eq_ok_iff {t : Transfer} {version : UInt8} {previous : List Output} :
    t.checkSpending version previous = .ok () ↔ totalValue previous = totalValue t.outputs ∧
      Transaction.authorizeInputs (t.hasher version).digest 0 t.inputs t.witnesses previous =
        .ok () := by
  unfold checkSpending
  split
  · next h => simp [h]
  · next h => simp [not_not.1 h]

/-- The transaction is the transfer `t`, which takes `previous` out of `utxos` and passes every
check. -/
structure Transaction.Spends (tx : Transaction) (t : Transfer) (previous : List Output)
    (utxos : Utxos) : Prop where
  body : tx.body = .transfer t
  rules : tx.checkRules = .ok ()
  found : List.Forall₂ (fun input output => utxos.get? input.outpoint = some output)
    t.inputs previous
  checked : t.checkSpending tx.version previous = .ok ()

namespace Transaction.Spends

variable {tx : Transaction} {t : Transfer} {previous : List Output} {utxos : Utxos}

theorem kind_eq (h : tx.Spends t previous utxos) : tx.kind = .transfer := by
  rw [kind, h.body]
  rfl

theorem inputs_eq (h : tx.Spends t previous utxos) : tx.inputs = t.inputs := by
  rw [inputs, h.body]

theorem outputs_eq (h : tx.Spends t previous utxos) : tx.outputs = t.outputs := by
  rw [outputs, h.body]

theorem structure_eq_ok (h : tx.Spends t previous utxos) :
    (Body.transfer t).checkStructure = .ok () := by
  have := (checkStructure_eq_ok_iff.1 (checkRules_eq_ok_iff.1 h.rules).1).2.2.1
  rwa [h.body] at this

theorem inpoints_eq (h : tx.Spends t previous utxos) :
    tx.inpoints = t.inputs.map (·.outpoint) := by
  rw [inpoints, h.inputs_eq]

theorem nodup_inpoints (h : tx.Spends t previous utxos) : tx.inpoints.Nodup :=
  nodup_inpoints_of_checkStructure (checkRules_eq_ok_iff.1 h.rules).1

theorem mem_keys_of_mem_inpoints (h : tx.Spends t previous utxos) {o : Outpoint}
    (ho : o ∈ tx.inpoints) : o ∈ utxos.keys := by
  rw [h.inpoints_eq] at ho
  obtain ⟨input, hi, rfl⟩ := List.mem_map.1 ho
  obtain ⟨i, hlt, rfl⟩ := List.getElem_of_mem hi
  have hlt' : i < previous.length := h.found.length_eq ▸ hlt
  exact Table.mem_keys_of_get? (h.found.get hlt hlt')

/-- A transfer takes something. -/
theorem exists_mem_inpoints (h : tx.Spends t previous utxos) : ∃ o, o ∈ tx.inpoints := by
  have hne := (Body.checkStructure_transfer.1 h.structure_eq_ok).1
  obtain ⟨input, rest, hi⟩ := List.exists_cons_of_ne_nil hne
  exact ⟨input.outpoint, by simp [h.inpoints_eq, hi]⟩

theorem utxos_ne_empty (h : tx.Spends t previous utxos) : utxos ≠ .empty := by
  rintro rfl
  obtain ⟨o, ho⟩ := h.exists_mem_inpoints
  simpa using h.mem_keys_of_mem_inpoints ho

/-- A transfer pays out what it takes. -/
theorem totalValue_eq (h : tx.Spends t previous utxos) : totalValue previous = tx.outputValue := by
  rw [outputValue, h.outputs_eq]
  exact (Transfer.checkSpending_eq_ok_iff.1 h.checked).1

end Transaction.Spends

/-- Behind `txs`, which leave `utxos`, there may be `tx`, which leaves `after`. -/
structure Admits (txs : List Transaction) (utxos : Utxos) (tx : Transaction) (after : Utxos) :
    Prop where
  fresh : ∀ other ∈ txs, other.txid ≠ tx.txid
  kind : (txs = [] ∧ tx.isGenesis = true) ∨ ∃ t previous, tx.Spends t previous utxos
  settled : tx.settle? utxos = some after

/-- **The law of the chain.** The transactions, one behind the other, leave `utxos`. -/
inductive Lawful : List Transaction → Utxos → Prop
  | nil : Lawful [] .empty
  | snoc {txs : List Transaction} {utxos after : Utxos} {tx : Transaction} :
      Lawful txs utxos → Admits txs utxos tx after → Lawful (txs ++ [tx]) after

namespace Admits

variable {txs : List Transaction} {utxos after : Utxos} {tx : Transaction}

theorem outpoints_eq_ok (h : Admits txs utxos tx after) :
    ∃ created, tx.outpoints = .ok created ∧
      after = (utxos.without tx.inpoints).extend created := by
  obtain ⟨created, hc, -, -, -, rfl⟩ := Transaction.settle?_eq_some_iff.1 h.settled
  exact ⟨created, hc, rfl⟩

theorem txid_eq_ok (h : Admits txs utxos tx after) : ∃ id, tx.txid = .ok id := by
  obtain ⟨created, hc, -⟩ := h.outpoints_eq_ok
  obtain ⟨-, id, hid, -⟩ := Transaction.outpoints_eq_ok_iff.1 hc
  exact ⟨id, hid⟩

theorem nodup_inpoints (h : Admits txs utxos tx after) : tx.inpoints.Nodup := by
  obtain ⟨-, -, hn, -⟩ := Transaction.settle?_eq_some_iff.1 h.settled
  exact hn

theorem mem_keys_of_mem_inpoints (h : Admits txs utxos tx after) {o : Outpoint}
    (ho : o ∈ tx.inpoints) : o ∈ utxos.keys := by
  obtain ⟨-, -, -, hin, -⟩ := Transaction.settle?_eq_some_iff.1 h.settled
  exact hin o ho

/-- What is unspent behind a transaction was unspent before it or is created by it. -/
theorem mem_entries_iff (h : Admits txs utxos tx after) {o : Outpoint} {output : Output} :
    (o, output) ∈ after.entries ↔
      ((o, output) ∈ utxos.entries ∧ o ∉ tx.inpoints) ∨ tx.Creates o output := by
  obtain ⟨created, hc, rfl⟩ := h.outpoints_eq_ok
  rw [← Transaction.mem_outpoints hc]
  simp [Table.extend, Table.without]

theorem keys_nodup (h : Admits txs utxos tx after) (hn : utxos.keys.Nodup) :
    after.keys.Nodup := by
  obtain ⟨created, hc, -, -, hf, rfl⟩ := Transaction.settle?_eq_some_iff.1 h.settled
  rw [Table.keys_extend, List.nodup_append]
  refine ⟨?_, Transaction.nodup_outpoints hc, ?_⟩
  · rw [Table.keys_without]
    exact hn.filter _
  · rintro o ho _ hm rfl
    obtain ⟨e, he, rfl⟩ := List.mem_map.1 hm
    exact hf e he ho

/-- A transfer leaves the total as it is. -/
theorem totalValue_eq (h : Admits txs utxos tx after) {t : Transfer} {previous : List Output}
    (hs : tx.Spends t previous utxos) (hn : utxos.keys.Nodup) :
    totalValue after.values = totalValue utxos.values := by
  obtain ⟨created, hc, rfl⟩ := h.outpoints_eq_ok
  have hfound : tx.inpoints.map utxos.get? = previous.map some := by
    rw [hs.inpoints_eq, List.map_map, ← List.forall₂_eq_eq_eq, List.forall₂_map_left_iff,
      List.forall₂_map_right_iff]
    exact hs.found
  have hrest := Table.sumOf_without (fun output : Output => output.value.toNat) hn h.nodup_inpoints
    hfound
  have hpaid := hs.totalValue_eq
  rw [Transaction.outputValue, ← Transaction.values_outpoints hc] at hpaid
  simp only [totalValue, Table.extend, Table.values, List.map_append, sumOf_append] at *
  omega

end Admits

namespace Lawful

variable {txs pre post : List Transaction} {utxos : Utxos} {tx : Transaction} {o : Outpoint}

/-! ### One chain is one replay -/

theorem replay?_eq (h : Lawful txs utxos) : replay? txs = some utxos := by
  induction h with
  | nil => rfl
  | snoc _ step ih => rw [replay?_concat, ih, Option.bind_some, step.settled]

theorem eq_empty (h : Lawful [] utxos) : utxos = .empty := by
  simpa [eq_comm] using h.replay?_eq

theorem keys_nodup (h : Lawful txs utxos) : utxos.keys.Nodup := by
  induction h with
  | nil => simp
  | snoc _ step ih => exact step.keys_nodup ih

theorem txid_eq_ok (h : Lawful txs utxos) (htx : tx ∈ txs) : ∃ id, tx.txid = .ok id := by
  induction h with
  | nil => simp at htx
  | snoc _ step ih =>
    rcases List.mem_append.1 htx with htx | htx
    · exact ih htx
    · rw [List.mem_singleton.1 htx]
      exact step.txid_eq_ok

/-- No identifier comes twice. -/
theorem nodup_txids (h : Lawful txs utxos) : (txs.map Transaction.txid).Nodup := by
  induction h with
  | nil => simp
  | snoc _ step ih =>
    rw [List.map_append, List.nodup_append]
    refine ⟨ih, by simp, ?_⟩
    rintro id hid _ hm rfl
    obtain ⟨other, hother, rfl⟩ := List.mem_map.1 hid
    exact step.fresh other hother (by simpa using hm)

theorem eq_of_txid_eq (h : Lawful txs utxos) {a b : Transaction} (ha : a ∈ txs) (hb : b ∈ txs)
    (he : a.txid = b.txid) : a = b :=
  List.inj_on_of_nodup_map h.nodup_txids ha hb he

theorem nodup (h : Lawful txs utxos) : txs.Nodup :=
  h.nodup_txids.of_map

/-- A place in the chain, with the chain before it. -/
theorem split (h : Lawful (pre ++ tx :: post) utxos) :
    ∃ before after, Lawful pre before ∧ Admits pre before tx after := by
  generalize hs : pre ++ tx :: post = all at h
  induction h generalizing post with
  | nil => simp at hs
  | snoc before step ih =>
    rcases append_cons_eq_concat hs with ⟨rfl, rfl, -⟩ | ⟨post, -, hs⟩
    · exact ⟨_, _, before, step⟩
    · exact ih hs

/-! ### Creators and consumers -/

/-- What is unspent has been created. -/
theorem exists_creator (h : Lawful txs utxos) {output : Output}
    (ho : (o, output) ∈ utxos.entries) : ∃ tx ∈ txs, tx.Creates o output := by
  induction h with
  | nil => simp [Table.empty] at ho
  | snoc _ step ih =>
    rcases step.mem_entries_iff.1 ho with ⟨ho, -⟩ | hc
    · obtain ⟨tx, htx, hc⟩ := ih ho
      exact ⟨tx, List.mem_append_left _ htx, hc⟩
    · exact ⟨_, List.mem_append_right _ (List.mem_singleton_self _), hc⟩

theorem exists_txid_of_mem_keys (h : Lawful txs utxos) (ho : o ∈ utxos.keys) :
    ∃ tx ∈ txs, tx.txid = .ok o.txid := by
  obtain ⟨output, ho⟩ := Table.mem_keys.1 ho
  obtain ⟨tx, htx, hc⟩ := h.exists_creator ho
  exact ⟨tx, htx, hc.1⟩

/-- What is consumed has a creator, and it does not come back. -/
theorem consumed (h : Lawful txs utxos) (htx : tx ∈ txs) (ho : o ∈ tx.inpoints) :
    (∃ creator ∈ txs, creator.txid = .ok o.txid) ∧ o ∉ utxos.keys := by
  induction h with
  | nil => simp at htx
  | @snoc txs utxos after last before step ih =>
    have hcreator : ∃ creator ∈ txs, creator.txid = .ok o.txid := by
      rcases List.mem_append.1 htx with htx | htx
      · exact (ih htx).1
      · rw [List.mem_singleton.1 htx] at ho
        exact before.exists_txid_of_mem_keys (step.mem_keys_of_mem_inpoints ho)
    obtain ⟨creator, hmem, hid⟩ := hcreator
    refine ⟨⟨creator, List.mem_append_left _ hmem, hid⟩, fun hk => ?_⟩
    obtain ⟨output, hk⟩ := Table.mem_keys.1 hk
    rcases step.mem_entries_iff.1 hk with ⟨hk, hin⟩ | hc
    · rcases List.mem_append.1 htx with htx | htx
      · exact (ih htx).2 (Table.mem_keys.2 ⟨output, hk⟩)
      · rw [List.mem_singleton.1 htx] at ho
        exact hin ho
    · -- whoever creates it again has the identifier of its creator
      exact step.fresh creator hmem (hid.trans hc.1.symm)

/-- What spends something unspent is not there yet: its inputs would be consumed. -/
theorem notMem_of_spends (h : Lawful txs utxos) {t : Transfer} {previous : List Output}
    (hs : tx.Spends t previous utxos) : tx ∉ txs := by
  intro hmem
  obtain ⟨o, hin⟩ := hs.exists_mem_inpoints
  exact (h.consumed hmem hin).2 (hs.mem_keys_of_mem_inpoints hin)

/-- A new transaction of an admitted kind can be settled. -/
theorem exists_admits (h : Lawful txs utxos) {created : List (Outpoint × Output)}
    (hc : tx.outpoints = .ok created) (hfresh : ∀ other ∈ txs, other.txid ≠ tx.txid)
    (hkind : (txs = [] ∧ tx.isGenesis = true) ∨ ∃ t previous, tx.Spends t previous utxos) :
    ∃ after, Admits txs utxos tx after := by
  have hin : tx.inpoints.Nodup ∧ ∀ o ∈ tx.inpoints, o ∈ utxos.keys := by
    rcases hkind with ⟨-, hg⟩ | ⟨t, previous, hs⟩
    · rw [Transaction.inpoints_of_isGenesis hg]
      simp
    · exact ⟨hs.nodup_inpoints, fun o => hs.mem_keys_of_mem_inpoints⟩
  refine ⟨_, hfresh, hkind, Transaction.settle?_eq_some_iff.2 ⟨created, hc, hin.1, hin.2, ?_, rfl⟩⟩
  intro e he hk
  obtain ⟨creator, hmem, hid⟩ := h.exists_txid_of_mem_keys (Table.mem_keys_without.1 hk).1
  exact hfresh creator hmem (hid.trans ((Transaction.mem_outpoints hc).1 he).1.symm)

/-- No outpoint is consumed twice. -/
theorem nodup_inpoints (h : Lawful txs utxos) : (txs.flatMap Transaction.inpoints).Nodup := by
  induction h with
  | nil => simp
  | snoc before step ih =>
    rw [List.flatMap_append, List.nodup_append]
    refine ⟨ih, by simpa using step.nodup_inpoints, ?_⟩
    rintro o ho _ hm rfl
    obtain ⟨tx, htx, ho⟩ := List.mem_flatMap.1 ho
    refine (before.consumed htx ho).2 (step.mem_keys_of_mem_inpoints ?_)
    simpa using hm

/-- An input comes behind the transaction that creates what it consumes, and behind no other place
is there one with that identifier. -/
theorem inpoint_creator (h : Lawful (pre ++ tx :: post) utxos) (ho : o ∈ tx.inpoints) :
    (∃ creator ∈ pre, ∃ output, creator.Creates o output) ∧
      ∀ other ∈ tx :: post, other.txid ≠ .ok o.txid := by
  obtain ⟨before, after, hpre, step⟩ := h.split
  obtain ⟨output, hk⟩ := Table.mem_keys.1 (step.mem_keys_of_mem_inpoints ho)
  obtain ⟨creator, hmem, hc⟩ := hpre.exists_creator hk
  refine ⟨⟨creator, hmem, output, hc⟩, fun other hother he => ?_⟩
  have hn := h.nodup_txids
  rw [List.map_append, List.nodup_append] at hn
  exact hn.2.2 _ (List.mem_map_of_mem hmem) _ (List.mem_map_of_mem hother) (hc.1.trans he.symm)

/-! ### Kinds -/

/-- A chain is empty, or a genesis transaction and transfers behind it. -/
theorem eq_nil_or_genesis_cons (h : Lawful txs utxos) :
    txs = [] ∨ ∃ first rest, txs = first :: rest ∧ first.isGenesis = true ∧
      ∀ tx ∈ rest, tx.kind = .transfer := by
  induction h with
  | nil => exact .inl rfl
  | @snoc txs utxos after tx before step ih =>
    right
    rcases step.kind with ⟨rfl, hg⟩ | ⟨t, previous, hs⟩
    · exact ⟨tx, [], rfl, hg, by simp⟩
    · rcases ih with rfl | ⟨first, rest, rfl, hg, hrest⟩
      · exact absurd before.eq_empty hs.utxos_ne_empty
      · refine ⟨first, rest ++ [tx], rfl, hg, fun tx' htx' => ?_⟩
        rcases List.mem_append.1 htx' with htx' | htx'
        · exact hrest tx' htx'
        · rw [List.mem_singleton.1 htx', hs.kind_eq]

/-! ### Coins -/

/-- The coins are those of the first transaction. -/
theorem totalValue_eq (h : Lawful txs utxos) {first : Transaction} (hf : txs.head? = some first) :
    totalValue utxos.values = first.outputValue := by
  induction h with
  | nil => cases hf
  | @snoc txs utxos after tx before step ih =>
    rcases step.kind with ⟨rfl, hg⟩ | ⟨t, previous, hs⟩
    · obtain rfl : tx = first := by simpa using hf
      obtain ⟨created, hc, rfl⟩ := step.outpoints_eq_ok
      rw [before.eq_empty, Transaction.outputValue, ← Transaction.values_outpoints hc]
      simp [Table.without, Table.empty, Table.extend, Table.values]
    · rw [step.totalValue_eq hs before.keys_nodup]
      refine ih ?_
      have hne : txs ≠ [] := by
        rintro rfl
        exact hs.utxos_ne_empty before.eq_empty
      rwa [List.head?_append_of_ne_nil _ hne] at hf

end Lawful

end UtxoLedger
