import UtxoLedger.Ledger.Pending
import UtxoLedger.Proofs.Replay

/-!
The block under assembly keeps its books: after any series of accepted transactions, what it counts
as consumed, as created and as accepted is what these transactions consume, create and are. On top
of confirmed outputs it gives a view of what is unspent; accepting a transaction settles it in that
view, and committing the net effect leaves the view.
-/

namespace UtxoLedger.Pending

/-! ### Consuming -/

theorem mem_consume {spent more : List Outpoint} {o : Outpoint} :
    o ∈ consume spent more ↔ o ∈ spent ∨ o ∈ more := by
  induction more generalizing spent with
  | nil => simp [consume]
  | cons o' more ih =>
    change o ∈ consume (if spent.contains o' then spent else spent ++ [o']) more ↔ _
    rw [ih]
    split
    · next h =>
      have ho' : o' ∈ spent := by simpa using h
      constructor
      · rintro (h | h)
        · exact .inl h
        · exact .inr (List.mem_cons_of_mem _ h)
      · rintro (h | h)
        · exact .inl h
        · rcases List.mem_cons.1 h with rfl | h
          · exact .inl ho'
          · exact .inr h
    · next h => simp [or_assoc]

theorem nodup_consume {spent : List Outpoint} (h : spent.Nodup) (more : List Outpoint) :
    (consume spent more).Nodup := by
  induction more generalizing spent with
  | nil => exact h
  | cons o more ih =>
    change (consume (if spent.contains o then spent else spent ++ [o]) more).Nodup
    split
    · exact ih h
    · next ho =>
      refine ih (List.nodup_append.2 ⟨h, by simp, ?_⟩)
      rintro o' ho' _ hm rfl
      exact ho (by simpa [List.mem_singleton.1 hm] using ho')

/-! ### The view -/

section View

/-- What is unspent on top of confirmed outputs: these and the created ones, without the consumed
ones. -/
def view (p : Pending) (utxos : Utxos) : Utxos :=
  (utxos.extend p.created.entries).without p.spent

variable {p : Pending} {utxos : Utxos} {o : Outpoint}

@[simp]
theorem view_withLimit (limit : Nat) (utxos : Utxos) : (withLimit limit).view utxos = utxos := by
  ext1
  simp [view, withLimit, Table.empty, Table.extend, Table.without]

theorem mem_keys_view : o ∈ (p.view utxos).keys ↔
    (o ∈ utxos.keys ∨ o ∈ p.created.keys) ∧ o ∉ p.spent := by
  rw [view, Table.mem_keys_without, Table.keys_extend, List.mem_append]
  rfl

theorem mem_entries_view {output : Output} : (o, output) ∈ (p.view utxos).entries ↔
    ((o, output) ∈ utxos.entries ∨ (o, output) ∈ p.created.entries) ∧ o ∉ p.spent := by
  simp [view, Table.extend, Table.without, or_and_right]

end View

variable [CryptoSuite] {p q : Pending} {tx : Transaction} {id : TxId} {o : Outpoint}
  {created : List (Outpoint × Output)} {utxos : Utxos}

/-! ### Accepting -/

/-- What it takes to be accepted, and what comes out. -/
theorem add_eq_ok_iff :
    p.add tx = .ok (id, q) ↔ p.size + Codec.size tx ≤ p.limit ∧ tx.txid = .ok id ∧
      id ∉ p.acceptedIds ∧ (∀ o ∈ tx.inpoints, o ∉ p.spent) ∧
      ∃ created, tx.outpoints = .ok created ∧ q = p.accept tx id created := by
  simp only [add]
  split
  · next h => simp; omega
  · next h =>
    cases hid : tx.txid with
    | error e => simp
    | ok id' =>
      have hc : p.contains id' = true ↔ id' ∈ p.acceptedIds := by simp [contains]
      simp only
      split
      · next hin =>
        rw [hc] at hin
        simp only [reduceCtorEq, Except.ok.injEq, false_iff, not_and]
        rintro - rfl hn
        exact absurd hin hn
      · next hin =>
        rw [hc] at hin
        cases hf : tx.inpoints.find? p.isSpent with
        | some conflict =>
          have hs : p.isSpent conflict = true := List.find?_some hf
          simp only [reduceCtorEq, false_iff, not_and]
          rintro - - - hn
          exact absurd (by simpa [isSpent] using hs) (hn conflict (List.mem_of_find?_eq_some hf))
        | none =>
          have hn : ∀ o ∈ tx.inpoints, o ∉ p.spent := by
            intro o ho hs
            exact List.find?_eq_none.1 hf o ho (by simpa [isSpent] using hs)
          cases hout : tx.outpoints with
          | error e => simp
          | ok created =>
            simp only [Except.ok.injEq, Prod.mk.injEq, exists_eq_left']
            constructor
            · rintro ⟨rfl, rfl⟩
              exact ⟨Nat.not_lt.1 h, rfl, hin, hn, rfl⟩
            · rintro ⟨-, rfl, -, -, rfl⟩
              exact ⟨rfl, rfl⟩

/-- **The books of a block under assembly.** -/
structure Consistent (p : Pending) : Prop where
  size : p.size = sumOf Codec.size p.accepted
  size_le : p.size ≤ p.limit
  ids : p.accepted.map Transaction.txid = p.acceptedIds.map .ok
  nodup_ids : p.acceptedIds.Nodup
  spent : ∀ o, o ∈ p.spent ↔ ∃ tx ∈ p.accepted, o ∈ tx.inpoints
  nodup_spent : p.spent.Nodup
  created : ∀ o output, (o, output) ∈ p.created.entries ↔ ∃ tx ∈ p.accepted, tx.Creates o output
  nodup_created : p.created.keys.Nodup

theorem consistent_withLimit (limit : Nat) : (withLimit limit).Consistent where
  size := rfl
  size_le := Nat.zero_le _
  ids := rfl
  nodup_ids := List.nodup_nil
  spent := by simp [withLimit]
  nodup_spent := List.nodup_nil
  created := by simp [withLimit, Table.empty]
  nodup_created := by simp [withLimit]

namespace Consistent

theorem txid_mem (h : p.Consistent) :
    (∃ tx ∈ p.accepted, tx.txid = .ok id) ↔ id ∈ p.acceptedIds := by
  have hm : Except.ok id ∈ p.accepted.map Transaction.txid ↔
      Except.ok id ∈ p.acceptedIds.map (Except.ok (ε := Error)) := by rw [h.ids]
  simpa using hm

/-- What is created carries the identifier of an accepted transaction. -/
theorem txid_mem_of_mem_created (h : p.Consistent) (ho : o ∈ p.created.keys) :
    o.txid ∈ p.acceptedIds := by
  obtain ⟨output, ho⟩ := Table.mem_keys.1 ho
  obtain ⟨tx, htx, hc⟩ := (h.created o output).1 ho
  exact h.txid_mem.1 ⟨tx, htx, hc.1⟩

/-- New outputs go behind those created before. -/
theorem created_accept (h : p.Consistent) (hid : tx.txid = .ok id) (hnew : id ∉ p.acceptedIds)
    (hout : tx.outpoints = .ok created) :
    (p.accept tx id created).created = p.created.extend created := by
  refine Table.insertMany_eq_extend (Transaction.nodup_outpoints hout) fun e he hk => hnew ?_
  rw [← Transaction.txid_eq_of_mem_outpoints hid hout he]
  exact h.txid_mem_of_mem_created hk

theorem add (h : p.Consistent) (ha : p.add tx = .ok (id, q)) : q.Consistent := by
  obtain ⟨hsize, hid, hnew, hspent, created, hout, rfl⟩ := add_eq_ok_iff.1 ha
  have hcr := h.created_accept hid hnew hout
  refine ⟨?_, hsize, ?_, ?_, fun o => ?_, nodup_consume h.nodup_spent _, fun o output => ?_, ?_⟩
  · simp [accept, h.size]
  · simp [accept, h.ids, hid]
  · refine List.nodup_append.2 ⟨h.nodup_ids, by simp, ?_⟩
    rintro id' hid' _ hm rfl
    exact hnew (List.mem_singleton.1 hm ▸ hid')
  · change o ∈ consume p.spent tx.inpoints ↔ ∃ tx' ∈ p.accepted ++ [tx], o ∈ tx'.inpoints
    simp [mem_consume, h.spent, or_and_right, exists_or]
  · rw [hcr]
    change (o, output) ∈ p.created.entries ++ created ↔
      ∃ tx' ∈ p.accepted ++ [tx], tx'.Creates o output
    simp [h.created, Transaction.mem_outpoints hout, or_and_right, exists_or]
  · rw [hcr, Table.keys_extend, List.nodup_append]
    refine ⟨h.nodup_created, Transaction.nodup_outpoints hout, ?_⟩
    rintro o ho _ hm rfl
    obtain ⟨e, he, rfl⟩ := List.mem_map.1 hm
    refine hnew ?_
    rw [← Transaction.txid_eq_of_mem_outpoints hid hout he]
    exact h.txid_mem_of_mem_created ho

end Consistent

/-! ### Settling in the view -/

/-- **Accepting settles.** Where nothing carries the new identifier yet, the view behind a
transaction is the view before it with the transaction settled. -/
theorem settle?_view (h : p.Consistent) (hid : tx.txid = .ok id) (hout : tx.outpoints = .ok created)
    (hnew : id ∉ p.acceptedIds) (hn : tx.inpoints.Nodup)
    (hin : ∀ o ∈ tx.inpoints, o ∈ (p.view utxos).keys)
    (hbase : ∀ o ∈ utxos.keys, o.txid ≠ id) (hspent : ∀ o ∈ p.spent, o.txid ≠ id) :
    tx.settle? (p.view utxos) = some ((p.accept tx id created).view utxos) := by
  have hview : ∀ o ∈ (p.view utxos).keys, o.txid ≠ id := by
    intro o ho
    rcases (mem_keys_view.1 ho).1 with ho | ho
    · exact hbase o ho
    · exact fun he => hnew (he ▸ h.txid_mem_of_mem_created ho)
  have hcreated : ∀ e ∈ created, e.1.txid = id := fun e he =>
    Transaction.txid_eq_of_mem_outpoints hid hout he
  refine Transaction.settle?_eq_some_iff.2 ⟨created, hout, hn, hin, fun e he hk => ?_, ?_⟩
  · exact hview e.1 (Table.mem_keys_without.1 hk).1 (hcreated e he)
  · -- the view leaves out what has been consumed; nothing of what is new has been
    have hkept : (created.filter fun e => e.1 ∉ consume p.spent tx.inpoints) = created := by
      refine List.filter_eq_self.2 fun e he => ?_
      have hs : e.1 ∉ p.spent := fun hs => hspent e.1 hs (hcreated e he)
      have hi : e.1 ∉ tx.inpoints := fun hi => hview e.1 (hin e.1 hi) (hcreated e he)
      simp [mem_consume, hs, hi]
    change ((utxos.extend (p.accept tx id created).created.entries).without
      (consume p.spent tx.inpoints)) = _
    rw [h.created_accept hid hnew hout]
    change (utxos.extend (p.created.entries ++ created)).without _ = _
    rw [← Table.extend_extend, Table.without_extend, hkept, view, Table.without_without]
    congr 1
    refine Table.without_congr fun o _ => ?_
    rw [mem_consume, List.mem_append]

/-- **Committing leaves the view.** Taking out what was consumed of the confirmed outputs and
putting in what was created and is unspent gives what was unspent on top of them. -/
theorem insertMany_eraseMany_eq_view (h : p.Consistent)
    (hdisj : ∀ o ∈ p.created.keys, o ∉ utxos.keys) :
    (utxos.eraseMany p.confirmedSpent).insertMany p.newUtxos = p.view utxos := by
  have hnew : p.newUtxos = p.created.entries.filter fun e => e.1 ∉ p.spent := by
    simp [newUtxos, isSpent]
  have hspent : utxos.eraseMany p.confirmedSpent = utxos.without p.spent := by
    rw [Table.eraseMany_eq_without]
    refine Table.without_congr fun o ho => ?_
    have hc : o ∉ p.created.keys := fun hc => hdisj o hc ho
    simp [confirmedSpent, hc]
  rw [hspent, Table.insertMany_eq_extend, hnew, view, Table.without_extend]
  · rw [hnew]
    exact h.nodup_created.sublist (List.filter_sublist.map _)
  · intro e he hk
    rw [hnew] at he
    exact hdisj e.1 (List.mem_map_of_mem (List.mem_of_mem_filter he))
      (Table.mem_keys_without.1 hk).1

end UtxoLedger.Pending
