import UtxoLedger.Proofs.Assembly

/-!
A mined block continues the chain. While a block is assembled, the stored transactions and the
accepted ones behind them are one lawful chain, and the view is what that chain leaves unspent.

The one point that needs the identifiers to tell transactions apart is that an accepted transaction
is new: were it stored already, its inputs would be consumed and could not be found again.
-/

namespace UtxoLedger.Ledger

variable {ledger after : Ledger} {p q : Pending} {tx : Transaction} {id : TxId}

theorem tip?_eq_none_iff : ledger.tip? = none ↔ ledger.blocks = [] := by
  simp [tip?]

theorem transactions_eq_nil (h : ledger.blocks = []) : ledger.transactions = [] := by
  simp [transactions, h]

theorem transactions_apply (c : Commit) :
    (ledger.apply c).transactions = ledger.transactions ++ c.record.block.transactions := by
  simp [transactions, apply]

theorem checkLinkage_eq_ok_iff {record : BlockRecord} :
    ledger.checkLinkage record = .ok () ↔ (∀ other ∈ ledger.blocks, other.id ≠ record.id) ∧
      ((ledger.tip? = none ∧ record.parent.isZero = true ∧ record.height = 0) ∨
        ∃ tip, ledger.tip? = some tip ∧ record.parent = tip.id ∧
          record.height = tip.height + 1) := by
  unfold checkLinkage
  split
  · next h =>
    obtain ⟨other, hf⟩ := Option.isSome_iff_exists.1 h
    have hid : other.id = record.id := by simpa using List.find?_some hf
    simp only [reduceCtorEq, false_iff]
    exact fun ⟨hn, _⟩ => hn other (List.mem_of_find?_eq_some hf) hid
  · next h =>
    have hn : ∀ other ∈ ledger.blocks, other.id ≠ record.id := by
      simpa [block?, List.find?_eq_none] using h
    cases ledger.tip? with
    | none => by_cases hp : record.parent.isZero = true ∧ record.height = 0 <;> simp_all
    | some tip => by_cases hp : record.parent = tip.id ∧ record.height = tip.height + 1 <;> simp_all

theorem commit_eq_ok {c : Commit} (h : ledger.commit c = .ok after) :
    ledger.checkLinkage c.record = .ok () ∧ after = ledger.apply c := by
  unfold commit at h
  split at h
  · cases h
  · next hl =>
    split at h
    · cases h
    · split at h
      · cases h
      · exact ⟨hl, by simpa [eq_comm] using h⟩

variable [CryptoSuite]

/-- What holds while a block is assembled. -/
structure Continues (ledger : Ledger) (p : Pending) : Prop where
  /-- What is stored is a lawful chain. -/
  stored : Lawful ledger.transactions ledger.utxos
  /-- The books are right. -/
  consistent : p.Consistent
  /-- So is the chain with what is accepted behind it. -/
  lawful : Lawful (ledger.transactions ++ p.accepted) (p.view ledger.utxos)
  /-- The first block holds one transaction. -/
  alone : ledger.blocks = [] → p.accepted.length ≤ 1

/-- Everything in the chain so far has another identifier. -/
def Fresh (ledger : Ledger) (p : Pending) (tx : Transaction) : Prop :=
  ∀ other ∈ ledger.transactions ++ p.accepted, other.txid ≠ tx.txid

theorem continues_new (h : Lawful ledger.transactions ledger.utxos) : ledger.Continues .new where
  stored := h
  consistent := Pending.consistent_withLimit _
  lawful := by
    rw [Pending.new, Pending.view_withLimit]
    simpa [Pending.withLimit] using h
  alone _ := Nat.zero_le 1

namespace Continues

/-- What the block creates, no confirmed output has. -/
theorem disjoint (h : ledger.Continues p) : ∀ o ∈ p.created.keys, o ∉ ledger.utxos.keys := by
  intro o hc hu
  obtain ⟨a, ha, hao⟩ := h.stored.exists_txid_of_mem_keys hu
  obtain ⟨b, hb, hbo⟩ := h.consistent.txid_mem.2 (h.consistent.txid_mem_of_mem_created hc)
  have hn := h.lawful.nodup_txids
  rw [List.map_append, List.nodup_append] at hn
  exact hn.2.2 _ (List.mem_map_of_mem ha) _ (List.mem_map_of_mem hb) (hao.trans hbo.symm)

/-- A transaction that passes the checks is of a kind that the chain admits. -/
theorem kind (h : ledger.Continues p) (hv : ledger.validate ledger.tip? p tx = .ok ()) :
    (ledger.transactions ++ p.accepted = [] ∧ tx.isGenesis = true) ∨
      ∃ t previous, tx.Spends t previous (p.view ledger.utxos) := by
  obtain ⟨hrules, ⟨outputs, hb, htip, hacc⟩ | ⟨t, previous, hb, -, hres, hcheck⟩⟩ :=
    validate_eq_ok_iff.1 hv
  · left
    rw [transactions_eq_nil (tip?_eq_none_iff.1 htip), hacc]
    exact ⟨rfl, by rw [Transaction.isGenesis, hb]⟩
  · refine .inr ⟨t, previous, hb, hrules, ?_, hcheck⟩
    exact (resolveAll_eq_ok_iff.1 hres).imp fun _ _ hr => (resolve_eq_ok_iff h.disjoint).1 hr

/-- **What is mined is new.** A stored transaction does not pass the checks again. -/
theorem fresh (h : ledger.Continues p) (hv : ledger.validate ledger.tip? p tx = .ok ())
    (hid : tx.txid = .ok id) (hnew : id ∉ p.acceptedIds)
    (hknown : ∀ other ∈ ledger.transactions, other.txid = tx.txid → other = tx) :
    ledger.Fresh p tx := by
  intro other ho he
  rcases List.mem_append.1 ho with ho | ho
  · obtain rfl := hknown other ho he
    rcases h.kind hv with ⟨hnil, -⟩ | ⟨t, previous, hs⟩
    · rw [(List.append_eq_nil_iff.1 hnil).1] at ho
      cases ho
    · exact h.lawful.notMem_of_spends hs (List.mem_append_left _ ho)
  · exact hnew (h.consistent.txid_mem.1 ⟨other, ho, he.trans hid⟩)

/-- A new transaction of an admitted kind continues the chain when it is accepted. -/
theorem add (h : ledger.Continues p) (ha : p.add tx = .ok (id, q)) (hfresh : ledger.Fresh p tx)
    (hkind : (ledger.transactions ++ p.accepted = [] ∧ tx.isGenesis = true) ∨
      ∃ t previous, tx.Spends t previous (p.view ledger.utxos))
    (halone : ledger.blocks = [] → p.accepted = []) : ledger.Continues q := by
  have hq := h.consistent.add ha
  obtain ⟨-, hid, hnew, -, created, hout, rfl⟩ := Pending.add_eq_ok_iff.1 ha
  have hchain : ∀ o : Outpoint, (∃ other ∈ ledger.transactions ++ p.accepted,
      other.txid = .ok o.txid) → o.txid ≠ id := by
    rintro o ⟨other, ho, hoid⟩ rfl
    exact hfresh other ho (hoid.trans hid.symm)
  have hin : tx.inpoints.Nodup ∧ ∀ o ∈ tx.inpoints, o ∈ (p.view ledger.utxos).keys := by
    rcases hkind with ⟨-, hg⟩ | ⟨t, previous, hs⟩
    · rw [Transaction.inpoints_of_isGenesis hg]
      simp
    · exact ⟨hs.nodup_inpoints, fun o => hs.mem_keys_of_mem_inpoints⟩
  have hsettle := Pending.settle?_view h.consistent hid hout hnew hin.1 hin.2
    (fun o ho => hchain o <| by
      obtain ⟨other, hmem, hoid⟩ := h.stored.exists_txid_of_mem_keys ho
      exact ⟨other, List.mem_append_left _ hmem, hoid⟩)
    (fun o ho => hchain o <| by
      obtain ⟨other, hmem, hoin⟩ := (h.consistent.spent o).1 ho
      exact (h.lawful.consumed (List.mem_append_right _ hmem) hoin).1)
  refine ⟨h.stored, hq, ?_, fun hb => ?_⟩
  · change Lawful (ledger.transactions ++ (p.accepted ++ [tx])) _
    rw [← List.append_assoc]
    exact h.lawful.snoc ⟨hfresh, hkind, hsettle⟩
  · change (p.accepted ++ [tx]).length ≤ 1
    simp [halone hb]

/-- One accepted transaction. -/
theorem extend (h : ledger.Continues p) (he : ledger.extend? ledger.tip? p tx = some q)
    (hknown : ∀ other ∈ ledger.transactions, other.txid = tx.txid → other = tx) :
    ledger.Continues q := by
  obtain ⟨hv, id, ha⟩ := extend?_eq_some_iff.1 he
  obtain ⟨-, hid, hnew, -⟩ := Pending.add_eq_ok_iff.1 ha
  refine h.add ha (h.fresh hv hid hnew hknown) (h.kind hv) fun hb => ?_
  obtain ⟨-, ⟨-, -, -, hacc⟩ | ⟨t, previous, -, hg, -⟩⟩ := validate_eq_ok_iff.1 hv
  · exact hacc
  · -- a first transaction that is there already would be genesis, which lets no transfer in
    have hl := h.lawful
    rw [transactions_eq_nil hb, List.nil_append] at hl
    rcases hl.eq_nil_or_genesis_cons with hnil | ⟨first, rest, hacc, hfirst, -⟩
    · exact hnil
    · simp [Pending.hasGenesis, hacc, hfirst] at hg

end Continues

/-- All passes. -/
theorem continues_assembled (h : Lawful ledger.transactions ledger.utxos)
    (hknown : ∀ tx ∈ ledger.pending, ∀ other ∈ ledger.transactions,
      other.txid = tx.txid → other = tx) : ledger.Continues ledger.assembled :=
  assemble_keeps (fun _ _ tx htx hp he => hp.extend he (hknown tx htx)) _ (List.Subset.refl _)
    (continues_new h)

theorem mem_pending_of_mem_assembled (htx : tx ∈ ledger.assembled.accepted) :
    tx ∈ ledger.pending := by
  refine assemble_keeps (motive := fun p => ∀ tx ∈ p.accepted, tx ∈ ledger.pending)
    (fun p q tx' htx' hp he tx htx => ?_) _ (List.Subset.refl _) (fun _ h => by cases h) tx htx
  obtain ⟨-, id, ha⟩ := extend?_eq_some_iff.1 he
  obtain ⟨-, -, -, -, created, -, rfl⟩ := Pending.add_eq_ok_iff.1 ha
  rcases List.mem_append.1 htx with htx | htx
  · exact hp tx htx
  · rwa [List.mem_singleton.1 htx]

/-- The minting transaction is the first of its chain. -/
theorem continues_minting {coins : UInt32} {owner : PublicKey}
    (h : Lawful ledger.transactions ledger.utxos) (hb : ledger.blocks = [])
    (ha : Pending.new.add (mintingTx coins owner) = .ok (id, p)) : ledger.Continues p := by
  have hnil : ledger.transactions ++ Pending.new.accepted = [] := by
    rw [transactions_eq_nil hb]
    rfl
  refine (continues_new h).add ha ?_ (.inl ⟨hnil, rfl⟩) fun _ => rfl
  intro other ho
  rw [hnil] at ho
  cases ho

/-! ### Committing -/

section Commit

variable {key : SecretKey} {stamp : Stamp} {tip : Option BlockRecord} {block : Block}

/-- What comes out of sealing: the accepted transactions under their Merkle root, behind the tip,
with a signature of the identifier. -/
theorem seal_eq_ok (h : p.seal key stamp tip = .ok block) :
    block.transactions = p.accepted ∧ block.header.previous = (tip.map (·.id)).getD .zero ∧
      block.merkleRoot = .ok block.header.merkleRoot ∧
      block.header.signature =
        ⟨CryptoSuite.compactBytes (CryptoSuite.sign key block.id.bytes)⟩ := by
  simp only [Pending.seal, Block.make, bind, Except.bind] at h
  split at h
  · cases h
  · next root hroot =>
    obtain rfl := by simpa [Except.map, pure, Except.pure] using h
    exact ⟨rfl, rfl, hroot, rfl⟩

theorem commitPending_eq_ok_iff : ledger.commitPending key stamp tip p = .ok (block, after) ↔
    p.seal key stamp tip = .ok block ∧ ledger.commit (p.commit tip block) = .ok after := by
  unfold commitPending
  cases p.seal key stamp tip with
  | error e => simp
  | ok made =>
    simp only [Except.ok.injEq]
    constructor
    · intro h
      cases hc : ledger.commit (p.commit tip made) with
      | error e => simp [hc, Except.map] at h
      | ok committed =>
        simp only [hc, Except.map, Except.ok.injEq, Prod.mk.injEq] at h
        obtain ⟨rfl, rfl⟩ := h
        exact ⟨rfl, hc⟩
    · rintro ⟨rfl, hc⟩
      simp [hc, Except.map]

theorem commitPending_eq_ok (h : ledger.commitPending key stamp tip p = .ok (block, after)) :
    block.transactions = p.accepted ∧ after = ledger.apply (p.commit tip block) := by
  obtain ⟨hs, hc⟩ := commitPending_eq_ok_iff.1 h
  exact ⟨(seal_eq_ok hs).1, (commit_eq_ok hc).2⟩

/-- **The net effect of a block is its replay.** -/
theorem Continues.utxos_apply (h : ledger.Continues p) (tip : Option BlockRecord) (block : Block) :
    (ledger.apply (p.commit tip block)).utxos = p.view ledger.utxos :=
  Pending.insertMany_eraseMany_eq_view h.consistent h.disjoint

end Commit

end UtxoLedger.Ledger
