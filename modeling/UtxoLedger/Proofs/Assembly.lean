import UtxoLedger.Proofs.Lawful
import UtxoLedger.Proofs.Pending

/-!
Assembling a block: what a transaction that passes the checks has to meet, and what one accepted
transaction, one pass and all passes keep. What is accepted continues the lawful chain that the
ledger stores, whatever the order in which transactions wait and in how many passes they are picked
up.
-/

namespace UtxoLedger.Ledger

/-- The stored transactions, first block first. -/
def transactions (ledger : Ledger) : List Transaction :=
  ledger.blocks.flatMap (·.block.transactions)

variable {ledger : Ledger} {tip : Option BlockRecord} {p q : Pending} {tx : Transaction}

/-! ### Passing the checks -/

/-- An input finds exactly what is unspent in the view. -/
theorem resolve_eq_ok_iff (hdisj : ∀ o ∈ p.created.keys, o ∉ ledger.utxos.keys) {o : Outpoint}
    {output : Output} :
    ledger.resolve p o = .ok output ↔ (p.view ledger.utxos).get? o = some output := by
  rw [Pending.view, Table.get?_without, Table.get?_extend]
  simp only [resolve, Pending.newUnspent?, Pending.isSpent, utxo?]
  by_cases hs : o ∈ p.spent
  · simp [hs]
  · simp only [List.contains_eq_mem, hs, decide_false, Bool.false_eq_true, if_false]
    change _ ↔ (ledger.utxos.get? o).or (p.created.get? o) = some output
    cases hc : p.created.get? o with
    | some created =>
      have hn := Table.get?_eq_none_iff.2 (hdisj o (Table.mem_keys_of_get? hc))
      simp [hn]
    | none => cases ledger.utxos.get? o <;> simp

theorem resolveAll_eq_ok_iff {inputs : List Input} {previous : List Output} :
    ledger.resolveAll p inputs = .ok previous ↔
      List.Forall₂ (fun input output => ledger.resolve p input.outpoint = .ok output)
        inputs previous := by
  induction inputs generalizing previous with
  | nil => simp [resolveAll, eq_comm]
  | cons input inputs ih =>
    rw [resolveAll, List.forall₂_cons_left_iff]
    cases hr : ledger.resolve p input.outpoint with
    | error e => simp
    | ok output =>
      simp only [Except.ok.injEq, ← ih]
      cases ledger.resolveAll p inputs <;> simp [Except.map, eq_comm]

variable [CryptoSuite]

theorem validate_eq_ok_iff :
    ledger.validate tip p tx = .ok () ↔ tx.checkRules = .ok () ∧
      ((∃ outputs, tx.body = .genesis outputs ∧ tip = none ∧ p.accepted = []) ∨
        ∃ t previous, tx.body = .transfer t ∧ p.hasGenesis = false ∧
          ledger.resolveAll p t.inputs = .ok previous ∧
          t.checkSpending tx.version previous = .ok ()) := by
  unfold validate
  cases tx.checkRules with
  | error e => simp
  | ok u =>
    cases tx.body with
    | genesis outputs => cases tip <;> simp [Pending.isEmpty]
    | escrowOpen => simp
    | transfer t =>
      cases hg : p.hasGenesis with
      | true => simp
      | false => cases hr : ledger.resolveAll p t.inputs <;> simp [hr]

/-- A block grows by a transaction that passes the checks and that it can take. -/
theorem extend?_eq_some_iff :
    ledger.extend? tip p tx = some q ↔
      ledger.validate tip p tx = .ok () ∧ ∃ id, p.add tx = .ok (id, q) := by
  unfold extend?
  cases hid : tx.txid with
  | error e => simp [Pending.add_eq_ok_iff, hid]
  | ok id =>
    simp only
    split
    · next hc =>
      have hc' : id ∈ p.acceptedIds := by simpa [Pending.contains] using hc
      simp only [reduceCtorEq, false_iff, not_and, not_exists]
      intro _ id' ha
      obtain ⟨-, hid', hn, -⟩ := Pending.add_eq_ok_iff.1 ha
      rw [hid, Except.ok.injEq] at hid'
      exact hn (hid' ▸ hc')
    · cases ledger.validate tip p tx with
      | error e => simp
      | ok u =>
        cases p.add tx with
        | error e => simp
        | ok result => simp [Prod.ext_iff]

/-! ### Passes -/

/-- What remains after a pass is some of what was there, in the same order. -/
theorem sweep_sublist (txs : List Transaction) :
    (ledger.sweep tip p txs).2.Sublist txs := by
  induction txs generalizing p with
  | nil => exact List.Sublist.slnil
  | cons tx txs ih =>
    rw [sweep]
    cases ledger.extend? tip p tx with
    | some q => exact ih.cons tx
    | none => exact ih.cons_cons tx

/-- What every accepted transaction keeps, a pass keeps. -/
theorem sweep_keeps {motive : Pending → Prop} {pool : List Transaction}
    (step : ∀ p q, ∀ tx ∈ pool, motive p → ledger.extend? tip p tx = some q → motive q)
    (txs : List Transaction) (hsub : txs ⊆ pool) (hp : motive p) :
    motive (ledger.sweep tip p txs).1 := by
  induction txs generalizing p with
  | nil => exact hp
  | cons tx txs ih =>
    rw [List.cons_subset] at hsub
    rw [sweep]
    cases he : ledger.extend? tip p tx with
    | some q => exact ih hsub.2 (step p q tx hsub.1 hp he)
    | none => exact ih hsub.2 hp

/-- What every accepted transaction keeps, all passes keep. -/
theorem assemble_keeps {motive : Pending → Prop} {pool : List Transaction}
    (step : ∀ p q, ∀ tx ∈ pool, motive p → ledger.extend? tip p tx = some q → motive q)
    (txs : List Transaction) (hsub : txs ⊆ pool) (hp : motive p) :
    motive (ledger.assemble tip p txs) := by
  induction hn : txs.length using Nat.strongRecOn generalizing p txs with
  | ind n ih =>
    have hk := sweep_keeps step txs hsub hp
    rw [assemble]
    simp only
    split
    · next h =>
      exact ih _ (hn ▸ h) _ (List.Subset.trans (sweep_sublist txs).subset hsub) hk rfl
    · exact hk

/-- A pass that leaves nothing needs no other pass. -/
theorem assemble_of_sweep {txs : List Transaction} (h : (ledger.sweep tip p txs).2 = []) :
    ledger.assemble tip p txs = (ledger.sweep tip p txs).1 := by
  rw [assemble]
  simp only [h]
  split
  · rw [assemble]
    simp [sweep]
  · rfl

/-- A pass that leaves less than there was is followed by another one. -/
theorem assemble_of_sweep_lt {txs : List Transaction}
    (h : (ledger.sweep tip p txs).2.length < txs.length) : ledger.assemble tip p txs =
      ledger.assemble tip (ledger.sweep tip p txs).1 (ledger.sweep tip p txs).2 := by
  rw [assemble]
  exact if_pos h

/-! ### Nothing is left out -/

theorem accepted_extend? (h : ledger.extend? tip p tx = some q) : q.accepted = p.accepted ++ [tx] := by
  obtain ⟨-, id, ha⟩ := extend?_eq_some_iff.1 h
  obtain ⟨-, -, -, -, created, -, rfl⟩ := Pending.add_eq_ok_iff.1 ha
  rfl

theorem prefix_accepted_extend? (h : ledger.extend? tip p tx = some q) :
    p.accepted <+: q.accepted :=
  ⟨[tx], (accepted_extend? h).symm⟩

/-- A pass goes on behind what has been accepted. -/
theorem prefix_accepted_sweep (p : Pending) (txs : List Transaction) :
    p.accepted <+: (ledger.sweep tip p txs).1.accepted :=
  sweep_keeps (motive := fun q => p.accepted <+: q.accepted)
    (fun _ _ _ _ hp he => hp.trans (prefix_accepted_extend? he)) txs (List.Subset.refl _)
    (List.prefix_refl _)

theorem prefix_accepted_assemble (p : Pending) (txs : List Transaction) :
    p.accepted <+: (ledger.assemble tip p txs).accepted :=
  assemble_keeps (motive := fun q => p.accepted <+: q.accepted)
    (fun _ _ _ _ hp he => hp.trans (prefix_accepted_extend? he)) txs (List.Subset.refl _)
    (List.prefix_refl _)

/-- A pass accepts a transaction or leaves it. -/
theorem mem_sweep (txs : List Transaction) (htx : tx ∈ txs) :
    tx ∈ (ledger.sweep tip p txs).1.accepted ∨ tx ∈ (ledger.sweep tip p txs).2 := by
  induction txs generalizing p with
  | nil => cases htx
  | cons other txs ih =>
    rw [sweep]
    cases he : ledger.extend? tip p other with
    | some q =>
      rcases List.mem_cons.1 htx with rfl | htx
      · refine .inl ((prefix_accepted_sweep q txs).subset ?_)
        rw [accepted_extend? he]
        exact List.mem_append_right _ (List.mem_singleton_self tx)
      · exact ih htx
    | none =>
      rcases List.mem_cons.1 htx with rfl | htx
      · exact .inr List.mem_cons_self
      · exact (ih htx).imp_right (List.mem_cons_of_mem other)

/-- A pass that leaves as many as there were has met nothing that it could accept. -/
theorem sweep_of_length_eq {txs : List Transaction}
    (h : (ledger.sweep tip p txs).2.length = txs.length) :
    (ledger.sweep tip p txs).1 = p ∧ ∀ tx ∈ txs, ledger.extend? tip p tx = none := by
  induction txs with
  | nil => exact ⟨rfl, fun _ htx => by cases htx⟩
  | cons other txs ih =>
    rw [sweep] at h ⊢
    cases he : ledger.extend? tip p other with
    | some q =>
      simp only [he] at h
      have hle : (ledger.sweep tip q txs).2.length ≤ txs.length := (sweep_sublist txs).length_le
      simp only [List.length_cons] at h
      omega
    | none =>
      simp only [he, List.length_cons, Nat.add_right_cancel_iff] at h ⊢
      obtain ⟨hp, hnone⟩ := ih h
      exact ⟨hp, List.forall_mem_cons.2 ⟨he, hnone⟩⟩

/-- **Assembly stops where nothing can be accepted**: every transaction that was there is accepted, or
cannot be accepted by what has come out. -/
theorem assemble_saturated (txs : List Transaction) (htx : tx ∈ txs) :
    tx ∈ (ledger.assemble tip p txs).accepted ∨
      ledger.extend? tip (ledger.assemble tip p txs) tx = none := by
  induction hn : txs.length using Nat.strongRecOn generalizing p txs with
  | ind n ih =>
    rw [assemble]
    simp only
    split
    · next h =>
      rcases mem_sweep txs htx with haccepted | hleft
      · exact .inl ((prefix_accepted_assemble _ _).subset haccepted)
      · exact ih _ (hn ▸ h) _ hleft rfl
    · next h =>
      have hle : (ledger.sweep tip p txs).2.length ≤ txs.length := (sweep_sublist txs).length_le
      obtain ⟨hp, hnone⟩ := sweep_of_length_eq (Nat.le_antisymm hle (Nat.not_lt.1 h))
      rw [hp]
      exact .inr (hnone tx htx)

end UtxoLedger.Ledger
