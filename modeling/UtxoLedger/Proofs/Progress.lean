import Mathlib.Data.List.Find
import UtxoLedger.Proofs.Merkle
import UtxoLedger.Proofs.Ownership
import UtxoLedger.Proofs.Passes

/-!
A cycle makes progress: whatever passes the checks behind the tip can be the next block all by itself,
and the first of it to arrive is the first one in the block. What takes an argument is that there is
always room for it. Within its limits a transaction may be far longer than a block; one that passes the
checks has no more outputs than can be addressed, and two items in each witness.
-/

namespace UtxoLedger

theorem head?_of_prefix {α : Type} {xs ys : List α} (h : xs <+: ys) (hne : xs ≠ []) :
    ys.head? = xs.head? := by
  obtain ⟨rest, rfl⟩ := h
  exact List.head?_append_of_ne_nil xs hne

theorem isOk_iff {ε : Type} {result : Except ε Unit} : result.isOk = true ↔ result = .ok () := by
  cases result with
  | error e => simp [Except.isOk, Except.toBool]
  | ok u => simp [Except.isOk, Except.toBool]

section

variable [CryptoSuite]

/-! ### Room for what passes the checks -/

/-- A witness that authorises an input has two items. -/
theorem Transaction.items_of_authorizeInput {source : DigestSource} {index : Nat} {input : Input}
    {witness : Witness} {previous : Output}
    (h : authorizeInput source index input witness previous = .ok ()) : witness.items.length = 2 := by
  unfold authorizeInput at h
  split at h
  · cases h
  · cases h
  · obtain ⟨-, a, b, -, hitems, -⟩ := authorize_eq_ok_iff.1 h
    rw [hitems]
    rfl

namespace Ledger

variable {ledger : Ledger} {tip : Option BlockRecord} {p q : Pending} {tx : Transaction} {id : TxId}

/-- A transfer that passes the checks has two items in each witness. -/
theorem items_of_validate {t : Transfer} (hbody : tx.body = .transfer t)
    (h : ledger.validate tip p tx = .ok ()) : ∀ witness ∈ t.witnesses, witness.items.length = 2 := by
  obtain ⟨hrules, ⟨outputs, hgenesis, -⟩ | ⟨t', previous, hbody', -, hresolve, hcheck⟩⟩ :=
    validate_eq_ok_iff.1 h
  · rw [hbody] at hgenesis
    cases hgenesis
  · obtain rfl : t = t' := by simpa [hbody] using hbody'
    have hstructure := (Transaction.checkStructure_eq_ok_iff.1
      (Transaction.checkRules_eq_ok_iff.1 hrules).1).2.2.1
    rw [hbody] at hstructure
    have hpaired := (Body.checkStructure_transfer.1 hstructure).2.2.1
    have hfound := (resolveAll_eq_ok_iff.1 hresolve).length_eq
    have hall := (Transfer.checkSpending_eq_ok_iff.1 hcheck).2
    intro witness hw
    obtain ⟨i, hi, rfl⟩ := List.getElem_of_mem hw
    have hinput : i < t.inputs.length := hpaired ▸ hi
    exact Transaction.items_of_authorizeInput (Transaction.authorizeInputs_eq_ok_iff.1 hall i _ _ _
      (List.getElem?_eq_getElem hinput) (List.getElem?_eq_getElem hi)
      (List.getElem?_eq_getElem (hfound ▸ hinput)))

/-- **There is room for what passes the checks**, in a block of its own at least. -/
theorem size_le_of_validate (h : ledger.validate tip p tx = .ok ()) (hid : tx.txid = .ok id) :
    Codec.size tx ≤ Block.sizeLimit := by
  have hfits := (Transaction.txid_eq_ok_iff.1 hid).1.body
  have houtputs := length_outputs_le_of_validate h
  have hbody : tx.body.size ≤ 1048572 := by
    cases hb : tx.body with
    | transfer t =>
      rw [hb] at hfits
      rw [Transaction.outputs, hb] at houtputs
      have hsize := hfits.size_le houtputs fun witness hw =>
        Nat.le_of_eq (items_of_validate hb h witness hw)
      simp only [Body.size, maxAddressableOutputs] at *
      omega
    | genesis outputs =>
      rw [hb] at hfits
      have hsize := Format.listSize_le hfits fun _ => Output.size_le
      simp only [Body.size, maxOutputs] at *
      omega
    | escrowOpen => decide
  simp only [Codec.size, Block.sizeLimit]
  omega

/-- A new block can take what passes the checks. -/
theorem add_new_of_validate (h : ledger.validate tip p tx = .ok ()) (hid : tx.txid = .ok id) :
    ∃ q, Pending.new.add tx = .ok (id, q) := by
  refine exists_add_eq_ok h hid List.not_mem_nil (fun _ _ => List.not_mem_nil) ?_
  change 0 + Codec.size tx ≤ Block.sizeLimit
  rw [Nat.zero_add]
  exact size_le_of_validate h hid

/-! ### What is accepted first -/

theorem isSome_extend?_new (hid : tx.txid = .ok id) :
    (ledger.extend? tip .new tx).isSome = (ledger.validate tip .new tx).isOk := by
  cases hv : ledger.validate tip .new tx with
  | error e =>
    have hnone : ledger.extend? tip .new tx = none := by
      refine Option.eq_none_iff_forall_ne_some.2 fun q hq => ?_
      rw [(extend?_eq_some_iff.1 hq).1] at hv
      cases hv
    rw [hnone]
    rfl
  | ok u =>
    obtain ⟨q, hq⟩ := add_new_of_validate hv hid
    rw [extend?_eq_some_iff.2 ⟨hv, id, hq⟩]
    rfl

/-- A first pass begins with the first transaction that a new block can take. -/
theorem head?_sweep (txs : List Transaction) : (ledger.sweep tip .new txs).1.accepted.head? =
    txs.find? fun tx => (ledger.extend? tip .new tx).isSome := by
  induction txs with
  | nil => rfl
  | cons tx txs ih =>
    rw [sweep]
    cases he : ledger.extend? tip .new tx with
    | none =>
      rw [List.find?_cons_of_neg (by simp [he])]
      exact ih
    | some q =>
      have haccepted : q.accepted = [tx] := accepted_extend? he
      have hprefix : q.accepted <+: (ledger.sweep tip q txs).1.accepted := prefix_accepted_sweep q txs
      rw [List.find?_cons_of_pos (by simp [he]), head?_of_prefix hprefix (by simp [haccepted]),
        haccepted]
      rfl

/-- **A block begins with the first transaction that passes the checks.** -/
theorem head?_assemble (txs : List Transaction) (hids : ∀ tx ∈ txs, ∃ id, tx.txid = .ok id) :
    (ledger.assemble tip .new txs).accepted.head? =
      txs.find? fun tx => (ledger.validate tip .new tx).isOk := by
  have hfirst : (ledger.sweep tip .new txs).1.accepted.head? =
      txs.find? fun tx => (ledger.validate tip .new tx).isOk := by
    rw [head?_sweep]
    refine List.find?_congr fun tx htx => ?_
    obtain ⟨id, hid⟩ := hids tx htx
    exact isSome_extend?_new hid
  rw [← hfirst, assemble]
  simp only
  split
  · next hless =>
    -- a pass that leaves less than there was has accepted something
    have hlength := ledger.length_sweep tip .new txs
    refine head?_of_prefix (prefix_accepted_assemble _ _) fun hnil => ?_
    rw [hnil] at hlength
    change 0 + _ = 0 + _ at hlength
    omega
  · rfl

/-! ### Cycles -/

theorem Queued.exists_add_new (h : ledger.Queued) (htx : tx ∈ ledger.pending)
    (hv : ledger.validate tip p tx = .ok ()) :
    Codec.size tx ≤ Block.sizeLimit ∧ ∃ id q, Pending.new.add tx = .ok (id, q) := by
  obtain ⟨id, hid⟩ := h.txid_eq_ok htx
  exact ⟨size_le_of_validate hv hid, id, add_new_of_validate hv hid⟩

theorem Queued.head?_assembled (h : ledger.Queued) : ledger.assembled.accepted.head? =
    ledger.pending.find? fun tx => (ledger.validate ledger.tip? .new tx).isOk :=
  head?_assemble ledger.pending fun _ => h.txid_eq_ok

/-- Something is accepted if anything passes the checks behind the tip. -/
theorem Queued.accepted_ne_nil_iff (h : ledger.Queued) : ledger.assembled.accepted ≠ [] ↔
    ∃ tx ∈ ledger.pending, ledger.validate ledger.tip? .new tx = .ok () := by
  rw [← List.isSome_head?, h.head?_assembled, List.find?_isSome]
  simp only [isOk_iff]

/-- A cycle makes a block exactly if it has accepted something, unless the block clashes. -/
theorem Ready.generate_some_iff (h : ledger.Ready) (key : SecretKey) (stamp : Stamp) :
    ((∃ block after, ledger.generate key stamp = .ok (some block, after)) ∨
      ledger.Clashes key stamp) ↔ ledger.assembled.accepted ≠ [] := by
  constructor
  · rintro (⟨block, after, hdone⟩ | ⟨block, hseal, -⟩) hnil
    · simp [generate, Pending.isEmpty, hnil] at hdone
    · exact seal_ne_ok_of_nil hnil hseal
  · intro hne
    rcases h.generate_cases key stamp with ⟨hnil, -⟩ | ⟨-, block, after, -, hdone⟩ | hclash
    · exact absurd hnil hne
    · exact .inl ⟨block, after, hdone⟩
    · exact .inr hclash

theorem queued_run (events : List Event) : (run events).Queued := by
  obtain ⟨calls, hcalls⟩ := exists_afterCalls_eq_run events
  exact hcalls ▸ queued_afterCalls calls

/-- **Mining makes progress.** Behind every run, a cycle makes a block exactly if something that waits
passes the checks behind the tip, unless the block cannot be told from the stored ones; the block begins
with what has waited longest of this. Whatever waits and passes the checks, in whatever block, fits into
one of its own. -/
theorem progress_run {events : List Event} (hd : DistinctIds (broughtBy events)) (key : SecretKey)
    (stamp : Stamp) :
    (((∃ block after, (run events).generate key stamp = .ok (some block, after)) ∨
        (run events).Clashes key stamp) ↔
      ∃ tx ∈ (run events).pending, (run events).validate (run events).tip? .new tx = .ok ()) ∧
    (∀ block after, (run events).generate key stamp = .ok (some block, after) →
      block.transactions.head? = (run events).pending.find? fun tx =>
        ((run events).validate (run events).tip? .new tx).isOk) ∧
    ∀ tip p, ∀ tx ∈ (run events).pending, (run events).validate tip p tx = .ok () →
      Codec.size tx ≤ Block.sizeLimit ∧ ∃ id q, Pending.new.add tx = .ok (id, q) := by
  have hqueued := queued_run events
  refine ⟨?_, fun block after hdone => ?_, fun tip p tx htx hv => hqueued.exists_add_new htx hv⟩
  · rw [(ready_run hd).generate_some_iff, hqueued.accepted_ne_nil_iff]
  · have htransactions : block.transactions = _ := transactions_of_generate hdone
    rw [htransactions, hqueued.head?_assembled]

end Ledger

end

open Payment in
/-- A transfer with its child behind it is the first one in the block. -/
theorem Ledger.progress_payment : parentFirst.pending = [spend, child] ∧
    (∃ block after, parentFirst.generate key ⟨1, 0⟩ = .ok (some block, after) ∧
      block.transactions.head? = some spend) ∧ Codec.size spend ≤ Block.sizeLimit := by
  obtain ⟨-, ⟨hpending, -⟩, -⟩ := passes
  have hfind : parentFirst.pending.find? (fun tx =>
      (parentFirst.validate parentFirst.tip? .new tx).isOk) = some spend := by
    have hhead := (queued_run (waiting [spend, child])).head?_assembled
    rw [← parentFirst, accepted_parentFirst] at hhead
    exact hhead.symm
  have hspend : spend ∈ parentFirst.pending := List.mem_of_find?_eq_some hfind
  have hvalid : parentFirst.validate parentFirst.tip? .new spend = .ok () := by
    have hok := List.find?_some hfind
    exact isOk_iff.1 hok
  obtain ⟨hblock, hfirst, hroom⟩ :=
    progress_run (distinctIds_waiting (List.Subset.refl [spend, child])) key ⟨1, 0⟩
  obtain ⟨block, after, hdone⟩ :=
    (hblock.2 ⟨spend, hspend, hvalid⟩).resolve_right (not_clashes_waiting accepted_parentFirst)
  exact ⟨hpending, ⟨block, after, hdone, (hfirst block after hdone).trans hfind⟩,
    (hroom parentFirst.tip? .new spend hspend hvalid).1⟩

end UtxoLedger
