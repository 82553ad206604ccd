import UtxoLedger.Proofs.Arrival
import UtxoLedger.Proofs.InPlace

/-!
How far assembly goes, and how soon it is done. Each pass but the last one accepts something, so that
there is at most one pass more than there are accepted transactions. The last pass has met one and the
same block under assembly throughout: whatever it leaves does not pass the checks there, or does not
fit. The two checks, of a transaction and of what the block has room for, agree on everything else.
-/

namespace UtxoLedger

variable [CryptoSuite]

/-! ### Checks that agree -/

namespace Ledger

variable {ledger : Ledger} {tip : Option BlockRecord} {p q : Pending} {tx : Transaction} {id : TxId}
  {txs left : List Transaction}

omit [CryptoSuite] in
/-- An input that finds its output has not been consumed in the block. -/
theorem notMem_spent_of_resolve {o : Outpoint} {output : Output}
    (h : ledger.resolve p o = .ok output) : o ∉ p.spent := by
  intro hs
  have hspent : p.isSpent o = true := List.contains_iff_mem.2 hs
  rw [resolve, if_pos hspent] at h
  cases h

/-- What passes the checks consumes nothing that has been consumed in the block. -/
theorem notMem_spent_of_validate (h : ledger.validate tip p tx = .ok ()) :
    ∀ o ∈ tx.inpoints, o ∉ p.spent := by
  obtain ⟨-, ⟨outputs, hbody, -⟩ | ⟨t, previous, hbody, -, hresolve, -⟩⟩ := validate_eq_ok_iff.1 h
  · have hgenesis : tx.isGenesis = true := by rw [Transaction.isGenesis, hbody]
    rw [Transaction.inpoints_of_isGenesis hgenesis]
    exact fun o ho => absurd ho List.not_mem_nil
  · rw [Transaction.inpoints, Transaction.inputs, hbody]
    intro o ho
    obtain ⟨input, hinput, rfl⟩ := List.mem_map.1 ho
    obtain ⟨i, hi, rfl⟩ := List.getElem_of_mem hinput
    have hall := resolveAll_eq_ok_iff.1 hresolve
    exact notMem_spent_of_resolve (hall.get hi (hall.length_eq ▸ hi))

theorem length_outputs_le_of_validate (h : ledger.validate tip p tx = .ok ()) :
    tx.outputs.length ≤ maxAddressableOutputs :=
  (Transaction.checkStructure_eq_ok_iff.1
    (Transaction.checkRules_eq_ok_iff.1 (validate_eq_ok_iff.1 h).1).1).2.2.2

/-- What passes the checks, wherever it does, can be taken where it is new, consumes nothing that has
been consumed, and fits. -/
theorem exists_add_eq_ok (h : ledger.validate tip p tx = .ok ()) (hid : tx.txid = .ok id)
    (hnew : id ∉ q.acceptedIds) (hfree : ∀ o ∈ tx.inpoints, o ∉ q.spent)
    (hroom : q.size + Codec.size tx ≤ q.limit) : ∃ q', q.add tx = .ok (id, q') := by
  have hout := Transaction.outpoints_eq_ok_iff.2 ⟨length_outputs_le_of_validate h, id, hid, rfl⟩
  exact ⟨_, Pending.add_eq_ok_iff.2 ⟨hroom, hid, hnew, hfree, _, hout, rfl⟩⟩

/-- **What passes the checks is refused for want of room only.** It is in conflict with nothing in the
block, and its outputs have outpoints. -/
theorem add_of_validate (h : ledger.validate tip p tx = .ok ()) (hid : tx.txid = .ok id)
    (hnew : id ∉ p.acceptedIds) :
    (∃ q, p.add tx = .ok (id, q)) ∨
      p.add tx = .error (.blockFull (p.size + Codec.size tx) p.limit) := by
  by_cases hroom : p.size + Codec.size tx ≤ p.limit
  · exact .inl (exists_add_eq_ok h hid hnew (notMem_spent_of_validate h) hroom)
  · right
    rw [Pending.add]
    exact if_pos (Nat.lt_of_not_le hroom)

/-! ### Passes over all that waits -/

/-- One pass over all that waits, what has been accepted before included, which is passed over; and
whether it has accepted anything. -/
def pass (ledger : Ledger) (tip : Option BlockRecord) (p : Pending) :
    List Transaction → Pending × Bool
  | [] => (p, false)
  | tx :: rest =>
    match ledger.extend? tip p tx with
    | some q => ((ledger.pass tip q rest).1, true)
    | none => ledger.pass tip p rest

/-- Passes up to the first one that accepts nothing. There is no result if that is not among the first
`most` passes. -/
def passes? (ledger : Ledger) (tip : Option BlockRecord) (txs : List Transaction) :
    (most : Nat) → Pending → Option Pending
  | 0, _ => none
  | most + 1, p =>
    match ledger.pass tip p txs with
    | (q, true) => ledger.passes? tip txs most q
    | (q, false) => some q

theorem extend?_eq_none_of_mem (hid : tx.txid = .ok id) (h : id ∈ p.acceptedIds) :
    ledger.extend? tip p tx = none := by
  have hc : p.contains id = true := List.contains_iff_mem.2 h
  rw [extend?, hid]
  exact if_pos hc

theorem acceptedIds_subset_of_extend? (h : ledger.extend? tip p tx = some q) :
    p.acceptedIds ⊆ q.acceptedIds := by
  obtain ⟨-, id, ha⟩ := extend?_eq_some_iff.1 h
  obtain ⟨-, -, -, -, created, -, rfl⟩ := Pending.add_eq_ok_iff.1 ha
  exact List.subset_append_left _ _

theorem acceptedIds_subset_sweep (p : Pending) (txs : List Transaction) :
    p.acceptedIds ⊆ (ledger.sweep tip p txs).1.acceptedIds :=
  sweep_keeps (motive := fun q => p.acceptedIds ⊆ q.acceptedIds)
    (fun _ _ _ _ hp he => List.Subset.trans hp (acceptedIds_subset_of_extend? he)) txs
    (List.Subset.refl _) (List.Subset.refl _)

theorem mem_acceptedIds_of_extend? (h : ledger.extend? tip p tx = some q) :
    ∃ id ∈ q.acceptedIds, tx.txid = .ok id := by
  obtain ⟨-, id, ha⟩ := extend?_eq_some_iff.1 h
  obtain ⟨-, hid, -, -, created, -, rfl⟩ := Pending.add_eq_ok_iff.1 ha
  exact ⟨id, List.mem_append_right _ (List.mem_singleton_self id), hid⟩

end Ledger

/-- What is left of transactions: all of them but some that the block holds. -/
inductive Pending.Leaves (p : Pending) : List Transaction → List Transaction → Prop
  | nil : Leaves p [] []
  | keep {tx : Transaction} {txs left : List Transaction} :
      Leaves p txs left → Leaves p (tx :: txs) (tx :: left)
  | drop {tx : Transaction} {txs left : List Transaction} :
      (∃ id ∈ p.acceptedIds, tx.txid = .ok id) → Leaves p txs left → Leaves p (tx :: txs) left

namespace Pending.Leaves

variable {p q : Pending} {txs left : List Transaction}

theorem refl (p : Pending) (txs : List Transaction) : p.Leaves txs txs := by
  induction txs with
  | nil => exact .nil
  | cons tx txs ih => exact .keep ih

theorem mono (h : p.Leaves txs left) (hsub : p.acceptedIds ⊆ q.acceptedIds) :
    q.Leaves txs left := by
  induction h with
  | nil => exact .nil
  | keep _ ih => exact .keep ih
  | drop hid _ ih =>
    obtain ⟨id, hmem, hid⟩ := hid
    exact .drop ⟨id, hsub hmem, hid⟩ ih

end Pending.Leaves

namespace Ledger

variable {ledger : Ledger} {tip : Option BlockRecord} {p q : Pending} {tx : Transaction} {id : TxId}
  {txs left : List Transaction}

/-- A pass over all transactions does what a pass over those that are left does. -/
theorem pass_eq (ledger : Ledger) (tip : Option BlockRecord) (h : p.Leaves txs left) :
    ledger.pass tip p txs = ((ledger.sweep tip p left).1,
      decide ((ledger.sweep tip p left).2.length < left.length)) ∧
    (ledger.sweep tip p left).1.Leaves txs (ledger.sweep tip p left).2 := by
  induction txs generalizing p left with
  | nil =>
    cases h
    exact ⟨rfl, .nil⟩
  | cons tx txs ih =>
    rw [pass]
    cases h with
    | drop hid hleaves =>
      -- the block holds it, so the pass goes past it
      obtain ⟨id, hmem, hid⟩ := hid
      obtain ⟨hpass, hafter⟩ := ih hleaves
      rw [extend?_eq_none_of_mem hid hmem]
      exact ⟨hpass, .drop ⟨id, acceptedIds_subset_sweep p left hmem, hid⟩ hafter⟩
    | @keep _ _ left hleaves =>
      rw [sweep]
      cases he : ledger.extend? tip p tx with
      | none =>
        obtain ⟨hpass, hafter⟩ := ih hleaves
        refine ⟨?_, .keep hafter⟩
        simpa using hpass
      | some q =>
        obtain ⟨hpass, hafter⟩ := ih (hleaves.mono (acceptedIds_subset_of_extend? he))
        obtain ⟨id, hmem, hid⟩ := mem_acceptedIds_of_extend? he
        have hless : (ledger.sweep tip q left).2.length < (tx :: left).length :=
          Nat.lt_succ_of_le (sweep_sublist left).length_le
        refine ⟨?_, .drop ⟨id, acceptedIds_subset_sweep q left hmem, hid⟩ hafter⟩
        simp only [hpass, decide_eq_true hless]

/-- A pass accepts as many as it takes from what is left. -/
theorem length_sweep (ledger : Ledger) (tip : Option BlockRecord) (p : Pending)
    (txs : List Transaction) :
    (ledger.sweep tip p txs).1.accepted.length + (ledger.sweep tip p txs).2.length =
      p.accepted.length + txs.length := by
  induction txs generalizing p with
  | nil => rfl
  | cons tx txs ih =>
    rw [sweep]
    cases he : ledger.extend? tip p tx with
    | none =>
      have hrest := ih p
      simp only [List.length_cons]
      omega
    | some q =>
      have hrest := ih q
      rw [accepted_extend? he, List.length_append, List.length_singleton] at hrest
      simp only [List.length_cons]
      omega

/-- **Assembly is done after at most one pass more than transactions are accepted**, each of them over
all that waits. -/
theorem passes?_eq_assemble {most : Nat} (h : p.Leaves txs left)
    (hmost : (ledger.assemble tip p left).accepted.length < p.accepted.length + most) :
    ledger.passes? tip txs most p = some (ledger.assemble tip p left) := by
  induction most generalizing p left with
  | zero =>
    have hle : p.accepted.length ≤ (ledger.assemble tip p left).accepted.length :=
      (prefix_accepted_assemble p left).length_le
    omega
  | succ most ih =>
    obtain ⟨hpass, hafter⟩ := ledger.pass_eq tip h
    have hlength := ledger.length_sweep tip p left
    rw [assemble] at hmost ⊢
    rw [passes?, hpass]
    by_cases hless : (ledger.sweep tip p left).2.length < left.length
    · -- the pass has accepted something, so the rest needs one pass less
      simp only [hless, if_true, decide_true] at hmost ⊢
      exact ih hafter (by omega)
    · simp only [hless, if_false, decide_false]

end Ledger

/-! ### Adding once more -/

/-- The block under assembly with transactions added one after the other. -/
def Pending.addAll (p : Pending) (txs : List Transaction) : Except Error Pending :=
  txs.foldlM (fun p tx => (p.add tx).map Prod.snd) p

namespace Ledger

variable {ledger after : Ledger} {tip : Option BlockRecord} {p q : Pending} {tx : Transaction}
  {id : TxId} {c : Call} {answer : Option TxId}

theorem addAll_extend? (h : Pending.new.addAll p.accepted = .ok p)
    (he : ledger.extend? tip p tx = some q) : Pending.new.addAll q.accepted = .ok q := by
  obtain ⟨-, id, ha⟩ := extend?_eq_some_iff.1 he
  rw [Pending.addAll] at h
  rw [accepted_extend? he, Pending.addAll, List.foldlM_append, h]
  simp [ha, Except.map, bind, Except.bind, pure, Except.pure]

/-- What has been assembled is made up of its transactions in their order. -/
theorem addAll_assemble (txs : List Transaction) : Pending.new.addAll
    (ledger.assemble tip .new txs).accepted = .ok (ledger.assemble tip .new txs) :=
  assemble_keeps (motive := fun p => Pending.new.addAll p.accepted = .ok p)
    (fun _ _ _ _ h he => addAll_extend? h he) txs (List.Subset.refl _) rfl

/-! ### What waits, whatever the calls -/

/-- Transactions wait under their own identifiers, each of them once. -/
structure Queued (ledger : Ledger) : Prop where
  keyed : ledger.Keyed
  nodup : ledger.mempool.keys.Nodup

/-- **What a call may do to what waits**: nothing, or it puts a new transaction at the end, or it takes
some out. -/
theorem mempool_of_call (h : ledger.call c = .ok (answer, after)) :
    after.mempool = ledger.mempool ∨
      (∃ tx id, tx.txid = .ok id ∧ id ∉ ledger.mempool.keys ∧
        after.mempool = ledger.mempool.extend [(id, tx)]) ∨
      ∃ ids, after.mempool = ledger.mempool.without ids := by
  rcases call_cases h with ⟨height, block, -, rfl⟩ | ⟨height, block, spent, created, mined, -, rfl⟩ |
    ⟨tx, id, hid, hnew, rfl⟩ | ⟨id, rfl⟩ | ⟨utxos, rfl⟩
  · exact .inl rfl
  · exact .inr (.inr ⟨mined, Table.eraseMany_eq_without _ mined⟩)
  · exact .inr (.inl ⟨tx, id, hid, hnew, rfl⟩)
  · exact .inr (.inr ⟨[id], Table.erase_eq_without _ id⟩)
  · exact .inl rfl

namespace Queued

theorem called (h : ledger.Queued) (c : Call) : (ledger.called c).Queued := by
  unfold Ledger.called
  split
  · next answer after hc =>
    rcases mempool_of_call hc with hm | ⟨tx, id, hid, hnew, hm⟩ | ⟨ids, hm⟩
    · exact ⟨by rw [Keyed, hm]; exact h.keyed, hm ▸ h.nodup⟩
    · refine ⟨?_, ?_⟩
      · rw [Keyed, hm]
        exact List.forall_mem_append.2 ⟨h.keyed, by simpa using hid⟩
      · rw [hm, Table.keys_extend]
        exact h.nodup.append (List.nodup_singleton id) (by simpa using hnew)
    · refine ⟨?_, ?_⟩
      · rw [Keyed, hm]
        exact fun e he => h.keyed e (List.mem_of_mem_filter he)
      · rw [hm, Table.keys_without]
        exact h.nodup.filter _
  · exact h

theorem txid_eq_ok (h : ledger.Queued) (htx : tx ∈ ledger.pending) : ∃ id, tx.txid = .ok id := by
  obtain ⟨e, he, rfl⟩ := List.mem_map.1 htx
  exact ⟨e.1, h.keyed e he⟩

/-- What waits is told apart. -/
theorem eq_of_txid_eq (h : ledger.Queued) {other : Transaction} (htx : tx ∈ ledger.pending)
    (ho : other ∈ ledger.pending) (he : other.txid = tx.txid) : other = tx := by
  obtain ⟨e, hmem, rfl⟩ := List.mem_map.1 htx
  obtain ⟨e', hmem', rfl⟩ := List.mem_map.1 ho
  rw [h.keyed e hmem, h.keyed e' hmem', Except.ok.injEq] at he
  rw [List.inj_on_of_nodup_map h.nodup hmem' hmem he]

end Queued

theorem queued_afterCalls (calls : List Call) : (afterCalls calls).Queued :=
  List.foldlRecOn calls Ledger.called ⟨fun _ he => absurd he List.not_mem_nil, List.nodup_nil⟩
    fun _ h c _ => h.called c

/-! ### Maximal blocks -/

/-- A block under assembly that cannot take more of what waits. -/
structure Maximal (ledger : Ledger) (p : Pending) : Prop where
  /-- Passes come to it, at most one more than it accepts transactions. -/
  passes : ledger.passes? ledger.tip? ledger.pending (p.accepted.length + 1) .new = some p
  /-- Its transactions, added in their order to a new one, make it up. -/
  rebuilt : Pending.new.addAll p.accepted = .ok p
  /-- What it leaves does not pass the checks, or does not fit. -/
  refused : ∀ tx ∈ ledger.pending, tx ∉ p.accepted →
    (∃ e, ledger.validate ledger.tip? p tx = .error e) ∨
      p.add tx = .error (.blockFull (p.size + Codec.size tx) p.limit)
  /-- Whatever has been accepted, what passes the checks and is not among it is refused for want of
  room only. -/
  fits : ∀ q tx id, ledger.validate ledger.tip? q tx = .ok () → tx.txid = .ok id →
    id ∉ q.acceptedIds →
      (∃ q', q.add tx = .ok (id, q')) ∨
        q.add tx = .error (.blockFull (q.size + Codec.size tx) q.limit)

theorem Queued.maximal (h : ledger.Queued) : ledger.Maximal ledger.assembled where
  passes := by
    refine passes?_eq_assemble (.refl _ _) ?_
    show ledger.assembled.accepted.length < 0 + (ledger.assembled.accepted.length + 1)
    omega
  rebuilt := addAll_assemble _
  refused tx htx hnew := by
    have hnone : ledger.extend? ledger.tip? ledger.assembled tx = none :=
      (assemble_saturated ledger.pending htx).resolve_left hnew
    cases hv : ledger.validate ledger.tip? ledger.assembled tx with
    | error e => exact .inl ⟨e, rfl⟩
    | ok u =>
      right
      obtain ⟨id, hid⟩ := h.txid_eq_ok htx
      have hnotin : id ∉ ledger.assembled.acceptedIds := by
        intro hin
        obtain ⟨other, hother, hoid⟩ := checked_assembled.consistent.txid_mem.2 hin
        have hwait : other ∈ ledger.pending := mem_pending_of_mem_assembled hother
        exact hnew (h.eq_of_txid_eq htx hwait (hoid.trans hid.symm) ▸ hother)
      rcases add_of_validate hv hid hnotin with ⟨q, hq⟩ | hfull
      · rw [extend?_eq_some_iff.2 ⟨hv, id, hq⟩] at hnone
        cases hnone
      · exact hfull
  fits _ _ _ hv hid hnew := add_of_validate hv hid hnew

theorem transactions_of_generate {key : SecretKey} {stamp : Stamp} {made : Option Block}
    (h : ledger.generate key stamp = .ok (made, after)) :
    (made.map (·.transactions)).getD [] = ledger.assembled.accepted := by
  simp only [Ledger.generate] at h
  split at h
  · next hempty =>
    cases h
    exact (List.isEmpty_iff.1 hempty).symm
  · obtain ⟨⟨block, made⟩, hc, heq⟩ := map_eq_ok_iff.1 h
    cases heq
    exact (commitPending_eq_ok hc).1

/-- **Assembly comes to an end, and to a maximal block.** Whatever the calls on the ledger have been
and whatever waits in whatever order, the passes are at most one more than there are accepted
transactions, and all that waits and is not in the block does not pass the checks behind the block's
transactions, or does not fit. Where the block cannot be stored, this is so of what had been
assembled. -/
theorem maximal_afterCalls (calls : List Call) (key : SecretKey) (stamp : Stamp) :
    (afterCalls calls).Maximal (afterCalls calls).assembled ∧
      ∀ made after, (afterCalls calls).generate key stamp = .ok (made, after) →
        (made.map (·.transactions)).getD [] = (afterCalls calls).assembled.accepted :=
  ⟨(queued_afterCalls calls).maximal, fun _ _ => transactions_of_generate⟩

/-! ### Events are calls -/

theorem exists_called_of_commitPending {key : SecretKey} {stamp : Stamp} {block : Block}
    (h : ledger.commitPending key stamp tip p = .ok (block, after)) :
    ∃ c, ledger.called c = after := by
  have hcommit := (commitPending_eq_ok_iff.1 h).2
  let c : Call :=
    .commitBlock ((tip.map (·.height + 1)).getD 0) block p.confirmedSpent p.newUtxos p.acceptedIds
  have hcall : ledger.call c = .ok (none, after) := map_eq_ok_iff.2 ⟨after, hcommit, rfl⟩
  refine ⟨c, ?_⟩
  rw [Ledger.called, hcall]

/-- An event changes nothing, or it comes down to a call. -/
theorem next_eq_called (ledger : Ledger) (e : Event) :
    ledger.next e = ledger ∨ ∃ c, ledger.called c = ledger.next e := by
  cases e with
  | queue tx =>
    refine .inr ⟨.queue tx, ?_⟩
    rw [Ledger.called, Ledger.call, Ledger.next]
    cases ledger.queue tx <;> rfl
  | drop id => exact .inr ⟨.drop id, rfl⟩
  | mint key stamp coins owner =>
    rw [Ledger.next]
    cases hm : ledger.mintGenesis key stamp coins owner with
    | error e => exact .inl rfl
    | ok result =>
      obtain ⟨-, p, -, hc⟩ := mintGenesis_eq_ok hm
      exact .inr (exists_called_of_commitPending hc)
  | generate key stamp =>
    rw [Ledger.next]
    cases hg : ledger.generate key stamp with
    | error e => exact .inl rfl
    | ok result =>
      rcases generate_eq_ok hg with hsame | ⟨block, hc⟩
      · exact .inl hsame
      · exact .inr (exists_called_of_commitPending hc)

/-- Every run is a series of calls. -/
theorem exists_afterCalls_eq_run (events : List Event) : ∃ calls, afterCalls calls = run events := by
  refine List.foldlRecOn events Ledger.next (motive := fun ledger => ∃ calls, afterCalls calls = ledger)
    ⟨[], rfl⟩ fun ledger h e _ => ?_
  obtain ⟨calls, rfl⟩ := h
  rcases (afterCalls calls).next_eq_called e with hsame | ⟨c, hc⟩
  · exact ⟨calls, hsame.symm⟩
  · refine ⟨calls ++ [c], ?_⟩
    rw [← hc, afterCalls, List.foldl_append]
    rfl

end Ledger

end UtxoLedger
