import UtxoLedger.Proofs.History
import UtxoLedger.Proofs.Lawful

/-!
Looking back on a lawful history. The walk from the newest transaction to the oldest stops at the
first one that creates an outpoint or consumes it; replay from the oldest to the newest says the same
of every outpoint. So a transaction passes the checks at a place exactly if it may follow what can be
seen from there.
-/

namespace UtxoLedger

variable [CryptoSuite]

/-! ### What a chain does with an outpoint -/

namespace Lawful

variable {txs : List Transaction} {utxos : Utxos} {o : Outpoint} {output : Output}

/-- What is unspent has been created and not consumed. -/
theorem mem_entries_iff (h : Lawful txs utxos) :
    (o, output) ∈ utxos.entries ↔
      (∃ creator ∈ txs, creator.Creates o output) ∧ ∀ tx ∈ txs, o ∉ tx.inpoints := by
  constructor
  · intro ho
    refine ⟨h.exists_creator ho, fun tx htx hin => ?_⟩
    exact (h.consumed htx hin).2 (Table.mem_keys.2 ⟨output, ho⟩)
  · rintro ⟨⟨creator, hmem, hc⟩, hfree⟩
    induction h with
    | nil => cases hmem
    | @snoc txs utxos after tx before step ih =>
      rw [step.mem_entries_iff]
      rcases List.mem_append.1 hmem with hmem | hmem
      · refine .inl ⟨ih (fun tx' htx' => ?_) hmem, ?_⟩
        · exact hfree tx' (List.mem_append_left _ htx')
        · exact hfree tx (List.mem_append_right _ (List.mem_singleton_self _))
      · rw [List.mem_singleton.1 hmem] at hc
        exact .inr hc

theorem get?_eq_some_iff (h : Lawful txs utxos) :
    utxos.get? o = some output ↔
      (∃ creator ∈ txs, creator.Creates o output) ∧ ∀ tx ∈ txs, o ∉ tx.inpoints := by
  rw [Table.get?_eq_some_iff h.keys_nodup, h.mem_entries_iff]

end Lawful

/-- What is to be said of an outpoint behind some transactions: nothing, that it is unspent, or that
it is spent. -/
inductive Standing (txs : List Transaction) (o : Outpoint) : Option Bool → Prop
  | unknown : (∀ tx ∈ txs, tx.txid ≠ .ok o.txid) → (∀ tx ∈ txs, o ∉ tx.inpoints) →
      Standing txs o none
  | unspent {creator : Transaction} : creator ∈ txs → creator.txid = .ok o.txid →
      (∀ tx ∈ txs, o ∉ tx.inpoints) → Standing txs o (some true)
  | spent {tx : Transaction} : tx ∈ txs → o ∈ tx.inpoints → Standing txs o (some false)

/-- What a transaction has to say of an outpoint. -/
def Transaction.tells (o : Outpoint) (tx : Transaction) : Except Error (Option Bool) :=
  tx.txid.map fun id =>
    if id = o.txid then some true
    else if tx.inpoints.contains o then some false
    else none

/-- The transaction itself, if it has the identifier. -/
def Transaction.named (id : TxId) (tx : Transaction) : Except Error (Option Transaction) :=
  tx.txid.map fun found => if found = id then some tx else none

/-- The walk finds the first transaction with an identifier. -/
theorem firstAnswer_named_eq {txs : List Transaction} {id : TxId}
    (hids : ∀ tx ∈ txs, ∃ id, tx.txid = .ok id) :
    ChainStore.firstAnswer (Transaction.named id) txs =
      .ok (txs.find? fun other => other.txid = .ok id) := by
  induction txs with
  | nil => rfl
  | cons tx txs ih =>
    obtain ⟨⟨found, hfound⟩, hrest⟩ := List.forall_mem_cons.1 hids
    rw [ChainStore.firstAnswer, Transaction.named, List.find?_cons, hfound, Except.map]
    by_cases he : found = id
    · simp [he]
    · simpa [he] using ih hrest

/-- Where identifiers tell transactions apart, any one of them is the first. -/
theorem find?_txid_eq_some_iff {txs : List Transaction} {id : TxId} {tx : Transaction}
    (hd : ∀ a ∈ txs, ∀ b ∈ txs, ∀ id, a.txid = .ok id → b.txid = .ok id → a = b) :
    txs.find? (fun other => other.txid = .ok id) = some tx ↔ tx.txid = .ok id ∧ tx ∈ txs := by
  constructor
  · intro h
    exact ⟨by simpa using List.find?_some h, List.mem_of_find?_eq_some h⟩
  · rintro ⟨hid, hmem⟩
    cases hfound : txs.find? fun other => other.txid = .ok id with
    | none => exact absurd (decide_eq_true hid) (List.find?_eq_none.1 hfound tx hmem)
    | some other =>
      have hother : other.txid = .ok id := by simpa using List.find?_some hfound
      rw [hd other (List.mem_of_find?_eq_some hfound) tx hmem id hother hid]

namespace Lawful

open ChainStore

variable {txs : List Transaction} {utxos : Utxos}

/-- **The newest transaction that knows of an outpoint is right about it.** -/
theorem exists_standing (h : Lawful txs utxos) (o : Outpoint) :
    ∃ answer, firstAnswer (Transaction.tells o) txs.reverse = .ok answer ∧ Standing txs o answer := by
  induction h with
  | nil => exact ⟨none, rfl, .unknown (by simp) (by simp)⟩
  | @snoc txs utxos after tx before step ih =>
    obtain ⟨id, hid⟩ := step.txid_eq_ok
    have hlast : tx ∈ txs ++ [tx] := List.mem_append_right _ (List.mem_singleton_self _)
    rw [firstAnswer_concat_reverse, Transaction.tells, hid, Except.map]
    by_cases hcreates : id = o.txid
    · -- its outputs are new, so nothing before it or in it has consumed them
      have hnew : ∀ creator ∈ txs, creator.txid ≠ .ok o.txid := fun creator hmem he =>
        step.fresh creator hmem (by rw [he, hid, hcreates])
      refine ⟨some true, by simp [hcreates], .unspent hlast (hcreates ▸ hid) ?_⟩
      rw [List.forall_mem_append, List.forall_mem_singleton]
      constructor
      · intro other hmem hin
        obtain ⟨⟨creator, hcreator, he⟩, -⟩ := before.consumed hmem hin
        exact hnew creator hcreator he
      · intro hin
        obtain ⟨creator, hcreator, he⟩ :=
          before.exists_txid_of_mem_keys (step.mem_keys_of_mem_inpoints hin)
        exact hnew creator hcreator he
    · by_cases hin : o ∈ tx.inpoints
      · exact ⟨some false, by simp [hcreates, hin], .spent hlast hin⟩
      · -- it knows nothing of the outpoint, and what is known before it stays
        obtain ⟨answer, ha, hstanding⟩ := ih
        refine ⟨answer, by simp [hcreates, hin, ha], ?_⟩
        have hfrees : (∀ other ∈ txs, o ∉ other.inpoints) →
            ∀ other ∈ txs ++ [tx], o ∉ other.inpoints := fun hfree =>
          List.forall_mem_append.2 ⟨hfree, List.forall_mem_singleton.2 hin⟩
        cases hstanding with
        | unknown hids hfree =>
          refine .unknown (List.forall_mem_append.2 ⟨hids, List.forall_mem_singleton.2 ?_⟩)
            (hfrees hfree)
          simpa [hid] using hcreates
        | unspent hmem hcreator hfree =>
          exact .unspent (List.mem_append_left _ hmem) hcreator (hfrees hfree)
        | spent hmem hspent => exact .spent (List.mem_append_left _ hmem) hspent

theorem firstAnswer_named_eq_iff (h : Lawful txs utxos) {id : TxId} {tx : Transaction} :
    firstAnswer (Transaction.named id) txs.reverse = .ok (some tx) ↔ tx ∈ txs ∧ tx.txid = .ok id := by
  rw [firstAnswer_named_eq fun tx htx => h.txid_eq_ok (List.mem_reverse.1 htx), Except.ok.injEq,
    find?_txid_eq_some_iff, List.mem_reverse, and_comm]
  intro a ha b hb id hida hidb
  exact h.eq_of_txid_eq (List.mem_reverse.1 ha) (List.mem_reverse.1 hb) (hida.trans hidb.symm)

end Lawful

/-! ### Looking up from a place -/

namespace ChainStore

variable {store : ChainStore} {position : Position} {history : List (Position × Transaction)}
  {utxos : Utxos} {o : Outpoint} {output : Output}

section LookingUp

variable (hs : store.Sees position history) (h : Lawful (history.map Prod.snd) utxos)

include hs h

/-- The walk gives what is to be said of the outpoint. -/
theorem exists_standing_unspentAt : ∃ answer, Standing (history.map Prod.snd) o answer ∧
    store.unspentAt position o =
      match answer with
      | none => .error (.utxoNotFound o)
      | some unspent => .ok unspent := by
  obtain ⟨answer, ha, hstanding⟩ := h.exists_standing o
  refine ⟨answer, hstanding, ?_⟩
  rw [← hs.search_eq] at ha
  unfold Transaction.tells at ha
  unfold unspentAt
  rw [ha]
  cases answer <;> rfl

theorem unspentAt_eq_ok_true_iff :
    store.unspentAt position o = .ok true ↔
      (∃ creator ∈ history.map Prod.snd, creator.txid = .ok o.txid) ∧
        ∀ tx ∈ history.map Prod.snd, o ∉ tx.inpoints := by
  obtain ⟨answer, hstanding, ha⟩ := exists_standing_unspentAt hs h (o := o)
  rw [ha]
  cases hstanding with
  | unknown hids _ =>
    simp only [reduceCtorEq, false_iff]
    rintro ⟨⟨creator, hmem, hid⟩, -⟩
    exact hids creator hmem hid
  | @unspent creator hmem hid hfree => exact ⟨fun _ => ⟨⟨creator, hmem, hid⟩, hfree⟩, fun _ => rfl⟩
  | @spent tx hmem hin =>
    simp only [Except.ok.injEq, Bool.false_eq_true, false_iff]
    exact fun ⟨_, hfree⟩ => hfree tx hmem hin

theorem unspentAt_eq_ok_false {tx : Transaction} (hmem : tx ∈ history.map Prod.snd)
    (hin : o ∈ tx.inpoints) : store.unspentAt position o = .ok false := by
  obtain ⟨answer, hstanding, ha⟩ := exists_standing_unspentAt hs h (o := o)
  rw [ha]
  cases hstanding with
  | unknown _ hfree => exact absurd hin (hfree tx hmem)
  | unspent _ _ hfree => exact absurd hin (hfree tx hmem)
  | spent => rfl

theorem outputAt_eq_ok_iff :
    store.outputAt position o = .ok output ↔
      ∃ creator ∈ history.map Prod.snd, creator.Creates o output := by
  have hfind : ∀ tx, store.transactionAt position o.txid = .ok (some tx) ↔
      tx ∈ history.map Prod.snd ∧ tx.txid = .ok o.txid := fun tx => by
    rw [← h.firstAnswer_named_eq_iff, ← hs.search_eq]
    rfl
  unfold outputAt
  cases hfound : store.transactionAt position o.txid with
  | error e =>
    simp only [reduceCtorEq, false_iff]
    rintro ⟨creator, hmem, hc⟩
    rw [(hfind creator).2 ⟨hmem, hc.1⟩] at hfound
    cases hfound
  | ok found =>
    cases found with
    | none =>
      simp only [reduceCtorEq, false_iff]
      rintro ⟨creator, hmem, hc⟩
      rw [(hfind creator).2 ⟨hmem, hc.1⟩] at hfound
      cases hfound
    | some tx =>
      obtain ⟨hmem, hid⟩ := (hfind tx).1 hfound
      have hout : (∃ creator ∈ history.map Prod.snd, creator.Creates o output) ↔
          tx.outputs[o.index.toNat]? = some output := by
        constructor
        · rintro ⟨creator, hcreator, hc⟩
          obtain rfl := h.eq_of_txid_eq hcreator hmem (hc.1.trans hid.symm)
          exact hc.2
        · exact fun ho => ⟨tx, hmem, hid, ho⟩
      rw [hout]
      cases ho : tx.outputs[o.index.toNat]? <;> simp [ho]

/-- **An outpoint is found unspent, with its output, exactly if replay leaves it.** -/
theorem unspentAt_and_outputAt_iff :
    store.unspentAt position o = .ok true ∧ store.outputAt position o = .ok output ↔
      utxos.get? o = some output := by
  rw [unspentAt_eq_ok_true_iff hs h, outputAt_eq_ok_iff hs h, h.get?_eq_some_iff]
  constructor
  · exact fun ⟨⟨_, hfree⟩, hc⟩ => ⟨hc, hfree⟩
  · rintro ⟨⟨creator, hmem, hc⟩, hfree⟩
    exact ⟨⟨⟨creator, hmem, hc.1⟩, hfree⟩, creator, hmem, hc⟩

/-- An outpoint that has been created is unspent exactly if replay leaves it. -/
theorem unspentAt_of_creates {creator : Transaction} (hmem : creator ∈ history.map Prod.snd)
    (hc : creator.Creates o output) : store.unspentAt position o = .ok (utxos.contains o) := by
  by_cases hspent : ∃ tx ∈ history.map Prod.snd, o ∈ tx.inpoints
  · obtain ⟨tx, htx, hin⟩ := hspent
    rw [Table.contains_eq_false_iff.2 (h.consumed htx hin).2]
    exact unspentAt_eq_ok_false hs h htx hin
  · have hfree : ∀ tx ∈ history.map Prod.snd, o ∉ tx.inpoints := fun tx htx hin =>
      hspent ⟨tx, htx, hin⟩
    have hkey : o ∈ utxos.keys :=
      Table.mem_keys.2 ⟨output, h.mem_entries_iff.2 ⟨⟨creator, hmem, hc⟩, hfree⟩⟩
    rw [Table.contains_iff.2 hkey, unspentAt_eq_ok_true_iff hs h]
    exact ⟨⟨creator, hmem, hc.1⟩, hfree⟩

end LookingUp

/-! ### Checking at a place -/

omit [CryptoSuite] in
theorem checkGenesisPosition_eq_ok_iff : store.checkGenesisPosition position = .ok () ↔
    ∃ stored, store.block? position.block = some stored ∧ stored.block.isGenesis = true ∧
      stored.height = 0 ∧ position.index = 0 ∧ stored.block.transactions.length = 1 := by
  unfold checkGenesisPosition
  cases store.block? position.block with
  | none => simp
  | some stored =>
    simp only [Option.some.injEq, exists_eq_left']
    split
    · next h => simp [h]
    · next h => simp [h]

theorem checkUnspent_eq_ok_iff {os : List Outpoint} :
    store.checkUnspent position os = .ok () ↔ ∀ o ∈ os, store.unspentAt position o = .ok true := by
  induction os with
  | nil => simp [checkUnspent]
  | cons o os ih =>
    rw [checkUnspent, List.forall_mem_cons, ← ih]
    rcases store.unspentAt position o with e | _ | _ <;> simp

theorem checkTransfer_eq_ok_iff {version : UInt8} {t : Transfer} :
    store.checkTransfer position version t = .ok () ↔
      (∀ input ∈ t.inputs, store.unspentAt position input.outpoint = .ok true) ∧
        ∃ previous, List.Forall₂ (fun input output =>
          store.outputAt position input.outpoint = .ok output) t.inputs previous ∧
          t.checkSpending version previous = .ok () := by
  have hunspent : (∀ input ∈ t.inputs, store.unspentAt position input.outpoint = .ok true) ↔
      store.checkUnspent position (t.inputs.map (·.outpoint)) = .ok () := by
    rw [checkUnspent_eq_ok_iff, List.forall_mem_map]
  have hfound : ∀ previous, List.Forall₂ (fun input output =>
      store.outputAt position input.outpoint = .ok output) t.inputs previous ↔
        (t.inputs.map (·.outpoint)).mapM (store.outputAt position) = .ok previous := fun previous => by
    rw [mapM_eq_ok_iff, List.forall₂_map_left_iff]
  simp only [hunspent, hfound, Transfer.checkSpending_eq_ok_iff, checkTransfer, bind, Except.bind]
  cases store.checkUnspent position (t.inputs.map (·.outpoint)) with
  | error e => simp
  | ok u =>
    cases (t.inputs.map (·.outpoint)).mapM (store.outputAt position) with
    | error e => simp
    | ok previous =>
      simp only [Except.ok.injEq, exists_eq_left', true_and]
      cases Transaction.authorizeInputs (t.hasher version).digest 0 t.inputs t.witnesses previous with
      | error e => simp
      | ok u =>
        simp only [and_true]
        split
        · next hne => simpa [throw, throwThe, MonadExceptOf.throw] using hne
        · next he => simpa [pure, Except.pure] using he

/-- **A transaction passes at a place exactly if it may follow what can be seen from there**: it is
the transfer of unspent outputs, or the genesis transaction in its place. -/
theorem checkTransaction_eq_ok_iff (hs : store.Sees position history)
    (h : Lawful (history.map Prod.snd) utxos) {tx : Transaction} :
    store.checkTransaction position tx = .ok () ↔
      (tx.isGenesis = true ∧ tx.checkRules = .ok () ∧ store.checkGenesisPosition position = .ok ()) ∨
        ∃ t previous, tx.Spends t previous utxos := by
  have hspends : (∃ t previous, tx.Spends t previous utxos) ↔
      ∃ t, tx.body = .transfer t ∧ tx.checkRules = .ok () ∧
        store.checkTransfer position tx.version t = .ok () := by
    simp only [checkTransfer_eq_ok_iff]
    constructor
    · rintro ⟨t, previous, hsp⟩
      have hall := hsp.found.imp fun _ _ => (unspentAt_and_outputAt_iff hs h).2
      refine ⟨t, hsp.body, hsp.rules, fun input hi => ?_, previous, hall.imp fun _ _ => And.right,
        hsp.checked⟩
      obtain ⟨i, hlt, rfl⟩ := List.getElem_of_mem hi
      exact (hall.get hlt (hall.length_eq ▸ hlt)).1
    · rintro ⟨t, hb, hr, hunspent, previous, hfound, hchecked⟩
      refine ⟨t, previous, hb, hr, ?_, hchecked⟩
      rw [List.forall₂_iff_get] at hfound ⊢
      refine ⟨hfound.1, fun i hi hi' => ?_⟩
      exact (unspentAt_and_outputAt_iff hs h).1 ⟨hunspent _ (List.get_mem ..), hfound.2 i hi hi'⟩
  rw [hspends]
  unfold checkTransaction
  cases hb : tx.body with
  | escrowOpen => simp [Transaction.isGenesis, hb]
  | genesis outputs => cases tx.checkRules <;> simp [Transaction.isGenesis, hb]
  | transfer t => cases tx.checkRules <;> simp [Transaction.isGenesis, hb]

end ChainStore

end UtxoLedger
