import UtxoLedger.Ledger.InPlace
import UtxoLedger.Proofs.Linkage

/-!
What calls on the ledger keep, with whatever blocks they come. The stored blocks make one chain, and
the ledger in place goes step for step with the ledger as a value: the same answers, the same errors,
and after an error the same fields as before.
-/

namespace UtxoLedger

theorem FixedBytes.isZero_iff {n : Nat} {bytes : FixedBytes n} : bytes.isZero = true ↔ bytes = zero := by
  have hall : bytes.isZero = true ↔ ∀ b ∈ bytes.toList, b = 0 := by simp [isZero]
  rw [hall]
  constructor
  · intro h
    exact ext (List.eq_replicate_iff.2 ⟨bytes.length_toList, h⟩)
  · rintro rfl b hb
    exact List.eq_of_mem_replicate hb

theorem BlockId.isZero_iff {id : BlockId} : id.isZero = true ↔ id = zero := by
  obtain ⟨bytes⟩ := id
  unfold isZero zero
  rw [FixedBytes.isZero_iff, mk.injEq]

/-! ### Loops over one field -/

namespace LedgerState

theorem foldl_erase (spent : List Outpoint) (state : LedgerState) :
    spent.foldl (fun state o => { state with utxos := state.utxos.erase o }) state =
      { state with utxos := state.utxos.eraseMany spent } :=
  List.foldl_hom (fun utxos => { state with utxos := utxos }) fun _ _ => rfl

theorem foldl_insert (created : List (Outpoint × Output)) (state : LedgerState) :
    created.foldl (fun state e => { state with utxos := state.utxos.insert e.1 e.2 }) state =
      { state with utxos := state.utxos.insertMany created } :=
  List.foldl_hom (fun utxos => { state with utxos := utxos }) fun _ _ => rfl

theorem foldl_drop (mined : List TxId) (state : LedgerState) :
    mined.foldl (fun state id => { state with mempool := state.mempool.erase id }) state =
      { state with mempool := state.mempool.eraseMany mined } :=
  List.foldl_hom (fun mempool => { state with mempool := mempool }) fun _ _ => rfl

end LedgerState

/-! ### The fields of a ledger -/

namespace Ledger

variable {ledger : Ledger}

/-- The fields of a ledger, in place. -/
def held (ledger : Ledger) : LedgerState where
  mempool := ledger.mempool
  utxos := ledger.utxos
  blocks := ⟨ledger.blocks.map fun record => (record.id, record)⟩
  tip := ledger.tip?.map (·.id)

theorem keys_held (ledger : Ledger) : ledger.held.blocks.keys = ledger.blocks.map (·.id) := by
  simp [held, Table.keys]

theorem values_held (ledger : Ledger) : ledger.held.blocks.values = ledger.blocks := by
  simp [held, Table.values, Function.comp_def]

theorem contains_held (ledger : Ledger) (id : BlockId) :
    ledger.held.blocks.contains id = (ledger.block? id).isSome := by
  rw [Bool.eq_iff_iff, Table.contains_iff, keys_held, block?, List.find?_isSome]
  simp

/-- The pointer leads to the last block, since no other one has its identifier. -/
theorem tip?_held (h : (ledger.blocks.map (·.id)).Nodup) : ledger.held.tip? = ledger.tip? := by
  have hkeys : ledger.held.blocks.keys.Nodup := by rwa [keys_held]
  unfold LedgerState.tip?
  cases htip : ledger.tip? with
  | none => simp [held, htip]
  | some tip =>
    have hmem : (tip.id, tip) ∈ ledger.held.blocks.entries :=
      List.mem_map_of_mem (List.mem_of_getLast? htip)
    have hget := (Table.get?_eq_some_iff hkeys).2 hmem
    simpa [held, htip] using hget

/-- The fields with one more block, pointed at, are those of the ledger with one more block. -/
theorem held_append (ledger : Ledger) {record : BlockRecord}
    (hnew : ∀ other ∈ ledger.blocks, other.id ≠ record.id) :
    { ledger.held with
      tip := some record.id
      blocks := ledger.held.blocks.insert record.id record } =
      held { ledger with blocks := ledger.blocks ++ [record] } := by
  have hkey : record.id ∉ ledger.held.blocks.keys := by
    rw [keys_held]
    intro hmem
    obtain ⟨other, hother, hid⟩ := List.mem_map.1 hmem
    exact hnew other hother hid
  rw [Table.insert_eq_extend hkey]
  simp [held, Table.extend, tip?]

/-- What a step on a ledger gives, as the outcome of a program over its fields. -/
def outcome {α : Type} (before : Ledger) :
    Except Error (α × Ledger) → EStateM.Result Error LedgerState α
  | .ok (answer, after) => .ok answer after.held
  | .error e => .error e before.held

end Ledger

namespace LedgerState

open Ledger (outcome)

theorem run_insertUtxo (ledger : Ledger) (o : Outpoint) (output : Output) :
    (insertUtxo o output).run ledger.held =
      outcome ledger ((ledger.insertUtxo o output).map ((), ·)) := by
  unfold insertUtxo Ledger.insertUtxo
  have hutxos : ledger.held.utxos = ledger.utxos := rfl
  simp only [EStateM.run_bind, EStateM.run_get, hutxos]
  by_cases hthere : ledger.utxos.contains o = true
  · simp only [hthere, if_true]
    rfl
  · simp only [hthere]
    rfl

/-- Erasing comes before the error here, but then there is nothing to erase. -/
theorem run_deleteUtxo (ledger : Ledger) (o : Outpoint) :
    (deleteUtxo o).run ledger.held = outcome ledger ((ledger.deleteUtxo o).map ((), ·)) := by
  unfold deleteUtxo Ledger.deleteUtxo
  have hutxos : ledger.held.utxos = ledger.utxos := rfl
  simp only [EStateM.run_bind, EStateM.run_get, EStateM.run_modify, hutxos]
  by_cases hthere : ledger.utxos.contains o = true
  · simp only [hthere]
    rfl
  · have habsent : o ∉ ledger.utxos.keys := fun hkey => hthere (Table.contains_iff.2 hkey)
    simp only [hthere, Table.erase_eq_self habsent]
    rfl

end LedgerState

variable [CryptoSuite]

/-! ### Chains -/

/-- **One chain**, from the first block to the last. -/
structure Linear (records : List BlockRecord) : Prop where
  heights : records.map (·.height) = List.range records.length
  nodup_ids : (records.map (·.id)).Nodup
  /-- Identifier and parent are those of the block. -/
  eq : ∀ record ∈ records, record = .ofBlock record.height record.block
  first : ∀ record, records.head? = some record → record.parent = .zero
  parent : ∀ pre before record post, records = pre ++ before :: record :: post →
    record.parent = before.id

namespace Linked

variable {records pre post : List BlockRecord} {before record : BlockRecord}

theorem heights (h : Linked records) : records.map (·.height) = List.range records.length := by
  induction h with
  | nil => rfl
  | snoc earlier step ih =>
    rw [List.map_append, ih, List.length_append, List.length_singleton, List.range_succ, step.eq]
    rfl

theorem parent_eq (h : Linked (pre ++ record :: post)) :
    record.parent = (pre.getLast?.map (·.id)).getD .zero := by
  have step := h.split.2
  have hparent : record.parent = record.block.header.previous := congrArg BlockRecord.parent step.eq
  rw [hparent, step.previous]

theorem linear (h : Linked records) : Linear records where
  heights := h.heights
  nodup_ids := h.nodup_ids
  eq record hr := by
    obtain ⟨pre, post, rfl⟩ := List.append_of_mem hr
    have heq := h.split.2.eq
    have hheight : record.height = pre.length := congrArg BlockRecord.height heq
    rwa [hheight]
  first record hr := by
    obtain ⟨post, rfl⟩ : ∃ post, records = record :: post := by
      cases records with
      | nil => cases hr
      | cons head post => exact ⟨post, by rw [Option.some.inj hr]⟩
    have hpre : Linked ([] ++ record :: post) := h
    exact hpre.parent_eq
  parent pre before record post hs := by
    have hpre : Linked ((pre ++ [before]) ++ record :: post) := by simpa [hs] using h
    rw [hpre.parent_eq, List.getLast?_concat]
    rfl

/-- A block whose record passes the check may come behind the stored ones. -/
theorem snoc_of_checkLinkage {ledger : Ledger} {height : Nat} {block : Block}
    (h : Linked ledger.blocks) (hc : ledger.checkLinkage (.ofBlock height block) = .ok ()) :
    Linked (ledger.blocks ++ [.ofBlock height block]) := by
  obtain ⟨hfresh, hplace⟩ := Ledger.checkLinkage_eq_ok_iff.1 hc
  have hnext := h.height_next
  unfold Ledger.tip? at hplace
  have hboth : height = ledger.blocks.length ∧
      block.header.previous = (ledger.blocks.getLast?.map (·.id)).getD .zero := by
    rcases hplace with ⟨hnone, hzero, hheight⟩ | ⟨tip, hsome, hparent, hheight⟩
    · rw [hnone] at hnext ⊢
      exact ⟨hheight.trans hnext, BlockId.isZero_iff.1 hzero⟩
    · rw [hsome] at hnext ⊢
      exact ⟨hheight.trans hnext, hparent⟩
  exact h.snoc ⟨congrArg (BlockRecord.ofBlock · block) hboth.1, hboth.2, hfresh⟩

end Linked

/-! ### The ledger as a value -/

namespace Ledger

variable {ledger after : Ledger} {c : Call} {answer : Option TxId}

/-- **What a call does** where it does not fail: it stores a block that passes the check, by itself or
with all that it changes, or it queues a new transaction, drops one, or changes the confirmed outputs. -/
theorem call_cases (h : ledger.call c = .ok (answer, after)) :
    (∃ height block, ledger.checkLinkage (.ofBlock height block) = .ok () ∧
      after = { ledger with blocks := ledger.blocks ++ [.ofBlock height block] }) ∨
    (∃ height block spent created mined, ledger.checkLinkage (.ofBlock height block) = .ok () ∧
      after = ledger.apply ⟨.ofBlock height block, spent, created, mined⟩) ∨
    (∃ tx id, tx.txid = .ok id ∧ id ∉ ledger.mempool.keys ∧
      after = { ledger with mempool := ledger.mempool.extend [(id, tx)] }) ∨
    (∃ id, after = ledger.drop id) ∨ ∃ utxos, after = { ledger with utxos := utxos } := by
  cases c with
  | insertBlock height block =>
    obtain ⟨made, hmade, heq⟩ := map_eq_ok_iff.1 h
    cases heq
    unfold insertBlock at hmade
    split at hmade
    · cases hmade
    · next hc =>
      cases hmade
      exact .inl ⟨height, block, hc, rfl⟩
  | commitBlock height block spent created mined =>
    obtain ⟨made, hmade, heq⟩ := map_eq_ok_iff.1 h
    cases heq
    obtain ⟨hc, rfl⟩ := commit_eq_ok hmade
    exact .inr (.inl ⟨height, block, spent, created, mined, hc, rfl⟩)
  | queue tx =>
    obtain ⟨⟨id, made⟩, hmade, heq⟩ := map_eq_ok_iff.1 h
    cases heq
    obtain ⟨hid, hnew, rfl⟩ := queue_eq_ok_iff.1 hmade
    exact .inr (.inr (.inl ⟨tx, id, hid, hnew, rfl⟩))
  | drop id =>
    cases h
    exact .inr (.inr (.inr (.inl ⟨id, rfl⟩)))
  | insertUtxo o output =>
    obtain ⟨made, hmade, heq⟩ := map_eq_ok_iff.1 h
    cases heq
    unfold insertUtxo at hmade
    split at hmade <;> cases hmade
    exact .inr (.inr (.inr (.inr ⟨_, rfl⟩)))
  | deleteUtxo o =>
    obtain ⟨made, hmade, heq⟩ := map_eq_ok_iff.1 h
    cases heq
    unfold deleteUtxo at hmade
    split at hmade <;> cases hmade
    exact .inr (.inr (.inr (.inr ⟨_, rfl⟩)))

/-- What a call may do to the blocks: nothing, or it stores one that passes the check. -/
theorem blocks_of_call (h : ledger.call c = .ok (answer, after)) : after.blocks = ledger.blocks ∨
    ∃ height block, ledger.checkLinkage (.ofBlock height block) = .ok () ∧
      after.blocks = ledger.blocks ++ [.ofBlock height block] := by
  rcases call_cases h with ⟨height, block, hc, rfl⟩ | ⟨height, block, spent, created, mined, hc, rfl⟩ |
    ⟨tx, id, -, -, rfl⟩ | ⟨id, rfl⟩ | ⟨utxos, rfl⟩
  · exact .inr ⟨height, block, hc, rfl⟩
  · exact .inr ⟨height, block, hc, rfl⟩
  · exact .inl rfl
  · exact .inl rfl
  · exact .inl rfl

/-- One call keeps the chain. -/
theorem linked_called (h : Linked ledger.blocks) (c : Call) : Linked (ledger.called c).blocks := by
  unfold called
  split
  · next hc =>
    rcases blocks_of_call hc with hsame | ⟨height, block, hcheck, hblocks⟩
    · rwa [hsame]
    · rw [hblocks]
      exact h.snoc_of_checkLinkage hcheck
  · exact h

theorem linked_afterCalls (calls : List Call) : Linked (afterCalls calls).blocks :=
  List.foldlRecOn (motive := fun ledger => Linked ledger.blocks) calls called .nil
    fun _ h c _ => linked_called h c

end Ledger

/-! ### The ledger in place -/

namespace LedgerState

open Ledger (outcome)

variable {ledger : Ledger}

theorem run_checkLinkage (h : Linked ledger.blocks) (record : BlockRecord) :
    (checkLinkage record).run ledger.held =
      outcome ledger ((ledger.checkLinkage record).map fun _ => ((), ledger)) := by
  have hcontains := Ledger.contains_held ledger record.id
  have htip := Ledger.tip?_held h.nodup_ids
  unfold checkLinkage Ledger.checkLinkage
  rw [EStateM.run_bind, EStateM.run_get]
  simp only [hcontains, htip]
  by_cases hnew : (ledger.block? record.id).isSome = true
  · simp only [hnew, if_true]
    rfl
  · simp only [hnew]
    cases ledger.tip? with
    | none =>
      by_cases hfirst : record.parent.isZero = true ∧ record.height = 0
      · simp only [hfirst]
        rfl
      · simp only [hfirst]
        rfl
    | some tip =>
      by_cases hnext : record.parent = tip.id ∧ record.height = tip.height + 1
      · simp only [hnext]
        rfl
      · simp only [hnext]
        rfl

theorem run_insertBlock (h : Linked ledger.blocks) (record : BlockRecord) :
    (insertBlock record).run ledger.held =
      outcome ledger ((ledger.insertBlock record).map ((), ·)) := by
  unfold insertBlock Ledger.insertBlock
  rw [EStateM.run_bind, run_checkLinkage h]
  cases hc : ledger.checkLinkage record with
  | error e => rfl
  | ok _ =>
    have hnew := (Ledger.checkLinkage_eq_ok_iff.1 hc).1
    exact congrArg (EStateM.Result.ok ()) (Ledger.held_append ledger hnew)

/-- All checks of a commit come before its first change. -/
theorem run_commit (h : Linked ledger.blocks) (c : Commit) :
    (commit c).run ledger.held = outcome ledger ((ledger.commit c).map ((), ·)) := by
  unfold commit Ledger.commit
  rw [EStateM.run_bind, run_checkLinkage h]
  cases hc : ledger.checkLinkage c.record with
  | error e => rfl
  | ok _ =>
    have hnew := (Ledger.checkLinkage_eq_ok_iff.1 hc).1
    simp only [outcome, Except.map, EStateM.run_bind, EStateM.run_get]
    have hutxos : ledger.held.utxos = ledger.utxos := rfl
    rw [hutxos]
    cases hspent : c.spent.find? fun o => !ledger.utxos.contains o with
    | some missing => rfl
    | none =>
      cases hcreated : c.created.find? fun e => ledger.utxos.contains e.1 with
      | some existing => rfl
      | none =>
        simp only [EStateM.run_bind, run_forM_modify, foldl_erase, foldl_insert, foldl_drop]
        let changed : Ledger := { ledger with
          mempool := ledger.mempool.eraseMany c.mined
          utxos := (ledger.utxos.eraseMany c.spent).insertMany c.created }
        exact congrArg (EStateM.Result.ok ()) (Ledger.held_append changed hnew)

theorem run_queue (ledger : Ledger) (tx : Transaction) :
    (queue tx).run ledger.held = outcome ledger (ledger.queue tx) := by
  unfold queue Ledger.queue
  rw [EStateM.run_bind, run_ofExcept]
  cases tx.txid with
  | error e => rfl
  | ok id =>
    have hmempool : ledger.held.mempool = ledger.mempool := rfl
    simp only [EStateM.run_bind, EStateM.run_get, hmempool]
    by_cases hthere : ledger.mempool.contains id = true
    · simp only [hthere, if_true]
      rfl
    · simp only [hthere]
      rfl

/-- **A call in place does what it does to the ledger as a value.** -/
theorem run_call (h : Linked ledger.blocks) (c : Call) :
    (call c).run ledger.held = outcome ledger (ledger.call c) := by
  cases c with
  | insertBlock height block =>
    simp only [call, Ledger.call, EStateM.run_bind, run_insertBlock h]
    cases ledger.insertBlock (.ofBlock height block) <;> rfl
  | commitBlock height block spent created mined =>
    simp only [call, Ledger.call, EStateM.run_bind, run_commit h]
    cases ledger.commit ⟨.ofBlock height block, spent, created, mined⟩ <;> rfl
  | queue tx =>
    simp only [call, Ledger.call, EStateM.run_bind, run_queue]
    cases ledger.queue tx <;> rfl
  | drop id => rfl
  | insertUtxo o output =>
    simp only [call, Ledger.call, EStateM.run_bind, run_insertUtxo]
    cases ledger.insertUtxo o output <;> rfl
  | deleteUtxo o =>
    simp only [call, Ledger.call, EStateM.run_bind, run_deleteUtxo]
    cases ledger.deleteUtxo o <;> rfl

theorem called_held (h : Linked ledger.blocks) (c : Call) :
    ledger.held.called c = (ledger.called c).held := by
  unfold called Ledger.called
  rw [run_call h]
  cases ledger.call c <;> rfl

theorem foldl_called_held (h : Linked ledger.blocks) (calls : List Call) :
    calls.foldl called ledger.held = (calls.foldl Ledger.called ledger).held := by
  induction calls generalizing ledger with
  | nil => rfl
  | cons c calls ih =>
    rw [List.foldl_cons, List.foldl_cons, called_held h]
    exact ih (Ledger.linked_called h c)

/-- **Through all calls the fields are those of the ledger as a value.** -/
theorem afterCalls_eq (calls : List Call) : afterCalls calls = (Ledger.afterCalls calls).held := by
  have hempty : Linked Ledger.empty.blocks := .nil
  exact foldl_called_held hempty calls

theorem eq_of_run_eq_error (h : Linked ledger.blocks) {c : Call} {e : Error} {after : LedgerState}
    (he : (call c).run ledger.held = .error e after) :
    ledger.call c = .error e ∧ after = ledger.held := by
  rw [run_call h] at he
  cases hc : ledger.call c with
  | error found =>
    rw [hc] at he
    cases he
    exact ⟨rfl, rfl⟩
  | ok result =>
    rw [hc] at he
    cases he

/-- **The ledger keeps one chain.** Its blocks hang together from the first to the last, which the
pointer leads to, the fields in place are those of the ledger, and every further call gives the same
answer on both. One that fails has left all fields. -/
structure Chained (state : LedgerState) (ledger : Ledger) : Prop where
  held : state = ledger.held
  linear : Linear state.blocks.values
  keys : state.blocks.keys = state.blocks.values.map (·.id)
  highest : state.tip? = state.blocks.values.getLast? ∧ state.tip? = ledger.tip?
  highest_eq_none_iff : state.tip? = none ↔ state.blocks.values = []
  call : ∀ c, (call c).run state = outcome ledger (ledger.call c)
  failed : ∀ c e after, (LedgerState.call c).run state = .error e after →
    after = state ∧ ledger.call c = .error e

theorem chained_held (h : Linked ledger.blocks) : ledger.held.Chained ledger := by
  have hvalues := Ledger.values_held ledger
  have htip := Ledger.tip?_held h.nodup_ids
  refine ⟨rfl, ?_, ?_, ⟨?_, htip⟩, ?_, run_call h, ?_⟩
  · rw [hvalues]
    exact h.linear
  · rw [hvalues]
    exact Ledger.keys_held ledger
  · rw [hvalues]
    exact htip
  · rw [hvalues, htip]
    exact Ledger.tip?_eq_none_iff
  · intro c e after he
    obtain ⟨herror, hafter⟩ := eq_of_run_eq_error h he
    exact ⟨hafter, herror⟩

/-- **Whatever calls come, with whatever blocks**: the ledger keeps one chain. -/
theorem chained_afterCalls (calls : List Call) :
    (afterCalls calls).Chained (Ledger.afterCalls calls) := by
  rw [afterCalls_eq]
  exact chained_held (Ledger.linked_afterCalls calls)

end LedgerState

end UtxoLedger
