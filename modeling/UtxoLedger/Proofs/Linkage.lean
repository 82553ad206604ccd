import UtxoLedger.Proofs.Authorization
import UtxoLedger.Proofs.Run

/-!
How the blocks of a ledger hang together. Each is new, names the one before it and counts one more
height, and each is sealed over transactions that keep the rules and fit into a block, whichever way
they have come in.
-/

namespace UtxoLedger

variable [CryptoSuite]

/-! ### Linked blocks -/

/-- The record may come behind these: it is that of its block at the next height, its parent is the
last of them, and it is new. -/
structure BlockRecord.Follows (record : BlockRecord) (records : List BlockRecord) : Prop where
  eq : record = .ofBlock records.length record.block
  previous : record.block.header.previous = (records.getLast?.map (·.id)).getD .zero
  fresh : ∀ other ∈ records, other.id ≠ record.id

/-- Blocks, each of which follows those before it. -/
inductive Linked : List BlockRecord → Prop
  | nil : Linked []
  | snoc {records : List BlockRecord} {record : BlockRecord} :
      Linked records → record.Follows records → Linked (records ++ [record])

namespace Linked

variable {records pre post : List BlockRecord} {record : BlockRecord}

theorem split (h : Linked (pre ++ record :: post)) : Linked pre ∧ record.Follows pre := by
  generalize hs : pre ++ record :: post = all at h
  induction h generalizing post with
  | nil => simp at hs
  | snoc before step ih =>
    rcases append_cons_eq_concat hs with ⟨rfl, rfl, -⟩ | ⟨post, -, hs⟩
    · exact ⟨before, step⟩
    · exact ih hs

theorem id_eq (h : Linked records) (hr : record ∈ records) : record.block.id = record.id := by
  obtain ⟨pre, post, rfl⟩ := List.append_of_mem hr
  rw [h.split.2.eq]
  rfl

theorem nodup_ids (h : Linked records) : (records.map (·.id)).Nodup := by
  induction h with
  | nil => simp
  | snoc before step ih =>
    rw [List.map_append, List.nodup_append]
    refine ⟨ih, by simp, ?_⟩
    rintro id hid _ hm rfl
    obtain ⟨other, hother, rfl⟩ := List.mem_map.1 hid
    exact step.fresh other hother (by simpa using hm)

theorem height_next (h : Linked records) :
    (records.getLast?.map (·.height + 1)).getD 0 = records.length := by
  cases h with
  | nil => rfl
  | snoc before step =>
    rw [List.getLast?_concat, step.eq, List.length_append, List.length_singleton]
    rfl

end Linked

/-! ### Sealed blocks -/

/-- A block as it is made with a key. -/
structure Block.Sealed (block : Block) (key : SecretKey) : Prop where
  merkleRoot : block.checkMerkleRoot = .ok ()
  signature : block.header.signature =
    ⟨CryptoSuite.compactBytes (CryptoSuite.sign key block.id.bytes)⟩
  size_le : block.transactionsSize ≤ Block.sizeLimit
  rules : ∀ tx ∈ block.transactions, tx.checkRules = .ok ()

/-- What a block under assembly may hold when it is sealed. -/
structure Pending.Checked (p : Pending) : Prop where
  consistent : p.Consistent
  limit : p.limit = Block.sizeLimit
  rules : ∀ tx ∈ p.accepted, tx.checkRules = .ok ()

namespace Pending

variable {p q : Pending} {tx : Transaction} {id : TxId} {key : SecretKey} {stamp : Stamp}
  {tip : Option BlockRecord} {block : Block}

theorem checked_new : new.Checked where
  consistent := consistent_withLimit _
  limit := rfl
  rules _ h := by cases h

theorem Checked.add (h : p.Checked) (hr : tx.checkRules = .ok ()) (ha : p.add tx = .ok (id, q)) :
    q.Checked := by
  refine ⟨h.consistent.add ha, ?_, ?_⟩ <;>
    obtain ⟨-, -, -, -, created, -, rfl⟩ := add_eq_ok_iff.1 ha
  · exact h.limit
  · intro other ho
    rcases List.mem_append.1 ho with ho | ho
    · exact h.rules other ho
    · rwa [List.mem_singleton.1 ho]

theorem Checked.sealed (h : p.Checked) (hs : p.seal key stamp tip = .ok block) :
    block.Sealed key := by
  obtain ⟨htxs, -, hroot, hsignature⟩ := Ledger.seal_eq_ok hs
  refine ⟨?_, hsignature, ?_, ?_⟩
  · simp [Block.checkMerkleRoot, hroot, bind, Except.bind]
  · rw [Block.transactionsSize, htxs, ← h.consistent.size, ← h.limit]
    exact h.consistent.size_le
  · rw [htxs]
    exact h.rules

end Pending

/-! ### The blocks of a run -/

/-- The key that an event signs with. -/
def Event.key? : Event → Option SecretKey
  | queue _ => none
  | drop _ => none
  | mint key _ _ _ => some key
  | generate key _ => some key

theorem Ledger.checkRules_mintingTx (coins : UInt32) (owner : PublicKey) :
    (mintingTx coins owner).checkRules = .ok () := by
  refine Transaction.checkRules_eq_ok_iff.2 ⟨rfl, ?_⟩
  have hs : (Script.parse (Script.payTo owner.keyHash).bytes).bind Script.checkStandard = .ok () := by
    rw [Script.parse_payTo]
    exact Script.checkStandard_eq_ok_iff.2 ⟨_, rfl⟩
  have ho : Transaction.checkOutputs 0 (mintingTx coins owner).outputs = .ok () := by
    change Transaction.checkOutputs 0 [⟨coins, (Script.payTo owner.keyHash).bytes⟩] = _
    simp only [Transaction.checkOutputs, hs]
  rw [Transaction.checkStandard, ho]
  rfl

namespace Ledger

variable {ledger after : Ledger} {p : Pending} {key : SecretKey} {stamp : Stamp} {block : Block}

theorem checked_assembled : ledger.assembled.Checked := by
  refine assemble_keeps (fun p q tx _ hp he => ?_) _ (List.Subset.refl _) Pending.checked_new
  obtain ⟨hv, id, ha⟩ := extend?_eq_some_iff.1 he
  exact hp.add (validate_eq_ok_iff.1 hv).1 ha

theorem queue_eq_ok_iff {id : TxId} {tx : Transaction} : ledger.queue tx = .ok (id, after) ↔
    tx.txid = .ok id ∧ id ∉ ledger.mempool.keys ∧
      after = { ledger with mempool := ledger.mempool.extend [(id, tx)] } := by
  unfold Ledger.queue
  cases tx.txid with
  | error e => simp
  | ok found =>
    by_cases hk : found ∈ ledger.mempool.keys
    · have hc : ledger.mempool.contains found = true := Table.contains_iff.2 hk
      simp only [hc, if_true, reduceCtorEq, Except.ok.injEq, false_iff, not_and]
      rintro rfl hn
      exact absurd hk hn
    · have hc : ledger.mempool.contains found = false := Table.contains_eq_false_iff.2 hk
      simp only [hc, Bool.false_eq_true, if_false, Table.insert_eq_extend hk, Except.ok.injEq,
        Prod.mk.injEq]
      constructor
      · rintro ⟨rfl, rfl⟩
        exact ⟨rfl, hk, rfl⟩
      · rintro ⟨rfl, -, rfl⟩
        exact ⟨rfl, rfl⟩

/-- What is queued waits behind all that waits. -/
theorem pending_of_queue {id : TxId} {tx : Transaction} (h : ledger.queue tx = .ok (id, after)) :
    after.pending = ledger.pending ++ [tx] := by
  obtain ⟨-, -, rfl⟩ := queue_eq_ok_iff.1 h
  exact Table.values_extend _ _

theorem mintGenesis_eq_ok {coins : UInt32} {owner : PublicKey}
    (h : ledger.mintGenesis key stamp coins owner = .ok (block, after)) :
    ∃ id p, Pending.new.add (mintingTx coins owner) = .ok (id, p) ∧
      ledger.commitPending key stamp ledger.tip? p = .ok (block, after) := by
  unfold mintGenesis at h
  split at h
  · cases h
  · next htip =>
    split at h
    · cases h
    · next id p ha => exact ⟨id, p, ha, htip ▸ h⟩

theorem generate_eq_ok {made : Option Block} (h : ledger.generate key stamp = .ok (made, after)) :
    after = ledger ∨
      ∃ block, ledger.commitPending key stamp ledger.tip? ledger.assembled = .ok (block, after) := by
  simp only [Ledger.generate] at h
  split at h
  · simp_all
  · cases hc : ledger.commitPending key stamp ledger.tip? ledger.assembled with
    | error e => simp [hc, Except.map] at h
    | ok result =>
      simp only [hc, Except.map, Except.ok.injEq, Prod.mk.injEq] at h
      exact .inr ⟨result.1, by rw [← h.2]⟩

/-- **What an event does**: nothing, or it queues a transaction under its identifier, drops one, or
stores a block over checked transactions. -/
theorem next_cases (ledger : Ledger) (e : Event) : ledger.next e = ledger ∨
    (∃ tx id, tx.txid = .ok id ∧
      ledger.next e = { ledger with mempool := ledger.mempool.extend [(id, tx)] }) ∨
    (∃ id, ledger.next e = ledger.drop id) ∨
    ∃ key ∈ e.key?, ∃ stamp p block, p.Checked ∧
      ledger.commitPending key stamp ledger.tip? p = .ok (block, ledger.next e) := by
  cases e with
  | queue tx =>
    rw [next]
    cases hq : ledger.queue tx with
    | error e => exact .inl rfl
    | ok result =>
      obtain ⟨hid, -, hafter⟩ := queue_eq_ok_iff.1 hq
      exact .inr (.inl ⟨tx, result.1, hid, hafter⟩)
  | drop id => exact .inr (.inr (.inl ⟨id, rfl⟩))
  | mint key stamp coins owner =>
    rw [next]
    cases hm : ledger.mintGenesis key stamp coins owner with
    | error e => exact .inl rfl
    | ok result =>
      obtain ⟨id, p, ha, hc⟩ := mintGenesis_eq_ok hm
      have hp := Pending.checked_new.add (checkRules_mintingTx coins owner) ha
      exact .inr (.inr (.inr ⟨key, rfl, stamp, p, result.1, hp, hc⟩))
  | generate key stamp =>
    rw [next]
    cases hg : ledger.generate key stamp with
    | error e => exact .inl rfl
    | ok result =>
      rcases generate_eq_ok hg with hafter | ⟨block, hc⟩
      · exact .inl hafter
      · exact .inr (.inr (.inr ⟨key, rfl, stamp, ledger.assembled, block, checked_assembled, hc⟩))

/-- **The blocks hang together**, and each is sealed with one of the keys. -/
structure Coherent (keys : List SecretKey) (ledger : Ledger) : Prop where
  linked : Linked ledger.blocks
  isSealed : ∀ record ∈ ledger.blocks, ∃ key ∈ keys, record.block.Sealed key

namespace Coherent

variable {keys : List SecretKey}

theorem commitPending (h : ledger.Coherent keys) (hk : key ∈ keys) (hp : p.Checked)
    (hc : ledger.commitPending key stamp ledger.tip? p = .ok (block, after)) :
    after.Coherent keys := by
  obtain ⟨hseal, hcommit⟩ := commitPending_eq_ok_iff.1 hc
  obtain ⟨hlinkage, rfl⟩ := commit_eq_ok hcommit
  have hblocks : (ledger.apply (p.commit ledger.tip? block)).blocks =
      ledger.blocks ++ [(p.commit ledger.tip? block).record] := rfl
  refine ⟨?_, fun record hr => ?_⟩ <;> rw [hblocks] at *
  · refine h.linked.snoc ⟨?_, (seal_eq_ok hseal).2.1, (checkLinkage_eq_ok_iff.1 hlinkage).1⟩
    exact congrArg (BlockRecord.ofBlock · block) h.linked.height_next
  · rcases List.mem_append.1 hr with hr | hr
    · exact h.isSealed record hr
    · rw [List.mem_singleton.1 hr]
      exact ⟨key, hk, hp.sealed hseal⟩

theorem next (h : ledger.Coherent keys) (e : Event) (hk : ∀ key ∈ e.key?, key ∈ keys) :
    (ledger.next e).Coherent keys := by
  rcases ledger.next_cases e with hn | ⟨tx, id, -, hn⟩ | ⟨id, hn⟩ | ⟨key, hkey, stamp, p, block, hp, hc⟩
  · rwa [hn]
  · rw [hn]
    exact ⟨h.linked, h.isSealed⟩
  · rw [hn]
    exact ⟨h.linked, h.isSealed⟩
  · exact h.commitPending (hk key hkey) hp hc

end Coherent

/-- **The blocks of every run hang together.** -/
theorem coherent_run (events : List Event) :
    (run events).Coherent (events.filterMap Event.key?) := by
  have hempty : Ledger.empty.Coherent (events.filterMap Event.key?) := ⟨.nil, by simp [empty]⟩
  refine List.foldlRecOn events Ledger.next hempty fun ledger h e he => ?_
  exact h.next e fun key hkey => List.mem_filterMap.2 ⟨e, he, hkey⟩

end Ledger

end UtxoLedger
