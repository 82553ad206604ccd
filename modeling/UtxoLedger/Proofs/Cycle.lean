import UtxoLedger.Proofs.Linkage
import UtxoLedger.Proofs.Merkle

/-!
A mining cycle comes to its end. What has been assembled can be sealed, and the block can be stored:
it is the child of the tip, what it consumes of the confirmed outputs is there, and what it leaves
unspent is new. All that may stand in its way is a block identifier that comes for the second time,
and that takes a collision among the headers, or a header that hashes to the zero identifier.
-/

namespace UtxoLedger

variable [CryptoSuite]

namespace Ledger

variable {ledger : Ledger} {pool : List Transaction} {p q : Pending} {tx : Transaction}
  {key : SecretKey} {stamp : Stamp} {tip : Option BlockRecord} {block : Block}

/-! ### What assembly reaches -/

/-- A block under assembly that assembly over `pool` may reach. -/
structure Reaches (ledger : Ledger) (pool : List Transaction) (p : Pending) : Prop where
  continues : ledger.Continues p
  checked : p.Checked
  /-- What is accepted has waited. -/
  accepted : p.accepted ⊆ pool
  /-- What is consumed has been confirmed, or is created in the block. -/
  found : ∀ o ∈ p.spent, o ∈ ledger.utxos.keys ∨ o ∈ p.created.keys

theorem reaches_new (h : Lawful ledger.transactions ledger.utxos) : ledger.Reaches pool .new where
  continues := continues_new h
  checked := Pending.checked_new
  accepted _ htx := by cases htx
  found _ ho := by cases ho

theorem Continues.mem_keys_of_mem_inpoints (h : ledger.Continues p)
    (hv : ledger.validate ledger.tip? p tx = .ok ()) {o : Outpoint} (ho : o ∈ tx.inpoints) :
    o ∈ (p.view ledger.utxos).keys := by
  rcases h.kind hv with ⟨-, hg⟩ | ⟨t, previous, hs⟩
  · rw [Transaction.inpoints_of_isGenesis hg] at ho
    cases ho
  · exact hs.mem_keys_of_mem_inpoints ho

theorem Reaches.extend (h : ledger.Reaches pool p) (he : ledger.extend? ledger.tip? p tx = some q)
    (htx : tx ∈ pool)
    (hknown : ∀ other ∈ ledger.transactions, other.txid = tx.txid → other = tx) :
    ledger.Reaches pool q := by
  obtain ⟨hv, id, ha⟩ := extend?_eq_some_iff.1 he
  refine ⟨h.continues.extend he hknown, h.checked.add (validate_eq_ok_iff.1 hv).1 ha, ?_, ?_⟩
  · rw [accepted_extend? he]
    exact List.append_subset.2 ⟨h.accepted, List.cons_subset.2 ⟨htx, List.nil_subset _⟩⟩
  · obtain ⟨-, hid, hnew, -, created, hout, rfl⟩ := Pending.add_eq_ok_iff.1 ha
    have hcreated := h.checked.consistent.created_accept hid hnew hout
    intro o ho
    rw [hcreated, Table.keys_extend, List.mem_append]
    have hbefore : o ∈ ledger.utxos.keys ∨ o ∈ p.created.keys := by
      rcases Pending.mem_consume.1 ho with ho | ho
      · exact h.found o ho
      · exact (Pending.mem_keys_view.1 (h.continues.mem_keys_of_mem_inpoints hv ho)).1
    exact hbefore.imp_right .inl

theorem reaches_assemble (h : Lawful ledger.transactions ledger.utxos)
    (hknown : ∀ tx ∈ pool, ∀ other ∈ ledger.transactions, other.txid = tx.txid → other = tx)
    {txs : List Transaction} (hsub : txs ⊆ pool) :
    ledger.Reaches pool (ledger.assemble ledger.tip? .new txs) :=
  assemble_keeps (fun _ _ tx htx hp he => hp.extend he htx (hknown tx htx)) txs hsub
    (reaches_new h)

/-! ### Sealing and storing -/

theorem exists_seal_eq_ok (hne : p.accepted ≠ []) (hids : ∀ tx ∈ p.accepted, ∃ id, tx.txid = .ok id)
    (key : SecretKey) (stamp : Stamp) (tip : Option BlockRecord) :
    ∃ block, p.seal key stamp tip = .ok block := by
  have hfits : ∀ tx ∈ p.accepted, tx.Fits := by
    intro tx htx
    obtain ⟨id, hid⟩ := hids tx htx
    exact (Transaction.txid_eq_ok_iff.1 hid).1
  obtain ⟨block, hmade, -⟩ := Block.exists_make_eq_ok hne hfits ((tip.map (·.id)).getD .zero)
    stamp.timestamp stamp.random
  exact ⟨block.sign key, by rw [Pending.seal, hmade]; rfl⟩

/-- **What assembly reaches can be stored**: if the block is linked, nothing else is in the way. -/
theorem Reaches.commit_eq_ok (h : ledger.Reaches pool p)
    (hlink : ledger.checkLinkage (p.commit tip block).record = .ok ()) :
    ledger.commit (p.commit tip block) = .ok (ledger.apply (p.commit tip block)) := by
  have hspent : (p.commit tip block).spent.find? (fun o => !ledger.utxos.contains o) = none := by
    refine List.find?_eq_none.2 fun o ho => ?_
    obtain ⟨hs, hc⟩ := by simpa [Pending.commit, Pending.confirmedSpent] using ho
    simpa using (h.found o hs).resolve_right hc
  have hcreated : (p.commit tip block).created.find? (fun e => ledger.utxos.contains e.1) = none := by
    refine List.find?_eq_none.2 fun e he => ?_
    have hkey : e.1 ∈ p.created.keys := List.mem_map_of_mem (List.mem_of_mem_filter he)
    simpa using h.continues.disjoint e.1 hkey
  rw [commit, hlink]
  simp only [hspent, hcreated]

theorem checkLinkage_of_seal (hseal : p.seal key stamp ledger.tip? = .ok block)
    (hnew : ∀ other ∈ ledger.blocks, other.id ≠ block.id) :
    ledger.checkLinkage (p.commit ledger.tip? block).record = .ok () := by
  have hprevious := (seal_eq_ok hseal).2.1
  refine checkLinkage_eq_ok_iff.2 ⟨hnew, ?_⟩
  change (ledger.tip? = none ∧ block.header.previous.isZero = true ∧
    (ledger.tip?.map (·.height + 1)).getD 0 = 0) ∨ ∃ tip, ledger.tip? = some tip ∧
      block.header.previous = tip.id ∧ (ledger.tip?.map (·.height + 1)).getD 0 = tip.height + 1
  rw [hprevious]
  cases ledger.tip? with
  | none => exact .inl ⟨rfl, by decide, rfl⟩
  | some tip => exact .inr ⟨tip, rfl, rfl, rfl⟩

/-! ### Block identifiers that come twice -/

/-- The block of a cycle cannot be told from the stored ones: two of the headers that are hashed
collide, or one hashes to the zero identifier. -/
def Clashes (ledger : Ledger) (key : SecretKey) (stamp : Stamp) : Prop :=
  ∃ block, ledger.assembled.seal key stamp ledger.tip? = .ok block ∧
    (Collide (block.header.idBytes :: ledger.blocks.map fun record => record.block.header.idBytes) ∨
      ∃ record ∈ ledger.blocks, record.id = .zero)

/-- A stored block with the identifier of a new one has its bytes and so its parent, the tip. But no
stored block is a child of the tip, unless the first one is: its parent is zero. -/
theorem clash_of_id_eq (hlinked : Linked ledger.blocks)
    (hseal : p.seal key stamp ledger.tip? = .ok block) {record : BlockRecord}
    (hr : record ∈ ledger.blocks) (hid : record.id = block.id) :
    Collide (block.header.idBytes :: ledger.blocks.map fun record => record.block.header.idBytes) ∨
      ∃ record ∈ ledger.blocks, record.id = .zero := by
  refine or_iff_not_imp_left.2 fun hc => ?_
  have hbytes : block.header.idBytes = record.block.header.idBytes := by
    refine eq_of_not_collide hc List.mem_cons_self
      (List.mem_cons_of_mem _ (List.mem_map_of_mem hr)) ?_
    exact congrArg BlockId.bytes (hid.symm.trans (hlinked.id_eq hr).symm)
  have hprevious : record.block.header.previous = (ledger.tip?.map (·.id)).getD .zero := by
    rw [BlockHeader.eq_of_idBytes_eq hbytes, ← (seal_eq_ok hseal).2.1]
  obtain ⟨pre, post, hblocks⟩ := List.append_of_mem hr
  obtain ⟨last, hlast⟩ : ∃ last, (record :: post).getLast? = some last :=
    Option.isSome_iff_exists.1 (by simp)
  have htip : ledger.tip? = some last := by
    rw [tip?, hblocks, List.getLast?_append, hlast, Option.some_or]
  rw [hblocks] at hlinked
  have hparent : (pre.getLast?.map (·.id)).getD .zero = last.id := by
    rw [← hlinked.split.2.previous, hprevious, htip]
    rfl
  cases hpre : pre.getLast? with
  | none =>
    rw [hpre] at hparent
    exact ⟨last, List.mem_of_getLast? htip, hparent.symm⟩
  | some parent =>
    rw [hpre] at hparent
    have hids := hlinked.nodup_ids
    rw [List.map_append, List.nodup_append] at hids
    exact absurd hparent (hids.2.2 _ (List.mem_map_of_mem (List.mem_of_getLast? hpre)) _
      (List.mem_map_of_mem (List.mem_of_getLast? hlast)))

/-- A block with a new identifier does not clash. -/
theorem not_clashes (hlinked : Linked ledger.blocks) (hz : ∀ record ∈ ledger.blocks, record.id ≠ .zero)
    (hnew : ∀ block, ledger.assembled.seal key stamp ledger.tip? = .ok block →
      ∀ record ∈ ledger.blocks, record.id ≠ block.id) : ¬ledger.Clashes key stamp := by
  rintro ⟨block, hseal, hc | ⟨record, hr, hzero⟩⟩
  · have hids : (block.id :: ledger.blocks.map (·.id)).Nodup := by
      refine List.nodup_cons.2 ⟨fun hid => ?_, hlinked.nodup_ids⟩
      obtain ⟨record, hr, hid⟩ := List.mem_map.1 hid
      exact hnew block hseal record hr hid
    have hhash : (ledger.blocks.map fun record => record.block.header.idBytes).map
        (fun bytes => BlockId.mk (hash256 bytes)) = ledger.blocks.map (·.id) := by
      rw [List.map_map]
      exact List.map_congr_left fun record hr => hlinked.id_eq hr
    refine not_collide_of_nodup (.of_map BlockId.mk ?_) hc
    rw [List.map_map, List.map_cons]
    exact hhash ▸ hids
  · exact hz record hr hzero

/-- Behind a single block it takes the digest of that block's header to clash. -/
theorem not_clashes_of_single {id : BlockId} {txs : List Transaction}
    (hlinked : Linked ledger.blocks) (hids : ledger.blocks.map (·.id) = [id]) (hz : id ≠ .zero)
    (haccepted : ledger.assembled.accepted = txs)
    (hnew : ∀ made, Block.make id txs stamp.timestamp stamp.random = .ok made → made.id ≠ id) :
    ¬ledger.Clashes key stamp := by
  obtain ⟨record, hblocks, rfl⟩ := by simpa using hids
  refine not_clashes hlinked (by simpa [hblocks] using hz) fun block hseal => ?_
  rw [Pending.seal, tip?, hblocks, haccepted] at hseal
  cases hmade : Block.make record.id txs stamp.timestamp stamp.random with
  | error e => simp [hmade, Except.map] at hseal
  | ok made =>
    obtain rfl : made.sign key = block := by simpa [hmade, Except.map] using hseal
    have hid : (made.sign key).id = made.id := rfl
    simpa [hblocks, hid, eq_comm] using hnew made hmade

/-- **A cycle comes to its end**: it makes no block because nothing can be accepted, or it stores a
block over all that has been assembled, unless the block cannot be told from the stored ones. -/
theorem generate_cases (h : ledger.Reaches pool ledger.assembled) (hlinked : Linked ledger.blocks)
    (key : SecretKey) (stamp : Stamp) :
    (ledger.assembled.accepted = [] ∧ ledger.generate key stamp = .ok (none, ledger)) ∨
      (∃ block, ledger.assembled.accepted ≠ [] ∧ block.transactions = ledger.assembled.accepted ∧
        ledger.generate key stamp =
          .ok (some block, ledger.apply (ledger.assembled.commit ledger.tip? block))) ∨
      ledger.Clashes key stamp := by
  by_cases hne : ledger.assembled.accepted = []
  · exact .inl ⟨hne, by simp [generate, Pending.isEmpty, hne]⟩
  · right
    have hids : ∀ tx ∈ ledger.assembled.accepted, ∃ id, tx.txid = .ok id :=
      fun tx htx => h.continues.lawful.txid_eq_ok (List.mem_append_right _ htx)
    obtain ⟨block, hseal⟩ := exists_seal_eq_ok hne hids key stamp ledger.tip?
    by_cases hnew : ∀ other ∈ ledger.blocks, other.id ≠ block.id
    · have hcommit := h.commit_eq_ok (checkLinkage_of_seal hseal hnew)
      have hdone := commitPending_eq_ok_iff.2 ⟨hseal, hcommit⟩
      refine .inl ⟨block, hne, (seal_eq_ok hseal).1, ?_⟩
      simp [generate, Pending.isEmpty, hne, hdone, Except.map]
    · obtain ⟨record, hr, hid⟩ : ∃ record ∈ ledger.blocks, record.id = block.id := by
        simpa using hnew
      exact .inr ⟨block, hseal, clash_of_id_eq hlinked hseal hr hid⟩

theorem seal_ne_ok_of_nil (h : p.accepted = []) : p.seal key stamp tip ≠ .ok block := by
  simp [Pending.seal, Block.make, Block.merkleRoot, Block.txids, h, bind, Except.bind, pure,
    Except.pure, Merkle.root, Except.map]

/-- **A cycle fails exactly if its block clashes**, where no stored block has the zero identifier. -/
theorem generate_eq_error_iff (h : ledger.Reaches pool ledger.assembled)
    (hlinked : Linked ledger.blocks) (hz : ∀ record ∈ ledger.blocks, record.id ≠ .zero) :
    (∃ e, ledger.generate key stamp = .error e) ↔ ledger.Clashes key stamp := by
  constructor
  · rintro ⟨e, hfail⟩
    rcases generate_cases h hlinked key stamp with ⟨-, hdone⟩ | ⟨block, -, -, hdone⟩ | hclash
    · rw [hfail] at hdone
      cases hdone
    · rw [hfail] at hdone
      cases hdone
    · exact hclash
  · intro hclash
    obtain ⟨made, hmade, -⟩ := id hclash
    have hne : ledger.assembled.accepted ≠ [] := fun hnil => seal_ne_ok_of_nil hnil hmade
    cases hc : ledger.commitPending key stamp ledger.tip? ledger.assembled with
    | error e => exact ⟨e, by simp [generate, Pending.isEmpty, hne, hc, Except.map]⟩
    | ok result =>
      refine absurd hclash (not_clashes hlinked hz fun block hseal => ?_)
      -- what is stored has been checked to be new
      obtain ⟨hsealed, hcommit⟩ := commitPending_eq_ok_iff.1 hc
      obtain rfl : result.1 = block := by simpa [hseal, eq_comm] using hsealed
      exact (checkLinkage_eq_ok_iff.1 (commit_eq_ok hcommit).1).1

end Ledger

end UtxoLedger
