import UtxoLedger.Proofs.Progress
import UtxoLedger.Proofs.Spendable

/-!
A ledger never gets stuck. As long as the identifiers of blocks tell them apart, no cycle fails,
whatever waits: it leaves the ledger, or it puts one block behind the others and takes the transactions
of this block, and only these, out of what waits. The first block can be minted exactly as long as
there is none.
-/

namespace UtxoLedger

section

variable [CryptoSuite]

/-- Identifiers tell headers apart, but for their signatures, and none is zero. -/
structure DistinctHeaders (headers : List BlockHeader) : Prop where
  apart : ∀ a ∈ headers, ∀ b ∈ headers, a.id = b.id → b = { a with signature := b.signature }
  nonzero : ∀ a ∈ headers, a.id ≠ .zero

theorem distinctHeaders_of_nodup {headers : List BlockHeader} (h : (headers.map (·.id)).Nodup)
    (hz : ∀ a ∈ headers, a.id ≠ .zero) : DistinctHeaders headers where
  apart a ha b hb hid := by rw [← List.inj_on_of_nodup_map h ha hb hid]
  nonzero := hz

/-- Headers that are told apart do not collide. -/
theorem DistinctHeaders.not_collide {headers : List BlockHeader} (h : DistinctHeaders headers) :
    ¬Collide (headers.map BlockHeader.idBytes) := by
  rintro ⟨_, hmem, _, hmem', hne, hhash⟩
  obtain ⟨a, ha, rfl⟩ := List.mem_map.1 hmem
  obtain ⟨b, hb, rfl⟩ := List.mem_map.1 hmem'
  refine hne ?_
  rw [h.apart a ha b hb (congrArg BlockId.mk hhash)]
  rfl

namespace Ledger

variable {ledger after : Ledger} {key : SecretKey} {stamp : Stamp} {block : Block}
  {coins : UInt32} {owner : PublicKey}

/-! ### The first block -/

theorem fits_mintingTx (coins : UInt32) (owner : PublicKey) : (mintingTx coins owner).Fits where
  version := rfl
  flags := rfl
  body := by
    refine ⟨Nat.succ_le_of_lt (by decide), fun output ho => ?_⟩
    rw [List.mem_singleton.1 ho]
    change (Script.payTo owner.keyHash).bytes.length ≤ 520
    rw [Script.length_payTo]
    decide

/-- The minting transaction passes the checks of a new block without a tip. -/
theorem extend?_mintingTx (ledger : Ledger) (coins : UInt32) (owner : PublicKey) :
    ∃ p, ledger.extend? none .new (mintingTx coins owner) = some p := by
  have hv : ledger.validate none .new (mintingTx coins owner) = .ok () :=
    validate_eq_ok_iff.2 ⟨checkRules_mintingTx coins owner, .inl ⟨_, rfl, rfl, rfl⟩⟩
  obtain ⟨p, hp⟩ :=
    add_new_of_validate hv (Transaction.txid_eq_ok_iff.2 ⟨fits_mintingTx coins owner, rfl⟩)
  exact ⟨p, extend?_eq_some_iff.2 ⟨hv, _, hp⟩⟩

/-- **The first block can be minted.** -/
theorem exists_mintGenesis_eq_ok (h : Lawful ledger.transactions ledger.utxos)
    (hb : ledger.blocks = []) (key : SecretKey) (stamp : Stamp) (coins : UInt32)
    (owner : PublicKey) : ∃ block after, ledger.mintGenesis key stamp coins owner = .ok (block, after) := by
  have htip : ledger.tip? = none := tip?_eq_none_iff.2 hb
  obtain ⟨p, he⟩ := extend?_mintingTx ledger coins owner
  obtain ⟨-, id, ha⟩ := extend?_eq_some_iff.1 he
  have haccepted : p.accepted = [mintingTx coins owner] := accepted_extend? he
  have hreaches : ledger.Reaches [mintingTx coins owner] p := by
    refine (reaches_new h).extend (htip ▸ he) (List.mem_singleton_self _) fun other ho => ?_
    rw [transactions_eq_nil hb] at ho
    cases ho
  have hids : ∀ tx ∈ p.accepted, ∃ id, tx.txid = .ok id :=
    fun tx htx => hreaches.continues.lawful.txid_eq_ok (List.mem_append_right _ htx)
  obtain ⟨block, hseal⟩ := exists_seal_eq_ok (by simp [haccepted]) hids key stamp ledger.tip?
  have hcommit := hreaches.commit_eq_ok (checkLinkage_of_seal hseal (by simp [hb]))
  have hdone := commitPending_eq_ok_iff.2 ⟨hseal, hcommit⟩
  have hmint : ledger.mintGenesis key stamp coins owner =
      ledger.commitPending key stamp ledger.tip? p := by
    unfold mintGenesis
    rw [htip]
    simp only [ha]
  exact ⟨block, _, hmint.trans hdone⟩

/-- It can be minted only where there is none. -/
theorem blocks_eq_nil_of_mintGenesis
    (h : ledger.mintGenesis key stamp coins owner = .ok (block, after)) : ledger.blocks = [] := by
  refine tip?_eq_none_iff.1 ?_
  unfold mintGenesis at h
  split at h
  · cases h
  · assumption

/-! ### Cycles -/

/-- What a cycle that makes a block does. -/
structure Mines (ledger : Ledger) (block : Block) (after : Ledger) : Prop where
  /-- The block comes behind the others, one height above the tip. -/
  blocks : after.blocks =
    ledger.blocks ++ [.ofBlock ((ledger.tip?.map (·.height + 1)).getD 0) block]
  /-- Its transactions have waited, and none comes twice. -/
  subset : block.transactions ⊆ ledger.pending
  nodup : block.transactions.Nodup
  /-- All others wait as before. -/
  mempool : after.mempool.entries = ledger.mempool.entries.filter (·.2 ∉ block.transactions)

theorem not_clashes_of_distinctHeaders (hlinked : Linked ledger.blocks)
    (h : ∀ block, ledger.assembled.seal key stamp ledger.tip? = .ok block →
      DistinctHeaders (block.header :: ledger.blocks.map (·.block.header))) :
    ¬ledger.Clashes key stamp := by
  rintro ⟨block, hseal, hcollide | ⟨record, hr, hzero⟩⟩
  · have hc := (h block hseal).not_collide
    rw [List.map_cons, List.map_map] at hc
    exact hc hcollide
  · refine (h block hseal).nonzero record.block.header
      (List.mem_cons_of_mem _ (List.mem_map_of_mem hr)) ?_
    exact (hlinked.id_eq hr).trans hzero

/-- **A cycle does not fail** where its block does not clash. -/
theorem Ready.exists_generate_eq_ok (h : ledger.Ready) (hclash : ¬ledger.Clashes key stamp) :
    ∃ made after, ledger.generate key stamp = .ok (made, after) ∧ (made = none → after = ledger) ∧
      ∀ block, made = some block → ledger.Mines block after := by
  rcases Ledger.generate_cases h.reaches h.linked key stamp with
    ⟨-, hdone⟩ | ⟨block, hne, hblock, hdone⟩ | hc
  · exact ⟨none, ledger, hdone, fun _ => rfl, fun _ hmade => by cases hmade⟩
  · refine ⟨some block, _, hdone, fun hmade => (by cases hmade), ?_⟩
    rintro _ ⟨⟩
    refine ⟨rfl, ?_, ?_, ?_⟩
    · exact hblock ▸ h.reaches.accepted
    · exact hblock ▸ h.reaches.continues.nodup_accepted
    · rw [hblock]
      exact entries_apply h.keyed h.distinct (List.Subset.refl _) h.reaches.continues.consistent
        h.reaches.accepted ledger.tip? block
  · exact absurd hc hclash

/-- **A ledger never gets stuck and never loses what waits.** Behind every run, the first block can be
minted exactly if there is none. A cycle does not fail, provided that its header is told apart from the
stored ones: it leaves the ledger if it makes no block, and otherwise puts its block behind the others
and takes the transactions of the block out of what waits. Whatever waits does so under its own
identifier. -/
theorem advances_run {events : List Event} (hd : DistinctIds (broughtBy events)) :
    (∀ key stamp coins owner, (∃ block after,
      (run events).mintGenesis key stamp coins owner = .ok (block, after)) ↔ (run events).blocks = []) ∧
    (∀ key stamp, (∀ block, (run events).assembled.seal key stamp (run events).tip? = .ok block →
        DistinctHeaders (block.header :: (run events).blocks.map (·.block.header))) →
      ∃ made after, (run events).generate key stamp = .ok (made, after) ∧
        (made = none → after = run events) ∧
          ∀ block, made = some block → (run events).Mines block after) ∧
    ∀ e ∈ (run events).mempool.entries, e.2.txid = .ok e.1 := by
  have hready := ready_run hd
  refine ⟨?_, ?_, hready.keyed⟩
  · intro key stamp coins owner
    constructor
    · rintro ⟨block, after, hdone⟩
      exact blocks_eq_nil_of_mintGenesis hdone
    · intro hb
      exact exists_mintGenesis_eq_ok (sound_run hd).lawful hb key stamp coins owner
  · intro key stamp hheaders
    exact hready.exists_generate_eq_ok (not_clashes_of_distinctHeaders hready.linked hheaders)

/-- What a cycle has put behind the others is the block that was sealed. -/
theorem exists_generate_of_next {id : BlockId}
    (h : (ledger.next (.generate key stamp)).blocks.map (·.id) = ledger.blocks.map (·.id) ++ [id]) :
    ∃ block after, ledger.generate key stamp = .ok (some block, after) ∧
      ledger.assembled.seal key stamp ledger.tip? = .ok block ∧ block.id = id := by
  rw [next] at h
  cases hg : ledger.generate key stamp with
  | error e => simp [hg, settled] at h
  | ok result =>
    rw [hg, settled] at h
    simp only [generate] at hg
    split at hg
    · cases hg
      simp at h
    · obtain ⟨⟨block, after⟩, hc, rfl⟩ := map_eq_ok_iff.1 hg
      obtain ⟨hseal, hcommit⟩ := commitPending_eq_ok_iff.1 hc
      obtain ⟨-, rfl⟩ := commit_eq_ok hcommit
      change (ledger.blocks ++ [BlockRecord.ofBlock _ block]).map (·.id) = _ at h
      rw [List.map_append] at h
      exact ⟨block, _, rfl, hseal, List.singleton_inj.1 (List.append_cancel_left h)⟩

end Ledger

end

namespace Payment

/-- What `start` makes is the block with the identifier `spentId`. -/
theorem generate_start : ∃ block after, start.generate key ⟨1, 0⟩ = .ok (some block, after) ∧
    start.assembled.seal key ⟨1, 0⟩ start.tip? = .ok block ∧ block.id = spentId := by
  refine Ledger.exists_generate_of_next ?_
  rw [stored.1.2, start, ← Ledger.run_concat]
  exact stored.2.2

end Payment

open Payment in
/-- The ledger that waits for a block with `spend` makes it. -/
theorem Ledger.advances_payment : start.blocks.map (·.id) = [mintedId] ∧
    ∃ block after, start.generate key ⟨1, 0⟩ = .ok (some block, after) ∧ block.id = spentId ∧
      start.Mines block after := by
  have hd : DistinctIds (broughtBy opening) := distinctIds.subset (by simp [events, broughtBy])
  have hready := ready_run hd
  obtain ⟨block, after, hdone, hseal, hid⟩ := generate_start
  have hheaders : ∀ block, start.assembled.seal key ⟨1, 0⟩ start.tip? = .ok block →
      DistinctHeaders (block.header :: start.blocks.map (·.block.header)) := by
    intro made hmade
    obtain rfl : made = block := by simpa [hseal, eq_comm] using hmade
    have hids : (made.header :: start.blocks.map (·.block.header)).map (·.id) =
        [spentId, mintedId] := by
      have hstored : start.blocks.map (·.block.header.id) = start.blocks.map (·.id) :=
        List.map_congr_left fun record hr => hready.linked.id_eq hr
      rw [List.map_cons, List.map_map]
      change made.id :: start.blocks.map (·.block.header.id) = _
      rw [hid, hstored, stored.1.2]
    refine distinctHeaders_of_nodup (hids ▸ by decide) fun a ha => ?_
    have hid : a.id ∈ [spentId, mintedId] := hids ▸ List.mem_map_of_mem ha
    rcases List.mem_pair.1 hid with hid | hid <;> rw [hid] <;> decide
  obtain ⟨-, hcycle, -⟩ := advances_run hd
  obtain ⟨made, after', hdone', -, hmines⟩ := hcycle key ⟨1, 0⟩ hheaders
  obtain ⟨rfl, rfl⟩ : some block = made ∧ after = after' := by
    have hsame := hdone.symm.trans hdone'
    simpa using hsame
  exact ⟨stored.1.2, block, after, hdone, hid, hmines block rfl⟩

end UtxoLedger
