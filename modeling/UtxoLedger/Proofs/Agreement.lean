import UtxoLedger.Proofs.Growth
import UtxoLedger.Proofs.Linkage
import UtxoLedger.Proofs.Visible

/-!
A ledger and a tree of blocks agree. The ledger checks against its table of confirmed outputs, the
tree by walking back over stored blocks; both say what the chain of stored transactions leaves. So a
tree takes the blocks of every run, each of their transactions passes there at its own place, and at
the tip both accept the same transactions.
-/

namespace UtxoLedger

section

variable [CryptoSuite]

/-! ### The blocks of a ledger in a tree -/

/-- What a tree stores for a block. -/
def BlockRecord.entry (record : BlockRecord) : BlockId × StoredBlock :=
  (record.id, ⟨record.block, record.height⟩)

/-- These blocks are in the tree, with whatever else. -/
def ChainStore.Has (store : ChainStore) (records : List BlockRecord) : Prop :=
  ∀ record ∈ records, ∃ height, store.block? record.id = some ⟨record.block, height⟩

namespace Linked

variable {store : ChainStore} {records pre post : List BlockRecord} {record : BlockRecord} {i : Nat}

/-- Linked blocks are a branch. -/
theorem exists_branch (h : Linked records) (hz : ∀ record ∈ records, record.id.isZero = false)
    (hs : store.Has records) :
    ∃ branch, store.Branch ((records.getLast?.map (·.id)).getD .zero) branch ∧
      ChainStore.transactionsOf branch = records.flatMap (·.block.transactions) := by
  induction h with
  | nil => exact ⟨[], .nil (by decide), rfl⟩
  | @snoc records record before step ih =>
    obtain ⟨branch, hbranch, htxs⟩ := ih (fun r hr => hz r (List.mem_append_left _ hr))
      fun r hr => hs r (List.mem_append_left _ hr)
    have hlast : record ∈ records ++ [record] := by simp
    obtain ⟨height, hb⟩ := hs record hlast
    rw [← step.previous] at hbranch
    refine ⟨branch ++ [(record.id, ⟨record.block, height⟩)], ?_, ?_⟩
    · rw [List.getLast?_concat]
      exact .snoc (hz record hlast) hb hbranch
    · rw [ChainStore.transactionsOf, List.flatMap_append, ← ChainStore.transactionsOf, htxs]
      simp

/-- From a place in a linked block the transactions before it can be seen. -/
theorem exists_sees (h : Linked (pre ++ record :: post))
    (hz : ∀ r ∈ pre ++ record :: post, r.id.isZero = false) (hs : store.Has (pre ++ record :: post))
    (hi : i ≤ record.block.transactions.length) :
    ∃ history, store.Sees ⟨record.id, i⟩ history ∧ history.map Prod.snd =
      pre.flatMap (·.block.transactions) ++ record.block.transactions.take i := by
  obtain ⟨before, step⟩ := h.split
  obtain ⟨branch, hbranch, htxs⟩ := before.exists_branch
    (fun r hr => hz r (List.mem_append_left _ hr)) fun r hr => hs r (List.mem_append_left _ hr)
  have hmem : record ∈ pre ++ record :: post := by simp
  obtain ⟨height, hb⟩ := hs record hmem
  rw [← step.previous] at hbranch
  exact ⟨_, .inside (hz record hmem) hb hi hbranch, by rw [ChainStore.map_snd_inside, htxs]⟩

theorem block?_eq_some (h : Linked records) (he : store.blocks.entries = records.map (·.entry))
    (hr : record ∈ records) : store.block? record.id = some ⟨record.block, record.height⟩ := by
  refine (Table.get?_eq_some_iff ?_).2 (he ▸ List.mem_map_of_mem hr)
  rw [Table.keys, he, List.map_map]
  exact h.nodup_ids

/-- A tree that holds exactly these blocks takes the next one. -/
theorem exists_add (h : Linked records) (step : record.Follows records)
    (hz : ∀ record ∈ records, record.id.isZero = false)
    (hempty : records = [] → store.height = 0) (he : store.blocks.entries = records.map (·.entry))
    (htxid : ∀ tx ∈ record.block.transactions, ∃ id, tx.txid = .ok id) :
    ∃ after, store.add record.block = .ok (record.height, after) ∧
      after.blocks.entries = (records ++ [record]).map (·.entry) := by
  have hid : record.block.id = record.id := (h.snoc step).id_eq (by simp)
  have hheight : record.height = records.length := by
    rw [step.eq]
    rfl
  have hof : store.heightOf record.block = .ok record.height := by
    rw [ChainStore.heightOf_eq_ok_iff, step.previous, hheight]
    have hnext := h.height_next
    rcases hl : records.getLast? with _ | tip
    · obtain rfl := List.getLast?_eq_none_iff.1 hl
      exact .inl ⟨by decide, hempty rfl, rfl⟩
    · -- the parent is stored, one height below
      have htip : tip ∈ records := List.mem_of_getLast? hl
      rw [hl] at hnext
      exact .inr ⟨hz tip htip, ⟨tip.block, tip.height⟩, h.block?_eq_some he htip, hnext.symm⟩
  have hnew : record.block.id ∉ store.blocks.keys := by
    rw [Table.keys, he, hid, List.map_map]
    intro hk
    obtain ⟨other, hother, hsame⟩ := List.mem_map.1 hk
    exact step.fresh other hother hsame
  obtain ⟨named, hnamed⟩ : ∃ named,
      record.block.transactions.mapM ChainStore.identified = .ok named := by
    refine exists_mapM_eq_ok fun tx htx => ?_
    obtain ⟨id, hid⟩ := htxid tx htx
    exact ⟨(id, tx), by rw [ChainStore.identified, hid]; rfl⟩
  refine ⟨_, ChainStore.add_eq_ok_iff.2 ⟨hof, hnew, named, hnamed, rfl⟩, ?_⟩
  simp [Table.extend, he, BlockRecord.entry, hid]

/-- **A tree takes linked blocks one after the other, at the same heights.** -/
theorem exists_addAll (h : Linked records) (hz : ∀ record ∈ records, record.id.isZero = false)
    (htxid : ∀ tx ∈ records.flatMap (·.block.transactions), ∃ id, tx.txid = .ok id) :
    ∃ store, ChainStore.empty.addAll (records.map (·.block)) = .ok (records.map (·.height), store) ∧
      store.blocks.entries = records.map (·.entry) := by
  induction h with
  | nil => exact ⟨.empty, rfl, rfl⟩
  | @snoc records record before step ih =>
    rw [List.flatMap_append, List.forall_mem_append] at htxid
    rw [List.forall_mem_append] at hz
    obtain ⟨store, hall, hentries⟩ := ih hz.1 htxid.1
    have hempty : records = [] → store.height = 0 := by
      rintro rfl
      obtain rfl : ChainStore.empty = store := by simpa [ChainStore.addAll] using hall
      rfl
    obtain ⟨after, hadd, hafter⟩ :=
      before.exists_add step hz.1 hempty hentries (by simpa using htxid.2)
    refine ⟨after, ?_, hafter⟩
    rw [List.map_append, List.map_append]
    exact ChainStore.addAll_concat hall hadd

end Linked

/-! ### Blocks of a run are accepted -/

namespace Ledger

variable {ledger : Ledger} {brought : List Transaction} {keys : List SecretKey} {store : ChainStore}
  {record : BlockRecord} {tx : Transaction} {i : Nat}

/-- The genesis transaction of a ledger stands in the place of one. -/
theorem Sound.checkGenesisPosition (h : ledger.Sound brought) {rest : List BlockRecord}
    (hlinked : Linked ledger.blocks) (hb : ledger.blocks = record :: rest)
    (hstore : store.block? record.id = some ⟨record.block, record.height⟩) :
    store.checkGenesisPosition ⟨record.id, 0⟩ = .ok () := by
  have hlinked' : Linked ([] ++ record :: rest) := hb ▸ hlinked
  obtain ⟨-, step⟩ := hlinked'.split
  have hfirst : record.block.isGenesis = true := by
    rw [Block.isGenesis, step.previous]
    decide
  have hheight : record.height = 0 := by
    rw [step.eq]
    rfl
  have halone : record.block.transactions.length = 1 := h.alone record (by simp [hb])
  exact ChainStore.checkGenesisPosition_eq_ok_iff.2 ⟨_, hstore, hfirst, hheight, rfl, halone⟩

/-- **Each stored transaction passes in the tree at its own place.** -/
theorem Sound.checkTransaction (h : ledger.Sound brought) (hc : ledger.Coherent keys)
    (hz : ∀ record ∈ ledger.blocks, record.id.isZero = false)
    (hs : ∀ record ∈ ledger.blocks, store.block? record.id = some ⟨record.block, record.height⟩)
    (hr : record ∈ ledger.blocks) (hi : record.block.transactions[i]? = some tx) :
    store.checkTransaction ⟨record.id, i⟩ tx = .ok () := by
  obtain ⟨key, -, hsealed⟩ := hc.isSealed record hr
  have hrules := hsealed.rules tx (List.mem_of_getElem? hi)
  obtain ⟨hlt, hget⟩ := List.getElem?_eq_some_iff.1 hi
  obtain ⟨pre, post, hb⟩ := List.append_of_mem hr
  have hlinked := hc.linked
  have hl := h.lawful
  have hhas : store.Has ledger.blocks := fun r hr => ⟨r.height, hs r hr⟩
  rw [hb] at hlinked hhas
  obtain ⟨history, hsees, htxs⟩ := hlinked.exists_sees (hb ▸ hz) hhas (Nat.le_of_lt hlt)
  have hsplit : ledger.transactions = (pre.flatMap (·.block.transactions) ++
      record.block.transactions.take i) ++ tx :: (record.block.transactions.drop (i + 1) ++
        post.flatMap (·.block.transactions)) := by
    rw [transactions, hb, List.flatMap_append, List.flatMap_cons, ← hget, List.append_assoc,
      ← List.cons_append, ← List.drop_eq_getElem_cons hlt, ← List.append_assoc (List.take _ _),
      List.take_append_drop]
  rw [hsplit, ← htxs] at hl
  obtain ⟨before, after, hbefore, step⟩ := hl.split
  rw [ChainStore.checkTransaction_eq_ok_iff hsees hbefore]
  rcases step.kind with ⟨hnil, hg⟩ | hspends
  · -- nothing is stored before it, so it is the first transaction of the first block
    rw [htxs, List.append_eq_nil_iff, List.flatMap_eq_nil_iff, List.take_eq_nil_iff] at hnil
    have hpre : pre = [] := List.eq_nil_iff_forall_not_mem.2 fun r hmem =>
      h.nonempty r (hb ▸ List.mem_append_left _ hmem) (hnil.1 r hmem)
    have hfirst : i = 0 := hnil.2.resolve_right (List.ne_nil_of_length_pos (by omega))
    subst hpre hfirst
    exact .inl ⟨hg, hrules, h.checkGenesisPosition hc.linked hb (hs record hr)⟩
  · exact .inr hspends

end Ledger

/-- The key's signature of a digest can be read back, and it is valid. -/
structure SecretKey.Attests (key : SecretKey) (digest : Digest) : Prop where
  readable : CryptoSuite.compact? (CryptoSuite.compactBytes (CryptoSuite.sign key digest)) =
    some (CryptoSuite.sign key digest)
  valid : CryptoSuite.verify key.publicKey digest (CryptoSuite.sign key digest) = true

theorem Block.Sealed.checkSignature {block : Block} {key : SecretKey} (h : block.Sealed key)
    (ha : key.Attests block.id.bytes) : block.checkSignature key.publicKey = .ok () := by
  rw [Block.checkSignature, h.signature]
  simp only [ha.readable, ha.valid, if_true]

namespace Ledger

/-- The tree has taken every block of the ledger and finds it right. -/
structure AcceptedBy (ledger : Ledger) (store : ChainStore) (key : PublicKey) : Prop where
  /-- The blocks come in the order of their heights. -/
  heights : ledger.blocks.map (·.height) = List.range ledger.blocks.length
  /-- The empty tree takes them one after the other, at the same heights. -/
  taken : ChainStore.empty.addAll (ledger.blocks.map (·.block)) =
    .ok (ledger.blocks.map (·.height), store)
  merkleRoot : ∀ record ∈ ledger.blocks, record.block.checkMerkleRoot = .ok ()
  signature : ∀ record ∈ ledger.blocks, record.block.checkSignature key = .ok ()
  size_le : ∀ record ∈ ledger.blocks, record.block.transactionsSize ≤ Block.sizeLimit
  /-- Each transaction passes at its own place. -/
  transactions : ∀ record ∈ ledger.blocks, ∀ i tx, record.block.transactions[i]? = some tx →
    store.checkTransaction ⟨record.block.id, i⟩ tx = .ok ()

/-- **A tree accepts the blocks of every run** of one key, where signatures by that key of block
identifiers verify and none of these identifiers is the one for no block. -/
theorem acceptedBy_run {events : List Event} {key : SecretKey}
    (hd : DistinctIds (broughtBy events)) (hk : ∀ e ∈ events, ∀ other ∈ e.key?, other = key)
    (hz : ∀ record ∈ (run events).blocks, record.id.isZero = false)
    (ha : ∀ record ∈ (run events).blocks, key.Attests record.id.bytes) :
    ∃ store, (run events).AcceptedBy store key.publicKey := by
  have h := sound_run hd
  have hc := coherent_run events
  have hsealed : ∀ record ∈ (run events).blocks, record.block.Sealed key := by
    intro record hr
    obtain ⟨other, hmem, hs⟩ := hc.isSealed record hr
    obtain ⟨e, he, hother⟩ := List.mem_filterMap.1 hmem
    rwa [hk e he other hother] at hs
  obtain ⟨store, htaken, hentries⟩ := hc.linked.exists_addAll hz fun _ => h.lawful.txid_eq_ok
  refine ⟨store, h.heights, htaken, fun record hr => (hsealed record hr).merkleRoot,
    fun record hr => (hsealed record hr).checkSignature ?_,
    fun record hr => (hsealed record hr).size_le, fun record hr i tx hi => ?_⟩
  · rw [hc.linked.id_eq hr]
    exact ha record hr
  · rw [hc.linked.id_eq hr]
    exact h.checkTransaction hc hz (fun _ => hc.linked.block?_eq_some hentries) hr hi

/-! ### Both accept the same at the tip -/

/-- For a block behind a tip with nothing accepted yet, what passes is what spends confirmed
outputs. -/
theorem validate_new_eq_ok_iff {ledger : Ledger} {tip : BlockRecord} {tx : Transaction} :
    ledger.validate (some tip) .new tx = .ok () ↔ ∃ t previous, tx.Spends t previous ledger.utxos := by
  have hview : Pending.new.view ledger.utxos = ledger.utxos := Pending.view_withLimit ..
  have hresolve : ∀ t : Transfer, ∀ previous, ledger.resolveAll .new t.inputs = .ok previous ↔
      List.Forall₂ (fun input output => ledger.utxos.get? input.outpoint = some output)
        t.inputs previous := fun t previous => by
    have hnone : ∀ o ∈ Pending.new.created.keys, o ∉ ledger.utxos.keys := by
      simp [Pending.new, Pending.withLimit]
    simp only [resolveAll_eq_ok_iff, resolve_eq_ok_iff hnone, hview]
  rw [validate_eq_ok_iff]
  constructor
  · rintro ⟨hrules, ⟨outputs, -, htip, -⟩ | ⟨t, previous, hb, -, hr, hchecked⟩⟩
    · cases htip
    · exact ⟨t, previous, hb, hrules, (hresolve t previous).1 hr, hchecked⟩
  · rintro ⟨t, previous, hs⟩
    exact ⟨hs.rules, .inr ⟨t, previous, hs.body, rfl, (hresolve t previous).2 hs.found, hs.checked⟩⟩

/-- **The ledger and the tree give the same verdict at the tip** on every transaction, where the tree
has the blocks of the ledger, with whatever else, and none of their identifiers is the one for no
block. -/
theorem validate_tip_iff_checkTransaction {events : List Event} {store : ChainStore}
    {tip : BlockRecord} (hd : DistinctIds (broughtBy events))
    (hz : ∀ record ∈ (run events).blocks, record.id.isZero = false)
    (htip : (run events).tip? = some tip) (hs : store.Has (run events).blocks) (tx : Transaction) :
    (run events).validate (some tip) .new tx = .ok () ↔
      store.checkTransaction (.endOf tip.block) tx = .ok () := by
  have h := sound_run hd
  have hlinked := (coherent_run events).linked
  have hmem : tip ∈ (run events).blocks := List.mem_of_getLast? htip
  obtain ⟨pre, hb⟩ : ∃ pre, (run events).blocks = pre ++ [tip] := List.getLast?_eq_some_iff.1 htip
  rw [hb] at hlinked hs hz
  obtain ⟨history, hsees, htxs⟩ := hlinked.exists_sees hz hs (Nat.le_refl _)
  -- from the end of the tip all stored transactions can be seen
  have hall : history.map Prod.snd = (run events).transactions := by
    rw [htxs, List.take_length, transactions, hb, List.flatMap_append, List.flatMap_singleton]
  have hend : Position.endOf tip.block = ⟨tip.id, tip.block.transactions.length⟩ := by
    rw [Position.endOf, hlinked.id_eq (by simp)]
  have hl : Lawful (history.map Prod.snd) (run events).utxos := hall ▸ h.lawful
  rw [validate_new_eq_ok_iff, hend, ChainStore.checkTransaction_eq_ok_iff hsees hl]
  refine ⟨.inr, fun hok => hok.resolve_left ?_⟩
  -- behind a block is no place for a genesis transaction
  rintro ⟨-, -, hg⟩
  obtain ⟨-, -, -, -, hindex, -⟩ := ChainStore.checkGenesisPosition_eq_ok_iff.1 hg
  exact h.nonempty tip hmem (List.length_eq_zero_iff.1 hindex)

end Ledger

end

/-! ### A payment -/

namespace Payment

def mintedSignature : Signature where
  r := 0x0b6988c1e56c30ffbff4fa0e152f88f0556caa0c175bce969f5eda03425b5330
  s := 0x5d7f77d988564faa34140999a297fb4f12090a732018fd7e216e33f871362067

def spentSignature : Signature where
  r := 0x0e113e74ca99c0d3297be7fc47f2a190b4e7b8eedd3b6b9658ef39e0741c313b
  s := 0x55a15e014384ef1b008d1a0de5e782a7b586b281f78a69a55acd8fd0b0b58c07

theorem attests_mintedId : key.Attests mintedId.bytes := by
  have hs : CryptoSuite.sign key mintedId.bytes = mintedSignature := by decide +kernel
  exact ⟨by rw [hs]; decide +kernel, by rw [hs]; decide +kernel⟩

theorem attests_spentId : key.Attests spentId.bytes := by
  have hs : CryptoSuite.sign key spentId.bytes = spentSignature := by decide +kernel
  exact ⟨by rw [hs]; decide +kernel, by rw [hs]; decide +kernel⟩

end Payment

open Payment in
/-- A tree accepts the two blocks of a minted coin and its transfer. -/
theorem Ledger.acceptedBy_payment : (Ledger.run events).transactions = [minting, spend] ∧
    ∃ store, (Ledger.run events).AcceptedBy store key.publicKey := by
  have hids : ∀ id ∈ (Ledger.run events).blocks.map (·.id),
      id.isZero = false ∧ key.Attests id.bytes := by
    rw [stored.2.2]
    intro id hid
    rcases List.mem_pair.1 hid with rfl | rfl
    · exact ⟨by decide, attests_mintedId⟩
    · exact ⟨by decide, attests_spentId⟩
  rw [List.forall_mem_map] at hids
  have hk : ∀ e ∈ events, ∀ other ∈ e.key?, other = key := by
    simp [events, opening, Event.key?]
  exact ⟨transactions_run, Ledger.acceptedBy_run distinctIds hk (fun record hr => (hids record hr).1)
    fun record hr => (hids record hr).2⟩

open Payment in
/-- At the tip with the minted coin both accept its transfer. -/
theorem Ledger.validate_tip_payment : ∃ tip, ∃ store : ChainStore, start.tip? = some tip ∧
    store.Has start.blocks ∧ start.validate (some tip) .new spend = .ok () ∧
      store.checkTransaction (.endOf tip.block) spend = .ok () := by
  have hd : DistinctIds (broughtBy opening) := by
    have hall : broughtBy events = broughtBy opening := by simp [broughtBy, events, Event.brings]
    exact hall ▸ distinctIds
  have hz : ∀ record ∈ start.blocks, record.id.isZero = false := by
    have hids : ∀ id ∈ start.blocks.map (·.id), id.isZero = false := by
      rw [stored.1.2]
      decide
    rwa [List.forall_mem_map] at hids
  have h : start.Sound (broughtBy opening) := Ledger.sound_run hd
  have hlinked : Linked start.blocks := (Ledger.coherent_run opening).linked
  obtain ⟨store, -, hentries⟩ := hlinked.exists_addAll hz fun _ => h.lawful.txid_eq_ok
  have hs : store.Has start.blocks := fun record hr =>
    ⟨record.height, hlinked.block?_eq_some hentries hr⟩
  obtain ⟨tip, htip⟩ : ∃ tip, start.tip? = some tip := by
    refine Option.ne_none_iff_exists'.1 fun hnone => ?_
    simpa [Ledger.tip?_eq_none_iff.1 hnone] using stored.1.2
  -- the transfer spends what the minting transaction leaves
  have hvalid : start.validate (some tip) .new spend = .ok () := by
    obtain ⟨utxos, hminting, hspends⟩ := exists_spends
    have hr := h.lawful.replay?_eq
    rw [stored.1.1, hminting.replay?_eq, Option.some.injEq] at hr
    exact Ledger.validate_new_eq_ok_iff.2 (hr ▸ hspends)
  exact ⟨tip, store, htip, hs, hvalid,
    (Ledger.validate_tip_iff_checkTransaction hd hz htip hs spend).1 hvalid⟩

end UtxoLedger
