import UtxoLedger.Proofs.Run

/-!
What the chain of a run settles: strict replay of it gives the confirmed outputs, nothing is
consumed twice or before its creation, and the coins are those that the first transaction minted.
-/

namespace UtxoLedger

/-! ### Replay -/

section Replay

variable [CryptoSuite]

/-- The confirmed outputs of a ledger are the strict replay of its chain. -/
structure Ledger.Replays (ledger : Ledger) : Prop where
  /-- The blocks come in the order of their heights. -/
  heights : ledger.blocks.map (·.height) = List.range ledger.blocks.length
  /-- Every input finds its outpoint, every output finds its outpoint free, and what is left is what
  is confirmed. -/
  replay : replay? ledger.transactions = some ledger.utxos
  /-- No confirmed outpoint comes twice. -/
  keys : ledger.utxos.keys.Nodup
  /-- No outpoint is consumed twice. -/
  inpoints : (ledger.transactions.flatMap Transaction.inpoints).Nodup
  /-- What an input consumes is created before it, and by no transaction from there on. -/
  creators : ∀ pre tx post, ledger.transactions = pre ++ tx :: post → ∀ o ∈ tx.inpoints,
    (∃ creator ∈ pre, ∃ output, creator.Creates o output) ∧
      ∀ other ∈ tx :: post, other.txid ≠ .ok o.txid
  /-- No transaction is stored twice. -/
  transactions : ledger.transactions.Nodup
  /-- No identifier comes twice. -/
  txids : (ledger.transactions.map Transaction.txid).Nodup

/-- **Every run leaves the replay of its chain.** -/
theorem Ledger.replays_run {events : List Event} (hd : DistinctIds (broughtBy events)) :
    (Ledger.run events).Replays := by
  have h := Ledger.sound_run hd
  refine ⟨h.heights, h.lawful.replay?_eq, h.lawful.keys_nodup, h.lawful.nodup_inpoints, ?_,
    h.lawful.nodup, h.lawful.nodup_txids⟩
  intro pre tx post hs o ho
  have hl := h.lawful
  rw [hs] at hl
  exact hl.inpoint_creator ho

end Replay

open Payment in
/-- A minted coin and its transfer, replayed. -/
theorem Ledger.replays_payment : (Ledger.run events).Replays ∧
    (Ledger.run events).transactions = [minting, spend] :=
  ⟨Ledger.replays_run distinctIds, transactions_run⟩

/-! ### Supply -/

section Supply

variable [CryptoSuite]

/-- The blocks of a sound ledger: none, or one with a genesis transaction alone and further ones
that hold transfers. -/
theorem Ledger.Sound.blocks_eq {brought : List Transaction} {ledger : Ledger}
    (h : ledger.Sound brought) : ledger.blocks = [] ∨ ∃ first rest tx,
      ledger.blocks = first :: rest ∧ first.block.transactions = [tx] ∧ tx.isGenesis = true ∧
        ∀ record ∈ rest, record.block.transactions ≠ [] ∧
          ∀ other ∈ record.block.transactions, other.kind = .transfer := by
  cases hb : ledger.blocks with
  | nil => exact .inl rfl
  | cons first rest =>
    right
    obtain ⟨tx, htx⟩ := List.length_eq_one_iff.1 (h.alone first (by simp [hb]))
    have hall : ledger.transactions = tx :: rest.flatMap (·.block.transactions) := by
      rw [transactions, hb, List.flatMap_cons, htx, List.singleton_append]
    rcases h.lawful.eq_nil_or_genesis_cons with hnil | ⟨genesis, others, hcons, hg, hkinds⟩
    · rw [hall] at hnil
      cases hnil
    · rw [hall, List.cons.injEq] at hcons
      obtain ⟨rfl, rfl⟩ := hcons
      refine ⟨first, rest, tx, rfl, htx, hg, fun record hr => ⟨?_, fun other ho => ?_⟩⟩
      · exact h.nonempty record (hb ▸ List.mem_cons_of_mem _ hr)
      · exact hkinds other (List.mem_flatMap.2 ⟨record, hr, ho⟩)

/-- **The coins of every run are those that its one genesis transaction minted.** Before there is a
block there are none; the first block holds the genesis transaction alone, every further block holds
transfers. -/
theorem Ledger.supply_run {events : List Event} (hd : DistinctIds (broughtBy events)) :
    ((Ledger.run events).blocks = [] ∧ (Ledger.run events).utxos = .empty) ∨
      ∃ first rest tx, (Ledger.run events).blocks = first :: rest ∧
        first.block.transactions = [tx] ∧ tx.isGenesis = true ∧
        (∀ record ∈ rest, record.block.transactions ≠ [] ∧
          ∀ other ∈ record.block.transactions, other.kind = .transfer) ∧
        totalValue (Ledger.run events).utxos.values = tx.outputValue := by
  have h := Ledger.sound_run hd
  rcases h.blocks_eq with hb | ⟨first, rest, tx, hb, htx, hg, hrest⟩
  · refine .inl ⟨hb, ?_⟩
    have hl := h.lawful
    rw [transactions_eq_nil hb] at hl
    exact hl.eq_empty
  · refine .inr ⟨first, rest, tx, hb, htx, hg, hrest, h.lawful.totalValue_eq ?_⟩
    rw [transactions, hb, List.flatMap_cons, htx]
    rfl

end Supply

open Payment in
/-- Fifty coins are minted, and fifty are there after their transfer. -/
theorem Ledger.supply_payment : totalValue (Ledger.run events).utxos.values = 50 := by
  rcases Ledger.supply_run distinctIds with ⟨hb, -⟩ | ⟨first, rest, tx, hb, htx, -, -, hv⟩
  · have ht := transactions_run
    rw [transactions_eq_nil hb] at ht
    cases ht
  · have ht := transactions_run
    rw [transactions, hb, List.flatMap_cons, htx, List.singleton_append, List.cons.injEq] at ht
    rw [hv, ht.1]
    decide +kernel

end UtxoLedger
