import UtxoLedger.Ledger.Shared
import UtxoLedger.Proofs.Assembly

/-!
Assembly by lookups gives, on a ledger that stays as it is, the block that assembly on that ledger
gives, and so a miner that is left alone does what a mining cycle does. What a lookup program gives
depends on the confirmed outputs alone.
-/

namespace UtxoLedger

namespace Lookups

variable {α β : Type} {find : Outpoint → Option Output}

@[simp]
theorem under_bind (lookups : Lookups α) (f : α → Lookups β) :
    (lookups.bind f).under find = (f (lookups.under find)).under find := by
  induction lookups with
  | done value => rfl
  | look o next ih => exact ih (find o)

@[simp]
theorem under_map (lookups : Lookups α) (f : α → β) :
    (lookups.map f).under find = f (lookups.under find) := by
  rw [map, under_bind]
  rfl

variable {ledger : Ledger} {p : Pending} {tip : Option BlockRecord}

@[simp]
theorem under_resolve (o : Outpoint) :
    (resolve p o).under ledger.utxo? = ledger.resolve p o := by
  unfold resolve Ledger.resolve
  by_cases hs : p.isSpent o = true
  · rw [if_pos hs, if_pos hs]
    rfl
  · rw [if_neg hs, if_neg hs]
    cases p.newUnspent? o with
    | some output => rfl
    | none =>
      rw [under]
      cases ledger.utxo? o <;> rfl

@[simp]
theorem under_resolveAll (inputs : List Input) :
    (resolveAll p inputs).under ledger.utxo? = ledger.resolveAll p inputs := by
  induction inputs with
  | nil => rfl
  | cons input rest ih =>
    rw [resolveAll, Ledger.resolveAll, under_bind, under_resolve]
    cases ledger.resolve p input.outpoint with
    | error e => rfl
    | ok output => simp only [under_map, ih]

variable [CryptoSuite]

@[simp]
theorem under_validate (tx : Transaction) :
    (validate tip p tx).under ledger.utxo? = ledger.validate tip p tx := by
  unfold validate Ledger.validate
  cases tx.checkRules with
  | error e => rfl
  | ok _ =>
    cases tx.body with
    | genesis outputs =>
      dsimp only
      split <;> rfl
    | escrowOpen => rfl
    | transfer t =>
      by_cases hg : p.hasGenesis = true
      · simp only [hg, if_true]
        rfl
      · cases hfound : ledger.resolveAll p t.inputs with
        | error e => simp [hg, hfound]
        | ok previous => simp [hg, hfound]

@[simp]
theorem under_extend? (tx : Transaction) :
    (extend? tip p tx).under ledger.utxo? = ledger.extend? tip p tx := by
  unfold extend? Ledger.extend?
  cases tx.txid with
  | error e => rfl
  | ok id =>
    by_cases hc : p.contains id = true
    · simp only [hc, if_true]
      rfl
    · cases hvalid : ledger.validate tip p tx with
      | error e => simp [hc, hvalid]
      | ok _ => cases p.add tx <;> simp [hc, hvalid]

@[simp]
theorem under_sweep (txs : List Transaction) :
    (sweep tip p txs).under ledger.utxo? = ledger.sweep tip p txs := by
  induction txs generalizing p with
  | nil => rfl
  | cons tx rest ih =>
    rw [sweep, Ledger.sweep, under_bind, under_extend?]
    cases ledger.extend? tip p tx with
    | some q => exact ih
    | none => simp only [under_map, ih]

theorem under_assembleFrom {passes : Nat} {txs : List Transaction} (h : txs.length ≤ passes) :
    (assembleFrom tip passes p txs).under ledger.utxo? = ledger.assemble tip p txs := by
  induction passes generalizing p txs with
  | zero =>
    obtain rfl := List.length_eq_zero_iff.1 (Nat.le_zero.1 h)
    rw [Ledger.assemble]
    rfl
  | succ passes ih =>
    rw [assembleFrom, Ledger.assemble, under_bind, under_sweep]
    dsimp only
    split
    · exact ih (by omega)
    · rfl

/-- **On a ledger that stays as it is, assembly by lookups is assembly.** -/
theorem under_assemble (txs : List Transaction) :
    (assemble tip txs).under ledger.utxo? = ledger.assemble tip .new txs :=
  under_assembleFrom (Nat.le_refl _)

end Lookups

/-! ### A miner that is left alone -/

namespace Miner

variable [CryptoSuite] {ledger : Ledger} {key : SecretKey} {stamp : Stamp}

theorem turns_add (ledger : Ledger) (miner : Miner) (m n : Nat) :
    turns ledger miner (m + n) = turns (turns ledger miner m).2 (turns ledger miner m).1 n := by
  induction m generalizing ledger miner with
  | zero => rw [Nat.zero_add]; rfl
  | succ m ih =>
    rw [Nat.add_right_comm]
    exact ih _ _

/-- Lookups come to their end. -/
theorem exists_turns_assembling (ledger : Ledger) (key : SecretKey) (stamp : Stamp)
    (tip : Option BlockRecord) (lookups : Lookups Pending) :
    ∃ n, turns ledger (.assembling key stamp tip lookups) n =
      (.assembling key stamp tip (.done (lookups.under ledger.utxo?)), ledger) := by
  induction lookups with
  | done p => exact ⟨0, rfl⟩
  | look o next ih =>
    obtain ⟨n, hn⟩ := ih (ledger.utxo? o)
    exact ⟨n + 1, hn⟩

/-- What a miner comes to, and the ledger with it: what has been made, or why it has not. -/
def outcome (before : Ledger) : Except Error (Option Block × Ledger) → Miner × Ledger
  | .ok (made, after) => (.ended (.ok made), after)
  | .error e => (.ended (.error e), before)

theorem turn_sealing (tip : Option BlockRecord) (p : Pending) :
    turn ledger (sealing key stamp tip p) = outcome ledger
      ((ledger.commitPending key stamp tip p).map fun (block, after) => (some block, after)) := by
  unfold sealing Ledger.commitPending
  cases p.seal key stamp tip with
  | error e => rfl
  | ok block =>
    dsimp only [turn]
    cases ledger.commit (p.commit tip block) <;> rfl

/-- **A miner that is left alone does what a cycle does.** -/
theorem exists_turns_generate (ledger : Ledger) (key : SecretKey) (stamp : Stamp) :
    ∃ n, turns ledger (Job.generate key stamp).start n =
      outcome ledger (ledger.generate key stamp) := by
  by_cases hpending : ledger.pending.isEmpty = true
  · have hnone : ledger.pending = [] := List.isEmpty_iff.1 hpending
    have hassembled : ledger.assembled = .new := by
      rw [Ledger.assembled, hnone]
      exact Ledger.assemble_of_sweep rfl
    refine ⟨1, ?_⟩
    unfold Ledger.generate
    rw [hassembled]
    exact if_pos hpending
  · have hread : turns ledger (Job.generate key stamp).start 2 =
        (.assembling key stamp ledger.tip? (.assemble ledger.tip? ledger.pending), ledger) := by
      have hcollect : turn ledger (.collecting key stamp) =
          (.aiming key stamp ledger.pending, ledger) := if_neg hpending
      show turns (turn ledger (.collecting key stamp)).2 (turn ledger (.collecting key stamp)).1 1 = _
      rw [hcollect]
      rfl
    obtain ⟨n, hlook⟩ := exists_turns_assembling ledger key stamp ledger.tip?
      (.assemble ledger.tip? ledger.pending)
    rw [Lookups.under_assemble, ← Ledger.assembled] at hlook
    have hdone : turns ledger (Job.generate key stamp).start (2 + n) =
        (.assembling key stamp ledger.tip? (.done ledger.assembled), ledger) := by
      rw [turns_add, hread, hlook]
    unfold Ledger.generate
    dsimp only
    by_cases hempty : ledger.assembled.isEmpty = true
    · refine ⟨2 + n + 1, ?_⟩
      rw [turns_add, hdone, if_pos hempty]
      exact if_pos hempty
    · refine ⟨2 + n + 2, ?_⟩
      rw [turns_add, hdone, if_neg hempty, ← turn_sealing]
      have hseal : turn ledger (.assembling key stamp ledger.tip? (.done ledger.assembled)) =
          (sealing key stamp ledger.tip? ledger.assembled, ledger) := if_neg hempty
      show turns (turn ledger (.assembling key stamp ledger.tip? (.done ledger.assembled))).2
        (turn ledger (.assembling key stamp ledger.tip? (.done ledger.assembled))).1 1 = _
      rw [hseal]
      rfl

/-- A miner that is left alone mints the first block. -/
theorem exists_turns_mint (ledger : Ledger) (key : SecretKey) (stamp : Stamp) (coins : UInt32)
    (owner : PublicKey) : ∃ n, turns ledger (Job.mint key stamp coins owner).start n =
      outcome ledger ((ledger.mintGenesis key stamp coins owner).map
        fun (block, after) => (some block, after)) := by
  refine ⟨2, ?_⟩
  show turns (turn ledger (.opening key stamp coins owner)).2
    (turn ledger (.opening key stamp coins owner)).1 1 = _
  unfold Ledger.mintGenesis
  dsimp only [turn]
  cases ledger.tip? with
  | some tip => rfl
  | none =>
    cases Pending.new.add (Ledger.mintingTx coins owner) with
    | error e => rfl
    | ok result => exact turn_sealing none result.2

end Miner

end UtxoLedger
