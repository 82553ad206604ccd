import UtxoLedger.Proofs.Table
import UtxoLedger.Proofs.Transaction

/-!
Strict replay: transactions one after the other on a table of unspent outputs, where every input has
to find its outpoint and every output has to find its outpoint free.
-/

namespace UtxoLedger

/-- Unspent outputs by outpoint. -/
abbrev Utxos := Table Outpoint Output

namespace Table

variable {κ ν : Type} [DecidableEq κ]

/-- Takes a key away, which has to be there. -/
def take? (t : Table κ ν) (k : κ) : Option (Table κ ν) :=
  if t.contains k then some (t.erase k) else none

/-- Puts a value at a key, which has to be free. -/
def put? (t : Table κ ν) (e : κ × ν) : Option (Table κ ν) :=
  if t.contains e.1 then none else some (t.insert e.1 e.2)

theorem take?_eq_some_iff {t u : Table κ ν} {k : κ} :
    t.take? k = some u ↔ k ∈ t.keys ∧ u = t.without [k] := by
  unfold take?
  split
  · next h => simp [contains_iff.1 h, erase_eq_without, eq_comm]
  · next h => simp [mt contains_iff.2 h]

theorem put?_eq_some_iff {t u : Table κ ν} {e : κ × ν} :
    t.put? e = some u ↔ e.1 ∉ t.keys ∧ u = t.extend [e] := by
  unfold put?
  split
  · next h => simp [contains_iff.1 h]
  · next h =>
    have hk : e.1 ∉ t.keys := mt contains_iff.2 h
    simp [hk, insert_eq_extend hk, eq_comm]

theorem foldlM_take? {t u : Table κ ν} {ks : List κ} :
    ks.foldlM take? t = some u ↔ ks.Nodup ∧ (∀ k ∈ ks, k ∈ t.keys) ∧ u = t.without ks := by
  induction ks generalizing t with
  | nil => simp [eq_comm]
  | cons k ks ih =>
    simp only [List.foldlM_cons, Option.bind_eq_bind, Option.bind_eq_some_iff, take?_eq_some_iff,
      ih]
    constructor
    · rintro ⟨_, ⟨hk, rfl⟩, hn, hks, rfl⟩
      refine ⟨List.nodup_cons.2 ⟨fun h => ?_, hn⟩, ?_, without_without ..⟩
      · exact (mem_keys_without.1 (hks k h)).2 List.mem_cons_self
      · rintro k' hk'
        rcases List.mem_cons.1 hk' with rfl | hk'
        · exact hk
        · exact (mem_keys_without.1 (hks k' hk')).1
    · rintro ⟨hn, hks, rfl⟩
      rw [List.nodup_cons] at hn
      refine ⟨_, ⟨hks k List.mem_cons_self, rfl⟩, hn.2, fun k' hk' => ?_,
        (without_without t [k] ks).symm⟩
      have hne : k' ≠ k := fun h => hn.1 (h ▸ hk')
      exact mem_keys_without.2 ⟨hks k' (List.mem_cons_of_mem _ hk'), by simpa using hne⟩

theorem foldlM_put? {t u : Table κ ν} {pairs : List (κ × ν)} :
    pairs.foldlM put? t = some u ↔
      (pairs.map Prod.fst).Nodup ∧ (∀ e ∈ pairs, e.1 ∉ t.keys) ∧ u = t.extend pairs := by
  induction pairs generalizing t with
  | nil => simp [eq_comm]
  | cons e pairs ih =>
    simp only [List.foldlM_cons, Option.bind_eq_bind, Option.bind_eq_some_iff, put?_eq_some_iff, ih,
      List.map_cons, List.nodup_cons]
    constructor
    · rintro ⟨_, ⟨he, rfl⟩, hn, hf, rfl⟩
      refine ⟨⟨fun h => ?_, hn⟩, ?_, extend_extend ..⟩
      · obtain ⟨e', he', h⟩ := List.mem_map.1 h
        exact hf e' he' (by simp [h])
      · intro e' he'
        rcases List.mem_cons.1 he' with rfl | he'
        · exact he
        · exact fun h => hf e' he' (by simp [h])
    · rintro ⟨⟨he, hn⟩, hf, rfl⟩
      refine ⟨_, ⟨hf e List.mem_cons_self, rfl⟩, hn, fun e' he' => ?_,
        (extend_extend t [e] pairs).symm⟩
      have hne : e'.1 ≠ e.1 := fun h => he (h ▸ List.mem_map_of_mem he')
      simpa [hne] using hf e' (List.mem_cons_of_mem _ he')

end Table

variable [CryptoSuite]

namespace Transaction

/-- The unspent outputs after a transaction: each input takes its outpoint away, which has to be
there, and then each output goes to its outpoint, which has to be free. -/
def settle? (tx : Transaction) (utxos : Utxos) : Option Utxos :=
  match tx.outpoints with
  | .error _ => none
  | .ok created => do
    let rest ← tx.inpoints.foldlM Table.take? utxos
    created.foldlM Table.put? rest

theorem settle?_eq_some_iff {tx : Transaction} {utxos after : Utxos} :
    tx.settle? utxos = some after ↔ ∃ created, tx.outpoints = .ok created ∧
      tx.inpoints.Nodup ∧ (∀ o ∈ tx.inpoints, o ∈ utxos.keys) ∧
      (∀ e ∈ created, e.1 ∉ (utxos.without tx.inpoints).keys) ∧
      after = (utxos.without tx.inpoints).extend created := by
  unfold settle?
  cases h : tx.outpoints with
  | error e => simp
  | ok created =>
    simp only [Option.bind_eq_bind, Option.bind_eq_some_iff, Table.foldlM_take?, Table.foldlM_put?,
      Except.ok.injEq, exists_eq_left']
    constructor
    · rintro ⟨_, ⟨hn, hin, rfl⟩, -, hf, rfl⟩
      exact ⟨hn, hin, hf, rfl⟩
    · rintro ⟨hn, hin, hf, rfl⟩
      exact ⟨_, ⟨hn, hin, rfl⟩, nodup_outpoints h, hf, rfl⟩

end Transaction

/-- The unspent outputs after some transactions, from none on. -/
def replay? (txs : List Transaction) : Option Utxos :=
  txs.foldlM (fun utxos tx => tx.settle? utxos) .empty

@[simp]
theorem replay?_nil : replay? [] = some .empty := rfl

theorem replay?_concat (txs : List Transaction) (tx : Transaction) :
    replay? (txs ++ [tx]) = (replay? txs).bind tx.settle? := by
  simp [replay?]

end UtxoLedger
