import UtxoLedger.Ledger.PendingInPlace
import UtxoLedger.Proofs.Pending
import UtxoLedger.Proofs.Merkle
import Mathlib.Data.List.Induction

/-!
What a block under assembly holds behind any series of transactions that it was offered, those that it
refused among them. A refusal leaves everything as it was, in place too; what was accepted is what the
collections tell about; and no outpoint is consumed by two transactions.
-/

namespace UtxoLedger.Pending

/-! ### The order of what is consumed -/

theorem consume_append (spent more last : List Outpoint) :
    consume spent (more ++ last) = consume (consume spent more) last :=
  List.foldl_append

/-- From nothing, an outpoint stands where it is consumed first. -/
theorem consume_nil (os : List Outpoint) : consume [] os = os.eraseDups := by
  induction os using List.reverseRecOn with
  | nil => rfl
  | append_singleton os o ih =>
    have hlast : consume (consume [] os) [o] =
        if (consume [] os).contains o then consume [] os else consume [] os ++ [o] := rfl
    rw [consume_append, hlast, ih, List.eraseDups_append]
    by_cases ho : o ∈ os <;> simp [ho, List.removeAll, List.eraseDups_cons]

/-! ### In place -/

namespace InPlace

theorem foldl_consume (os : List Outpoint) (p : Pending) :
    os.foldl (fun p o =>
      { p with spent := if p.spent.contains o then p.spent else p.spent ++ [o] }) p =
      { p with spent := consume p.spent os } :=
  List.foldl_hom (fun spent => { p with spent := spent }) fun _ _ => rfl

theorem foldl_insert (created : List (Outpoint × Output)) (p : Pending) :
    created.foldl (fun p e => { p with created := p.created.insert e.1 e.2 }) p =
      { p with created := p.created.insertMany created } :=
  List.foldl_hom (fun created => { p with created := created }) fun _ _ => rfl

variable [CryptoSuite]

/-- Every check comes before the first change. -/
theorem run_add (p : Pending) (tx : Transaction) : (add tx).run p =
    match p.add tx with
    | .ok (id, after) => .ok id after
    | .error e => .error e p := by
  unfold add Pending.add
  simp only [EStateM.run_bind, EStateM.run_get]
  by_cases hfull : p.limit < p.size + Codec.size tx
  · simp only [hfull, if_true]
    rfl
  · simp only [hfull, if_false, EStateM.run_bind, run_ofExcept]
    cases tx.txid with
    | error e => rfl
    | ok id =>
      dsimp only
      by_cases hknown : p.contains id = true
      · simp only [hknown, if_true]
        rfl
      · rw [if_neg hknown, if_neg hknown]
        cases tx.inpoints.find? p.isSpent with
        | some conflict => rfl
        | none =>
          simp only [EStateM.run_bind, run_ofExcept]
          cases tx.outpoints with
          | error e => rfl
          | ok created =>
            simp only [run_forM_modify, foldl_consume, foldl_insert]
            rfl

/-- A transaction that is refused changes nothing. -/
theorem eq_of_run_add_eq_error {p after : Pending} {tx : Transaction} {e : Error}
    (h : (add tx).run p = .error e after) : after = p := by
  rw [run_add] at h
  cases ha : p.add tx with
  | error found =>
    rw [ha] at h
    cases h
    rfl
  | ok accepted =>
    rw [ha] at h
    cases h

end InPlace

/-! ### One offer after the other -/

variable [CryptoSuite]

open InPlace (offered afterOffers taken)

/-- **What a series of offers keeps**, where `txs` are the accepted transactions, first to last: the
collections agree with these, what is consumed stands in the order of its first consumption, and no two
of them consume one outpoint. -/
structure Took (limit : Nat) (txs : List Transaction) (p : Pending) : Prop where
  consistent : p.Consistent
  limit : p.limit = limit
  accepted : p.accepted = txs
  spent : p.spent = consume [] (txs.flatMap (·.inpoints))
  apart : txs.Pairwise fun tx tx' => tx.inpoints.Disjoint tx'.inpoints

namespace Took

variable {limit : Nat} {txs : List Transaction} {tx : Transaction} {p q : Pending} {id : TxId}

theorem withLimit (limit : Nat) : Took limit [] (withLimit limit) where
  consistent := consistent_withLimit limit
  limit := rfl
  accepted := rfl
  spent := rfl
  apart := .nil

theorem add (h : Took limit txs p) (ha : p.add tx = .ok (id, q)) : Took limit (txs ++ [tx]) q := by
  obtain ⟨-, -, -, hfree, created, -, rfl⟩ := add_eq_ok_iff.1 ha
  refine ⟨h.consistent.add ha, h.limit, congrArg (· ++ [tx]) h.accepted, ?_, ?_⟩
  · rw [List.flatMap_append, consume_append, ← h.spent, List.flatMap_singleton]
    rfl
  · refine List.pairwise_append.2 ⟨h.apart, List.pairwise_singleton _ _, fun before hb last hl => ?_⟩
    obtain rfl := List.mem_singleton.1 hl
    -- an outpoint of the new transaction has not been consumed
    intro o ho hlast
    exact hfree o hlast ((h.consistent.spent o).2 ⟨before, h.accepted ▸ hb, ho⟩)

theorem offers (h : Took limit txs p) (offers : List Transaction) :
    Took limit (txs ++ taken p offers) (offers.foldl offered p) := by
  induction offers generalizing txs p with
  | nil => simpa [taken] using h
  | cons tx offers ih =>
    rw [List.foldl_cons, offered, taken, InPlace.run_add]
    cases ha : p.add tx with
    | error e => exact ih h
    | ok accepted =>
      have hrest := ih (h.add ha)
      rwa [List.append_assoc] at hrest

theorem afterOffers (limit : Nat) (offers : List Transaction) :
    Took limit (taken (.withLimit limit) offers) (afterOffers limit offers) :=
  (withLimit limit).offers offers

theorem mem_spent (h : Took limit txs p) {o : Outpoint} :
    o ∈ p.spent ↔ ∃ tx ∈ txs, o ∈ tx.inpoints := by
  rw [h.consistent.spent, h.accepted]

theorem mem_created (h : Took limit txs p) {o : Outpoint} {output : Output} :
    (o, output) ∈ p.created.entries ↔ ∃ tx ∈ txs, tx.Creates o output := by
  rw [h.consistent.created, h.accepted]

theorem newUnspent?_eq_some_iff (h : Took limit txs p) {o : Outpoint} {output : Output} :
    p.newUnspent? o = some output ↔
      (∃ tx ∈ txs, tx.Creates o output) ∧ ∀ tx ∈ txs, o ∉ tx.inpoints := by
  have hfree : (∀ tx ∈ txs, o ∉ tx.inpoints) ↔ o ∉ p.spent := by simp [h.mem_spent]
  rw [hfree, ← h.mem_created, ← Table.get?_eq_some_iff h.consistent.nodup_created, newUnspent?]
  by_cases ho : o ∈ p.spent <;> simp [isSpent, ho]

theorem mem_newUtxos (h : Took limit txs p) {o : Outpoint} {output : Output} :
    (o, output) ∈ p.newUtxos ↔ p.newUnspent? o = some output := by
  rw [h.newUnspent?_eq_some_iff, ← h.mem_created]
  simp [newUtxos, isSpent, h.mem_spent]

theorem mem_confirmedSpent (h : Took limit txs p) {o : Outpoint} :
    o ∈ p.confirmedSpent ↔
      (∃ tx ∈ txs, o ∈ tx.inpoints) ∧ ∀ tx ∈ txs, ∀ output, ¬tx.Creates o output := by
  have hcreated : p.created.contains o = true ↔ ∃ tx ∈ txs, ∃ output, tx.Creates o output := by
    rw [Table.contains_iff, Table.mem_keys]
    simp only [h.mem_created]
    grind
  simp [confirmedSpent, ← h.mem_spent, ← Bool.not_eq_true, hcreated]

end Took

/-- An empty block accepts what can be written, has outputs that can be addressed, and leaves room. -/
theorem exists_add_withLimit (limit : Nat) {tx : Transaction} (hfits : tx.Fits)
    (houtputs : tx.outputs.length ≤ maxAddressableOutputs) (hsize : Codec.size tx ≤ limit) :
    ∃ id after, (withLimit limit).add tx = .ok (id, after) := by
  have hid := Transaction.txid_eq_ok_iff.2 ⟨hfits, rfl⟩
  have hroom : (withLimit limit).size + Codec.size tx ≤ (withLimit limit).limit := by
    rw [withLimit, Nat.zero_add]
    exact hsize
  exact ⟨_, _, add_eq_ok_iff.2 ⟨hroom, hid, List.not_mem_nil, fun _ _ => List.not_mem_nil, _,
    Transaction.outpoints_eq_ok_iff.2 ⟨houtputs, _, hid, rfl⟩, rfl⟩⟩

theorem taken_cons_of_add {p after : Pending} {tx : Transaction} {id : TxId}
    (h : p.add tx = .ok (id, after)) (offers : List Transaction) :
    taken p (tx :: offers) = tx :: taken after offers := by
  rw [taken, InPlace.run_add, h]

/-! ### The books -/

/-- **The books of a block under assembly** of `limit` bytes that has accepted `txs` in this order. -/
structure Books (limit : Nat) (txs : List Transaction) (p : Pending) : Prop where
  accepted : p.accepted = txs
  size : p.size = sumOf Codec.size txs
  size_le : p.size ≤ limit
  ids : txs.map Transaction.txid = p.acceptedIds.map .ok
  nodup_ids : p.acceptedIds.Nodup
  /-- Each outpoint stands where it is consumed first. -/
  spent : p.spent = (txs.flatMap (·.inpoints)).eraseDups
  nodup_spent : p.spent.Nodup
  newUnspent : ∀ o output, p.newUnspent? o = some output ↔
    (∃ tx ∈ txs, tx.Creates o output) ∧ ∀ tx ∈ txs, o ∉ tx.inpoints
  newUtxos : ∀ o output, (o, output) ∈ p.newUtxos ↔ p.newUnspent? o = some output
  nodup_newUtxos : (p.newUtxos.map Prod.fst).Nodup
  confirmedSpent : ∀ o, o ∈ p.confirmedSpent ↔
    (∃ tx ∈ txs, o ∈ tx.inpoints) ∧ ∀ tx ∈ txs, ∀ output, ¬tx.Creates o output
  nodup_confirmedSpent : p.confirmedSpent.Nodup
  disjoint : p.confirmedSpent.Disjoint (p.newUtxos.map Prod.fst)
  /-- A call that fails leaves everything as it is. -/
  unchanged : ∀ tx e after, (InPlace.add tx).run p = .error e after → after = p

theorem Took.books {limit : Nat} {txs : List Transaction} {p : Pending} (h : Took limit txs p) :
    Books limit txs p where
  accepted := h.accepted
  size := h.accepted ▸ h.consistent.size
  size_le := h.limit ▸ h.consistent.size_le
  ids := h.accepted ▸ h.consistent.ids
  nodup_ids := h.consistent.nodup_ids
  spent := h.spent.trans (consume_nil _)
  nodup_spent := h.consistent.nodup_spent
  newUnspent _ _ := h.newUnspent?_eq_some_iff
  newUtxos _ _ := h.mem_newUtxos
  nodup_newUtxos := h.consistent.nodup_created.sublist (List.filter_sublist.map _)
  confirmedSpent _ := h.mem_confirmedSpent
  nodup_confirmedSpent := h.consistent.nodup_spent.filter _
  disjoint := by
    intro o ho hnew
    obtain ⟨⟨o', output⟩, hmem, rfl⟩ := List.mem_map.1 hnew
    obtain ⟨tx, htx, hcreates⟩ := (h.newUnspent?_eq_some_iff.1 (h.mem_newUtxos.1 hmem)).1
    exact (h.mem_confirmedSpent.1 ho).2 tx htx output hcreates
  unchanged _ _ _ := InPlace.eq_of_run_add_eq_error

/-- The books are kept whatever is offered. -/
theorem books_afterOffers (limit : Nat) (offers : List Transaction) :
    Books limit (taken (withLimit limit) offers) (afterOffers limit offers) :=
  (Took.afterOffers limit offers).books

/-! ### What is consumed twice -/

/-- **No two of the transactions consume one outpoint.** -/
structure SpendsApart (txs : List Transaction) : Prop where
  apart : txs.Pairwise fun tx tx' => tx.inpoints.Disjoint tx'.inpoints
  /-- What is consumed twice is consumed by a transaction that names it twice. -/
  nodup_iff : (txs.flatMap (·.inpoints)).Nodup ↔ ∀ tx ∈ txs, tx.inpoints.Nodup
  /-- The rules for the structure of a transaction leave none that does. -/
  nodup_of_structure : (∀ tx ∈ txs, tx.checkStructure = .ok ()) →
    (txs.flatMap (·.inpoints)).Nodup

/-- Whatever is offered, no two of the accepted transactions consume one outpoint. -/
theorem spendsApart_afterOffers (limit : Nat) (offers : List Transaction) :
    SpendsApart (afterOffers limit offers).accepted := by
  have h := Took.afterOffers limit offers
  rw [h.accepted]
  have hiff : ((taken (withLimit limit) offers).flatMap (·.inpoints)).Nodup ↔
      ∀ tx ∈ taken (withLimit limit) offers, tx.inpoints.Nodup := by
    rw [List.nodup_flatMap]
    exact and_iff_left h.apart
  exact ⟨h.apart, hiff, fun hrules => hiff.2 fun tx htx =>
    Transaction.nodup_inpoints_of_checkStructure (hrules tx htx)⟩

end UtxoLedger.Pending

/-! ### One input, twice -/

namespace UtxoLedger.TwoInputs

open Crypto

/-- A transfer both of whose inputs name one outpoint. -/
def spending : Transaction :=
  .unsigned [input, input] [⟨5, [0x51]⟩] 0
where
  /-- An input that names the outpoint. -/
  input : Input := ⟨⟨⟨⟨List.replicate 32 4, List.length_replicate⟩⟩, 0⟩, [], finalSequence⟩

theorem fits : spending.Fits := by
  refine ⟨rfl, rfl, rfl, ⟨by decide, fun input hinput => ?_⟩, ⟨by decide, fun output houtput => ?_⟩,
    fun witness hwitness => ?_⟩
  · obtain rfl : input = spending.input := by simpa using hinput
    exact Nat.zero_le _
  · obtain rfl := List.mem_singleton.1 houtput
    show 1 ≤ maxFieldLength
    decide
  · obtain ⟨_, -, rfl⟩ := List.mem_map.1 hwitness
    exact ⟨Nat.zero_le _, by simp⟩

/-- **An outpoint may be consumed twice.** What a transaction consumes is compared with what has been
consumed before it, not with itself. -/
theorem not_nodup_consumed : ¬((Pending.InPlace.afterOffers Block.sizeLimit
    [spending]).accepted.flatMap (·.inpoints)).Nodup := by
  obtain ⟨id, after, hadd⟩ := Pending.exists_add_withLimit Block.sizeLimit fits (by decide)
    (by decide +kernel)
  rw [(Pending.Took.afterOffers _ _).accepted, Pending.taken_cons_of_add hadd]
  show ¬([spending].flatMap (·.inpoints)).Nodup
  decide

end UtxoLedger.TwoInputs
