import UtxoLedger.Proofs.Cycle

/-!
The order in which transactions wait makes no difference where none is in the way of another. What a
block under assembly can accept it can still accept behind more transactions, so that what is accepted
in one order is accepted in every other, in however many passes. Two cycles then make blocks of the
same transactions and leave the same behind.
-/

namespace UtxoLedger

/-! ### Sums -/

theorem sumOf_le_of_subset {α : Type} (f : α → Nat) {xs ys : List α} (hn : xs.Nodup) (h : xs ⊆ ys) :
    sumOf f xs ≤ sumOf f ys := by
  induction xs generalizing ys with
  | nil => exact Nat.zero_le _
  | cons x xs ih =>
    obtain ⟨hx, hxs⟩ := List.cons_subset.1 h
    obtain ⟨hnotin, hrest⟩ := List.nodup_cons.1 hn
    obtain ⟨pre, post, rfl⟩ := List.append_of_mem hx
    have hothers : xs ⊆ pre ++ post := by
      intro y hy
      have hne : y ≠ x := fun he => hnotin (he ▸ hy)
      simpa [hne] using hxs hy
    have hle := ih hrest hothers
    simp only [sumOf_cons, sumOf_append] at hle ⊢
    omega

section

variable [CryptoSuite]

namespace Ledger

variable {ledger other : Ledger} {pool txs txs' : List Transaction} {p q p' : Pending}
  {tx : Transaction} {o : Outpoint} {output : Output} {brought : List Transaction}

/-! ### The view of what is accepted -/

theorem get?_view (h : ledger.Continues p) : (p.view ledger.utxos).get? o = some output ↔
    ((o, output) ∈ ledger.utxos.entries ∨ ∃ tx ∈ p.accepted, tx.Creates o output) ∧
      ∀ tx ∈ p.accepted, o ∉ tx.inpoints := by
  rw [Table.get?_eq_some_iff h.lawful.keys_nodup, Pending.mem_entries_view, h.consistent.created,
    h.consistent.spent]
  simp

/-- What is unspent depends on which transactions have been accepted, not on their order. -/
theorem get?_view_congr (hp : ledger.Continues p) (hq : other.Continues q)
    (hutxos : ledger.utxos = other.utxos) (h : ∀ tx, tx ∈ p.accepted ↔ tx ∈ q.accepted)
    (o : Outpoint) : (p.view ledger.utxos).get? o = (q.view other.utxos).get? o := by
  refine Option.ext fun output => ?_
  rw [get?_view hp, get?_view hq, hutxos]
  simp only [h]

/-- Inputs find what they found behind more transactions, if none of these takes it. -/
theorem resolveAll_of_subset (hp : ledger.Continues p) (hq : ledger.Continues q)
    (hsub : p.accepted ⊆ q.accepted) {inputs : List Input} {previous : List Output}
    (hfree : ∀ other ∈ q.accepted, ∀ o ∈ inputs.map (·.outpoint), o ∉ other.inpoints)
    (h : ledger.resolveAll p inputs = .ok previous) : ledger.resolveAll q inputs = .ok previous := by
  have hall := (List.forall₂_and_left inputs previous).2 ⟨fun _ hi => hi, resolveAll_eq_ok_iff.1 h⟩
  refine resolveAll_eq_ok_iff.2 (hall.imp fun input output hfound => ?_)
  obtain ⟨hinput, hfound⟩ := hfound
  rw [resolve_eq_ok_iff hp.disjoint, get?_view hp] at hfound
  rw [resolve_eq_ok_iff hq.disjoint, get?_view hq]
  refine ⟨?_, fun other hother => hfree other hother _ (List.mem_map_of_mem hinput)⟩
  rcases hfound.1 with hold | ⟨creator, hcreator, hcreates⟩
  · exact .inl hold
  · exact .inr ⟨creator, hsub hcreator, hcreates⟩

theorem Continues.nodup_accepted (h : ledger.Continues p) : p.accepted.Nodup :=
  (List.nodup_append.1 h.lawful.nodup).2.1

/-- Behind a chain that is not empty only transfers are accepted. -/
theorem Continues.hasGenesis_eq_false (h : ledger.Continues p) (hchain : ledger.transactions ≠ []) :
    p.hasGenesis = false := by
  obtain ⟨first, rest, hcons⟩ := List.exists_cons_of_ne_nil hchain
  rcases h.lawful.eq_nil_or_genesis_cons with hnil | ⟨genesis, transfers, hall, -, hkind⟩
  · rw [hcons] at hnil
    cases hnil
  · rw [hcons, List.cons_append, List.cons.injEq] at hall
    obtain ⟨rfl, rfl⟩ := hall
    refine List.any_eq_false.2 fun tx htx hg => ?_
    have htransfer := hkind tx (List.mem_append_right _ htx)
    unfold Transaction.isGenesis at hg
    split at hg
    · next hb => simp [Transaction.kind, hb, Body.kind] at htransfer
    · cases hg

/-! ### Transactions that are not in each other's way -/

/-- Transactions none of which keeps another out of the next block. -/
structure Compatible (ledger : Ledger) (pool : List Transaction) : Prop where
  /-- They are told apart from the stored ones. -/
  known : ∀ tx ∈ pool, ∀ other ∈ ledger.transactions, other.txid = tx.txid → other = tx
  /-- They are told apart. -/
  distinct : DistinctIds pool
  /-- They consume different outpoints. -/
  apart : ∀ tx ∈ pool, ∀ other ∈ pool, tx ≠ other → ∀ o ∈ tx.inpoints, o ∉ other.inpoints
  /-- There is room for all of them. -/
  room : sumOf Codec.size pool ≤ Block.sizeLimit

/-- Nothing that is accepted by now consumes what a transaction consumes that is not. -/
theorem Compatible.notMem_inpoints (hc : ledger.Compatible pool) (hq : ledger.Reaches pool q)
    (htx : tx ∈ pool) (hnew : tx ∉ q.accepted) :
    ∀ other ∈ q.accepted, ∀ o ∈ tx.inpoints, o ∉ other.inpoints := by
  intro other hother
  refine hc.apart tx htx other (hq.accepted hother) ?_
  rintro rfl
  exact hnew hother

/-- There is room for a transaction that is not accepted yet. -/
theorem Compatible.size_le (hc : ledger.Compatible pool) (hq : ledger.Reaches pool q)
    (htx : tx ∈ pool) (hnew : tx ∉ q.accepted) : q.size + Codec.size tx ≤ q.limit := by
  have hnodup : (q.accepted ++ [tx]).Nodup := by
    refine List.nodup_append.2 ⟨hq.continues.nodup_accepted, List.nodup_singleton tx, ?_⟩
    rintro other hother _ hm rfl
    exact hnew (List.mem_singleton.1 hm ▸ hother)
  have hpool : q.accepted ++ [tx] ⊆ pool :=
    List.append_subset.2 ⟨hq.accepted, List.cons_subset.2 ⟨htx, List.nil_subset _⟩⟩
  have hsum := sumOf_le_of_subset Codec.size hnodup hpool
  have hroom := hc.room
  rw [sumOf_append, sumOf_cons, sumOf_nil] at hsum
  rw [hq.checked.consistent.size, hq.checked.limit]
  omega

/-- **What can be accepted can be accepted later.** -/
theorem Compatible.exists_extend? (hc : ledger.Compatible pool) (hchain : ledger.transactions ≠ [])
    (hp : ledger.Reaches pool p) (hq : ledger.Reaches pool q) (hsub : p.accepted ⊆ q.accepted)
    (htx : tx ∈ pool) (hnew : tx ∉ q.accepted)
    (he : ledger.extend? ledger.tip? p tx = some p') :
    ∃ q', ledger.extend? ledger.tip? q tx = some q' := by
  obtain ⟨hv, id, ha⟩ := extend?_eq_some_iff.1 he
  obtain ⟨-, hid, -, -, created, hout, -⟩ := Pending.add_eq_ok_iff.1 ha
  obtain ⟨hrules, ⟨_, _, htip, _⟩ | ⟨t, previous, hbody, -, hres, hcheck⟩⟩ :=
    validate_eq_ok_iff.1 hv
  · exact absurd (transactions_eq_nil (tip?_eq_none_iff.1 htip)) hchain
  have hbooks := hq.checked.consistent
  have hfree := hc.notMem_inpoints hq htx hnew
  have hfound : ledger.resolveAll q t.inputs = .ok previous := by
    refine resolveAll_of_subset hp.continues hq.continues hsub ?_ hres
    rwa [Transaction.inpoints, Transaction.inputs, hbody] at hfree
  have hunspent : ∀ o ∈ tx.inpoints, o ∉ q.spent := by
    intro o ho hs
    obtain ⟨other, hother, hin⟩ := (hbooks.spent o).1 hs
    exact hfree other hother o ho hin
  have hnotin : id ∉ q.acceptedIds := by
    intro hin
    obtain ⟨other, hother, hoid⟩ := hbooks.txid_mem.2 hin
    exact hnew (hc.distinct other (hq.accepted hother) tx htx id hoid hid ▸ hother)
  refine ⟨_, extend?_eq_some_iff.2 ⟨validate_eq_ok_iff.2 ⟨hrules, .inr ⟨t, previous, hbody,
    hq.continues.hasGenesis_eq_false hchain, hfound, hcheck⟩⟩, id, Pending.add_eq_ok_iff.2
    ⟨hc.size_le hq htx hnew, hid, hnotin, hunspent, created, hout, rfl⟩⟩⟩

/-- What passes accept is among what can accept nothing more. -/
theorem Compatible.accepted_subset (hc : ledger.Compatible pool)
    (hlawful : Lawful ledger.transactions ledger.utxos) (hchain : ledger.transactions ≠ [])
    (hsub : txs ⊆ pool) (hq : ledger.Reaches pool q)
    (hsaturated : ∀ tx ∈ pool, tx ∈ q.accepted ∨ ledger.extend? ledger.tip? q tx = none) :
    (ledger.assemble ledger.tip? .new txs).accepted ⊆ q.accepted := by
  refine (assemble_keeps (motive := fun p => ledger.Reaches pool p ∧ p.accepted ⊆ q.accepted)
    (fun p p' tx htx hp he => ?_) txs hsub ⟨reaches_new hlawful, List.nil_subset _⟩).2
  refine ⟨hp.1.extend he htx (hc.known tx htx), ?_⟩
  rw [accepted_extend? he]
  refine List.append_subset.2 ⟨hp.2, List.cons_subset.2 ⟨?_, List.nil_subset _⟩⟩
  rcases hsaturated tx htx with haccepted | hnone
  · exact haccepted
  · by_contra hnew
    obtain ⟨q', hsome⟩ := hc.exists_extend? hchain hp.1 hq hp.2 htx hnew he
    rw [hnone] at hsome
    cases hsome

/-- **Assembly accepts the same transactions in every order.** -/
theorem Compatible.mem_assemble_iff (hc : ledger.Compatible txs)
    (hlawful : Lawful ledger.transactions ledger.utxos) (hchain : ledger.transactions ≠ [])
    (hperm : txs.Perm txs') (tx : Transaction) :
    tx ∈ (ledger.assemble ledger.tip? .new txs).accepted ↔
      tx ∈ (ledger.assemble ledger.tip? .new txs').accepted := by
  have hreaches : ∀ order ⊆ txs, ledger.Reaches txs (ledger.assemble ledger.tip? .new order) :=
    fun order => reaches_assemble hlawful hc.known
  have hsub : txs' ⊆ txs := hperm.symm.subset
  constructor
  · refine fun htx => hc.accepted_subset hlawful hchain (List.Subset.refl _) (hreaches txs' hsub) ?_ htx
    exact fun tx htx => assemble_saturated txs' (hperm.subset htx)
  · refine fun htx => hc.accepted_subset hlawful hchain hsub (hreaches txs (List.Subset.refl _)) ?_ htx
    exact fun tx htx => assemble_saturated txs htx

/-! ### What waits -/

/-- Every transaction waits under its own identifier. -/
def Keyed (ledger : Ledger) : Prop :=
  ∀ e ∈ ledger.mempool.entries, e.2.txid = .ok e.1

theorem Keyed.apply (h : ledger.Keyed) (c : Commit) : (ledger.apply c).Keyed := by
  intro e he
  refine h e ?_
  rw [Ledger.apply, Table.eraseMany_eq_without] at he
  exact List.mem_of_mem_filter he

theorem Keyed.next (h : ledger.Keyed) (e : Event) : (ledger.next e).Keyed := by
  rcases ledger.next_cases e with hn | ⟨tx, id, hid, hn⟩ | ⟨id, hn⟩ | ⟨key, -, stamp, p, block, -, hc⟩
  · rwa [hn]
  · rw [hn]
    exact List.forall_mem_append.2 ⟨h, by simpa using hid⟩
  · rw [hn]
    exact fun e he => h e (List.mem_of_mem_filter he)
  · rw [(commitPending_eq_ok hc).2]
    exact h.apply _

theorem keyed_run (events : List Event) : (run events).Keyed :=
  List.foldlRecOn events Ledger.next (fun _ he => by cases he) fun _ h e _ => h.next e

/-- **A stored block takes what it accepted out of what waits**, and nothing else. -/
theorem entries_apply (h : ledger.Keyed) (hd : DistinctIds pool) (hwait : ledger.pending ⊆ pool)
    (hp : p.Consistent) (hsub : p.accepted ⊆ pool) (tip : Option BlockRecord) (block : Block) :
    (ledger.apply (p.commit tip block)).mempool.entries =
      ledger.mempool.entries.filter (·.2 ∉ p.accepted) := by
  change (ledger.mempool.eraseMany p.acceptedIds).entries = _
  rw [Table.eraseMany_eq_without]
  refine List.filter_congr fun e he => decide_eq_decide.2 (not_congr ?_)
  constructor
  · intro hid
    obtain ⟨tx, htx, htxid⟩ := hp.txid_mem.2 hid
    exact hd tx (hsub htx) e.2 (hwait (List.mem_map_of_mem he)) e.1 htxid (h e he) ▸ htx
  · exact fun htx => hp.txid_mem.1 ⟨e.2, htx, h e he⟩

theorem pending_apply (h : ledger.Keyed) (hd : DistinctIds pool) (hwait : ledger.pending ⊆ pool)
    (hp : p.Consistent) (hsub : p.accepted ⊆ pool) (tip : Option BlockRecord) (block : Block) :
    (ledger.apply (p.commit tip block)).pending = ledger.pending.filter (· ∉ p.accepted) := by
  rw [pending, Table.values, entries_apply h hd hwait hp hsub tip block, pending, Table.values,
    List.filter_map]
  rfl

theorem blocks_run_queue (events : List Event) (txs : List Transaction) :
    (run (events ++ txs.map .queue)).blocks = (run events).blocks := by
  rw [run, List.foldl_append, ← run, List.foldl_map]
  refine List.foldlRecOn txs _ (motive := fun ledger : Ledger => ledger.blocks = (run events).blocks)
    rfl fun ledger h tx _ => ?_
  rw [← h]
  rcases ledger.next_cases (.queue tx) with hn | ⟨tx, id, -, hn⟩ | ⟨id, hn⟩ | ⟨key, hkey, -⟩
  · rw [hn]
  · rw [hn]
  · rw [hn, drop]
  · cases hkey

/-! ### Ledgers with the same confirmed outputs -/

section Congr

variable (h : ledger.utxos = other.utxos) (tip : Option BlockRecord) (p : Pending)
include h

omit [CryptoSuite] in
theorem resolveAll_congr (inputs : List Input) :
    ledger.resolveAll p inputs = other.resolveAll p inputs := by
  induction inputs with
  | nil => rfl
  | cons input inputs ih => simp only [resolveAll, resolve, utxo?, h, ih]

theorem extend?_congr (tx : Transaction) : ledger.extend? tip p tx = other.extend? tip p tx := by
  simp only [extend?, validate, resolveAll_congr h]

theorem sweep_congr (txs : List Transaction) : ledger.sweep tip p txs = other.sweep tip p txs := by
  induction txs generalizing p with
  | nil => rfl
  | cons tx txs ih => simp only [sweep, extend?_congr h, ih]

/-- Assembly looks at nothing but the confirmed outputs. -/
theorem assemble_congr (txs : List Transaction) :
    ledger.assemble tip p txs = other.assemble tip p txs := by
  induction hn : txs.length using Nat.strongRecOn generalizing p txs with
  | ind n ih =>
    rw [assemble, assemble, sweep_congr h]
    simp only
    split
    · next hlt => exact ih _ (hn ▸ hlt) _ _ rfl
    · rfl

end Congr

/-! ### One cycle -/

/-- A ledger whose cycle comes to its end. -/
structure Ready (ledger : Ledger) : Prop where
  reaches : ledger.Reaches ledger.pending ledger.assembled
  linked : Linked ledger.blocks
  keyed : ledger.Keyed
  /-- What waits is told apart. -/
  distinct : DistinctIds ledger.pending

theorem Sound.ready (h : ledger.Sound brought) (hd : DistinctIds brought)
    (hlinked : Linked ledger.blocks) (hk : ledger.Keyed) : ledger.Ready where
  reaches := reaches_assemble h.lawful (fun _ htx _ ho he => h.known hd htx ho he)
    (List.Subset.refl _)
  linked := hlinked
  keyed := hk
  distinct a ha b hb := hd a (h.waiting a ha) b (h.waiting b hb)

theorem ready_run {events : List Event} (hd : DistinctIds (broughtBy events)) :
    (run events).Ready :=
  (sound_run hd).ready hd (coherent_run events).linked (keyed_run events)

/-- The block of a cycle, and what it leaves. -/
structure Stores (ledger : Ledger) (block : Block) (after : Ledger) : Prop where
  transactions : block.transactions = ledger.assembled.accepted
  utxos : after.utxos = ledger.assembled.view ledger.utxos
  pending : after.pending = ledger.pending.filter (· ∉ ledger.assembled.accepted)

theorem Ready.generate_cases (h : ledger.Ready) (key : SecretKey) (stamp : Stamp) :
    (ledger.assembled.accepted = [] ∧ ledger.generate key stamp = .ok (none, ledger)) ∨
      (ledger.assembled.accepted ≠ [] ∧ ∃ block after, ledger.Stores block after ∧
        ledger.generate key stamp = .ok (some block, after)) ∨
      ledger.Clashes key stamp := by
  refine (Ledger.generate_cases h.reaches h.linked key stamp).imp_right (Or.imp_left ?_)
  rintro ⟨block, hne, hblock, hgenerate⟩
  refine ⟨hne, block, _, ⟨hblock, ?_, ?_⟩, hgenerate⟩
  · exact h.reaches.continues.utxos_apply ledger.tip? block
  · exact pending_apply h.keyed h.distinct (List.Subset.refl _) h.reaches.continues.consistent
      h.reaches.accepted ledger.tip? block

/-! ### Two cycles -/

/-- Ledgers with one chain that wait for the same transactions, in whatever order. -/
structure Alike (ledger other : Ledger) : Prop where
  blocks : ledger.blocks = other.blocks
  utxos : ledger.utxos = other.utxos
  pending : ledger.pending.Perm other.pending

/-- Two cycles come to the same. -/
structure SameOutcome (made made' : Option Block) (after after' : Ledger) : Prop where
  /-- Both make a block, of the same transactions, or neither does. -/
  blocks : Option.Rel (fun block block' => block.transactions.Perm block'.transactions) made made'
  /-- The same outputs are unspent. -/
  utxos : ∀ o, after.utxo? o = after'.utxo? o
  /-- The same transactions wait. -/
  pending : after.pending.Perm after'.pending

namespace Alike

theorem mem_assembled_iff (h : ledger.Alike other) (hc : ledger.Compatible ledger.pending)
    (hlawful : Lawful ledger.transactions ledger.utxos) (hchain : ledger.transactions ≠ [])
    (tx : Transaction) : tx ∈ ledger.assembled.accepted ↔ tx ∈ other.assembled.accepted := by
  have hassembled : other.assembled = ledger.assemble ledger.tip? .new other.pending := by
    rw [assembled, tip?, ← h.blocks, ← tip?, assemble_congr h.utxos]
  rw [hassembled]
  exact hc.mem_assemble_iff hlawful hchain h.pending tx

/-- Blocks of the same transactions leave the same. -/
theorem agree (h : ledger.Alike other) (hp : ledger.Continues ledger.assembled)
    (hq : other.Continues other.assembled)
    (hsame : ∀ tx, tx ∈ ledger.assembled.accepted ↔ tx ∈ other.assembled.accepted)
    {block block' : Block} {after after' : Ledger} (hs : ledger.Stores block after)
    (hs' : other.Stores block' after') : SameOutcome (some block) (some block') after after' := by
  refine ⟨.some ?_, fun o => ?_, ?_⟩
  · rw [hs.transactions, hs'.transactions]
    exact (List.perm_ext_iff_of_nodup hp.nodup_accepted hq.nodup_accepted).2 hsame
  · rw [utxo?, utxo?, hs.utxos, hs'.utxos]
    exact get?_view_congr hp hq h.utxos hsame o
  · rw [hs.pending, hs'.pending]
    simp only [hsame]
    exact h.pending.filter _

/-- **Two cycles come to the same** where nothing that waits is in the way of anything else. -/
theorem generate (h : ledger.Alike other) (hready : ledger.Ready) (hready' : other.Ready)
    (hc : ledger.Compatible ledger.pending) (hchain : ledger.transactions ≠ [])
    (key key' : SecretKey) (stamp stamp' : Stamp) :
    (∃ made made' after after', ledger.generate key stamp = .ok (made, after) ∧
      other.generate key' stamp' = .ok (made', after') ∧ SameOutcome made made' after after') ∨
      ledger.Clashes key stamp ∨ other.Clashes key' stamp' := by
  have hp := hready.reaches.continues
  have hsame := h.mem_assembled_iff hc hp.stored hchain
  have hempty : ledger.assembled.accepted = [] ↔ other.assembled.accepted = [] := by
    simp only [List.eq_nil_iff_forall_not_mem, hsame]
  rcases hready.generate_cases key stamp with
    ⟨hnil, hg⟩ | ⟨hne, block, after, hs, hg⟩ | hclash
  · rcases hready'.generate_cases key' stamp' with ⟨-, hg'⟩ | ⟨hne', -⟩ | hclash'
    · exact .inl ⟨none, none, ledger, other, hg, hg', .none, fun o => by rw [utxo?, h.utxos, utxo?],
        h.pending⟩
    · exact absurd (hempty.1 hnil) hne'
    · exact .inr (.inr hclash')
  · rcases hready'.generate_cases key' stamp' with
      ⟨hnil', -⟩ | ⟨-, block', after', hs', hg'⟩ | hclash'
    · exact absurd (hempty.2 hnil') hne
    · exact .inl ⟨some block, some block', after, after', hg, hg',
        h.agree hp hready'.reaches.continues hsame hs hs'⟩
    · exact .inr (.inr hclash')
  · exact .inr (.inl hclash)

end Alike

/-- **The order of arrival does not matter** without conflicts. Where two runs have stored one chain,
and what waits behind it is the same but for its order, shares no outpoint and fits into a block, their
cycles come to the same, unless a block cannot be told from the stored ones. -/
theorem generate_sameOutcome {events events' : List Event} (hd : DistinctIds (broughtBy events))
    (hd' : DistinctIds (broughtBy events')) (hblocks : (run events).blocks = (run events').blocks)
    (hne : (run events).blocks ≠ []) (hpending : (run events).pending.Perm (run events').pending)
    (hapart : ∀ tx ∈ (run events).pending, ∀ other ∈ (run events).pending, tx ≠ other →
      ∀ o ∈ tx.inpoints, o ∉ other.inpoints)
    (hroom : sumOf Codec.size (run events).pending ≤ Block.sizeLimit)
    (key key' : SecretKey) (stamp stamp' : Stamp) :
    (∃ made made' after after', (run events).generate key stamp = .ok (made, after) ∧
      (run events').generate key' stamp' = .ok (made', after') ∧ SameOutcome made made' after after') ∨
      (run events).Clashes key stamp ∨ (run events').Clashes key' stamp' := by
  have hsound := sound_run hd
  have htxs : (run events).transactions = (run events').transactions := by
    rw [transactions, hblocks, ← transactions]
  have hutxos : (run events).utxos = (run events').utxos := by
    have hreplay := hsound.lawful.replay?_eq
    rw [htxs, (sound_run hd').lawful.replay?_eq] at hreplay
    exact (Option.some.inj hreplay).symm
  have hchain : (run events).transactions ≠ [] := by
    obtain ⟨record, rest, hb⟩ := List.exists_cons_of_ne_nil hne
    have hrecord := hsound.nonempty record (hb ▸ List.mem_cons_self)
    simp [transactions, hb, hrecord]
  have hready := ready_run hd
  have hc : (run events).Compatible (run events).pending :=
    ⟨fun _ htx _ ho he => hsound.known hd htx ho he, hready.distinct, hapart, hroom⟩
  exact Alike.generate ⟨hblocks, hutxos, hpending⟩ hready (ready_run hd') hc hchain key key' stamp
    stamp'

end Ledger

end

/-! ### A payment and its child -/

namespace Payment

/-- The identifier of `spend`. -/
def spendId : TxId :=
  ⟨⟨bigEndian 32 0x0aa268448a789e0c135de9eeca70bf3f7810b228bf43e1bd60bd0b367fff9a53, by simp⟩⟩

/-- The owner's signature of `child`. -/
def childSignature : Signature where
  r := 0x7932af9ab60dffa0b1ed907c8bf5dfe04c05959c8349088505ceb28d8a6cc2c7
  s := 0x323fe3ae17c0ebce1cc9cc14319821258191cf802d1282a7e6414f3efc916e51

/-- The coins of `spend`, signed back to their owner once more. -/
def child : Transaction :=
  .ofBody <| .transfer
    { inputs := [⟨⟨spendId, 0⟩, [], finalSequence⟩]
      outputs := minting.outputs
      witnesses := [⟨[CryptoSuite.derBytes childSignature, CryptoSuite.publicKeyBytes owner]⟩]
      lockTime := 0 }

/-- Coins are minted, and transactions are queued behind them. -/
def waiting (txs : List Transaction) : List Event :=
  [.mint key ⟨0, 0⟩ 50 owner] ++ txs.map .queue

theorem blocks_waiting (txs : List Transaction) :
    (Ledger.run (waiting txs)).blocks = (Ledger.run [.mint key ⟨0, 0⟩ 50 owner]).blocks :=
  Ledger.blocks_run_queue _ txs

theorem ids_waiting (txs : List Transaction) :
    (Ledger.run (waiting txs)).blocks.map (·.id) = [mintedId] := by
  rw [blocks_waiting, ← blocks_waiting [spend]]
  exact stored.1.2

/-- The ledger that waits for a block with `spend`, and `child` behind it. -/
def parentFirst : Ledger :=
  Ledger.run (waiting [spend, child])

/-- The ledger that waits for a block with `child`, and `spend` behind it. -/
def childFirst : Ledger :=
  Ledger.run (waiting [child, spend])

/-- What the first pass over `childFirst` accepts, and what it leaves. -/
def firstPass : Pending × List Transaction :=
  childFirst.sweep childFirst.tip? .new [child, spend]

/-- One pass takes both transfers from `parentFirst`, and it takes two from `childFirst`. The three
transactions have different identifiers, and so do the two blocks. -/
theorem passes : ([minting, spend, child].map fun tx => tx.txid.toOption).Nodup ∧
    (parentFirst.pending = [spend, child] ∧
      (parentFirst.sweep parentFirst.tip? .new [spend, child]).2 = [] ∧
      (parentFirst.sweep parentFirst.tip? .new [spend, child]).1.accepted = [spend, child]) ∧
    (childFirst.pending = [child, spend] ∧ firstPass.2 = [child] ∧
      (childFirst.sweep childFirst.tip? firstPass.1 [child]).2 = [] ∧
      (childFirst.sweep childFirst.tip? firstPass.1 [child]).1.accepted = [spend, child]) ∧
    ∀ made ∈ (Block.make mintedId [spend, child] 1 0).toOption, made.id ≠ mintedId := by
  decide +kernel

theorem distinctIds_waiting {txs : List Transaction} (h : txs ⊆ [spend, child]) :
    DistinctIds (broughtBy (waiting txs)) := by
  have hbrought : broughtBy (waiting txs) = minting :: txs := by
    simp [broughtBy, waiting, List.flatMap_map, Event.brings, minting]
  have hsub : minting :: txs ⊆ [minting, spend, child] := List.cons_subset_cons _ h
  have hd := distinctIds_of_nodup passes.1
  rw [hbrought]
  exact fun a ha b hb => hd a (hsub ha) b (hsub hb)

theorem accepted_parentFirst : parentFirst.assembled.accepted = [spend, child] := by
  obtain ⟨-, ⟨hpending, hleft, haccepted⟩, -⟩ := passes
  rw [Ledger.assembled, hpending, Ledger.assemble_of_sweep hleft, haccepted]

theorem accepted_childFirst : childFirst.assembled.accepted = [spend, child] := by
  obtain ⟨-, -, ⟨hpending, hfirst, hleft, haccepted⟩, -⟩ := passes
  have hlt : firstPass.2.length < [child, spend].length := by
    rw [hfirst]
    exact Nat.one_lt_two
  have hpass : childFirst.assemble childFirst.tip? .new [child, spend] =
      childFirst.assemble childFirst.tip? firstPass.1 firstPass.2 := Ledger.assemble_of_sweep_lt hlt
  rw [Ledger.assembled, hpending, hpass, hfirst, Ledger.assemble_of_sweep hleft, haccepted]

theorem not_clashes_waiting {txs : List Transaction}
    (h : (Ledger.run (waiting txs)).assembled.accepted = [spend, child]) :
    ¬(Ledger.run (waiting txs)).Clashes key ⟨1, 0⟩ := by
  refine Ledger.not_clashes_of_single (Ledger.coherent_run _).linked (ids_waiting txs) (by decide) h
    fun made hmade => ?_
  obtain ⟨-, -, -, hnew⟩ := passes
  exact hnew made (by rw [hmade]; rfl)

end Payment

open Payment in
/-- A transfer and its child may wait either way round: both cycles store both. -/
theorem Ledger.generate_sameOutcome_payment :
    (parentFirst.pending = [spend, child] ∧ childFirst.pending = [child, spend] ∧
      parentFirst.assembled.accepted = [spend, child]) ∧
    ∃ made made' after after', parentFirst.generate key ⟨1, 0⟩ = .ok (made, after) ∧
      childFirst.generate key ⟨1, 0⟩ = .ok (made', after') ∧
        SameOutcome made made' after after' := by
  obtain ⟨-, ⟨hpending, -⟩, ⟨hpending', -⟩, -⟩ := passes
  refine ⟨⟨hpending, hpending', accepted_parentFirst⟩, ?_⟩
  have hblocks : parentFirst.blocks = childFirst.blocks :=
    (blocks_waiting [spend, child]).trans (blocks_waiting [child, spend]).symm
  have hne : parentFirst.blocks ≠ [] := by
    intro hnil
    have hids : parentFirst.blocks.map (·.id) = [mintedId] := ids_waiting [spend, child]
    simp [hnil] at hids
  have hperm : parentFirst.pending.Perm childFirst.pending := by
    rw [hpending, hpending']
    exact .swap child spend []
  have hapart : ∀ tx ∈ [spend, child], ∀ other ∈ [spend, child], tx ≠ other →
      ∀ o ∈ tx.inpoints, o ∉ other.inpoints := by
    decide +kernel
  have hroom : sumOf Codec.size [spend, child] ≤ Block.sizeLimit := by decide +kernel
  rw [← hpending] at hapart hroom
  have hcycles := generate_sameOutcome (distinctIds_waiting (List.Subset.refl [spend, child]))
    (distinctIds_waiting (List.Perm.swap spend child []).subset) hblocks hne hperm hapart hroom
    key key ⟨1, 0⟩ ⟨1, 0⟩
  exact hcycles.resolve_right fun hclash => hclash.elim (not_clashes_waiting accepted_parentFirst)
    (not_clashes_waiting accepted_childFirst)

end UtxoLedger
