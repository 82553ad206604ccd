import UtxoLedger.Proofs.Forks

/-!
What looking for an unspent outpoint tells, whatever blocks a tree has been given. The walk stops at the
newest transaction that has the outpoint's identifier or consumes the outpoint, and this one decides. It
does not ask whether there is an output at the index, nor, at one that consumes, whether the creator can
be seen, nor, at the creator, what stands before it. So it tells the truth exactly where every output is
addressed within its range and consumed behind its creator.
-/

namespace UtxoLedger

/-! ### The newest of a list -/

section Prevails

variable {α : Type} {win lose : α → Prop} {xs : List α}

/-- One of these wins, and none behind it loses it. -/
def Prevails (win lose : α → Prop) (xs : List α) : Prop :=
  ∃ pre x post, xs = pre ++ x :: post ∧ win x ∧ ∀ later ∈ post, ¬lose later

theorem not_prevails_nil : ¬Prevails win lose [] := by
  rintro ⟨pre, x, post, h, -⟩
  simp at h

/-- The last one wins, or leaves what has been won. -/
theorem prevails_concat {last : α} :
    Prevails win lose (xs ++ [last]) ↔ win last ∨ (Prevails win lose xs ∧ ¬lose last) := by
  constructor
  · rintro ⟨pre, x, post, h, hwin, hkept⟩
    rcases append_cons_eq_concat h.symm with ⟨-, rfl, -⟩ | ⟨post, rfl, hxs⟩
    · exact .inl hwin
    · obtain ⟨hpost, hlast⟩ := List.forall_mem_append.1 hkept
      exact .inr ⟨⟨pre, x, post, hxs.symm, hwin, hpost⟩, hlast last (List.mem_singleton_self last)⟩
  · rintro (hwin | ⟨⟨pre, x, post, rfl, hwin, hpost⟩, hlast⟩)
    · exact ⟨xs, last, [], rfl, hwin, fun _ h => by cases h⟩
    · refine ⟨pre, x, post ++ [last], by simp, hwin, ?_⟩
      exact List.forall_mem_append.2 ⟨hpost, List.forall_mem_singleton.2 hlast⟩

theorem Prevails.exists_mem (h : Prevails win lose xs) : ∃ x ∈ xs, win x := by
  obtain ⟨pre, x, post, rfl, hwin, -⟩ := h
  exact ⟨x, List.mem_append_right _ List.mem_cons_self, hwin⟩

theorem prevails_of_mem {x : α} (hx : x ∈ xs) (hwin : win x) (h : ∀ x ∈ xs, ¬lose x) :
    Prevails win lose xs := by
  obtain ⟨pre, post, rfl⟩ := List.append_of_mem hx
  exact ⟨pre, x, post, rfl, hwin,
    fun later hl => h later (List.mem_append_right _ (List.mem_cons_of_mem _ hl))⟩

end Prevails

section

variable [CryptoSuite]

namespace Transaction

/-- The transaction has the identifier of the outpoint. -/
def Named (o : Outpoint) (tx : Transaction) : Prop :=
  tx.txid = .ok o.txid

/-- The transaction consumes the outpoint, and does not have its identifier. -/
def Takes (o : Outpoint) (tx : Transaction) : Prop :=
  o ∈ tx.inpoints ∧ ¬tx.Named o

end Transaction

open Transaction (Named Takes)

namespace ChainStore

variable {o : Outpoint} {txs : List Transaction} {tx : Transaction}

/-! ### The walk -/

theorem tells_eq {id : TxId} (hid : tx.txid = .ok id) : (tx.Named o ∧ tx.tells o = .ok (some true)) ∨
    (tx.Takes o ∧ tx.tells o = .ok (some false)) ∨
      (¬tx.Named o ∧ o ∉ tx.inpoints ∧ tx.tells o = .ok none) := by
  rw [Transaction.tells, hid, Except.map, Takes, Named, hid, Except.ok.injEq]
  by_cases hnamed : id = o.txid
  · exact .inl ⟨hnamed, by rw [if_pos hnamed]⟩
  · by_cases hin : o ∈ tx.inpoints
    · exact .inr (.inl ⟨⟨hin, hnamed⟩, by simp [hnamed, hin]⟩)
    · exact .inr (.inr ⟨hnamed, hin, by simp [hnamed, hin]⟩)

/-- What a list of transactions tells of an outpoint. -/
structure Told (o : Outpoint) (txs : List Transaction) (answer : Option Bool) : Prop where
  unspent : answer = some true ↔ Prevails (Named o) (o ∈ ·.inpoints) txs
  spent : answer = some false ↔ Prevails (Takes o) (Named o) txs
  unknown : answer = none ↔ ∀ tx ∈ txs, ¬tx.Named o ∧ o ∉ tx.inpoints

/-- **The newest transaction with something to tell decides.** -/
theorem exists_told (hids : ∀ tx ∈ txs, ∃ id, tx.txid = .ok id) :
    ∃ answer, firstAnswer (Transaction.tells o) txs.reverse = .ok answer ∧ Told o txs answer := by
  induction txs using List.reverseRecOn with
  | nil => exact ⟨none, rfl, by simp [not_prevails_nil], by simp [not_prevails_nil], by simp⟩
  | append_singleton txs last ih =>
    obtain ⟨hbefore, hlast⟩ := List.forall_mem_append.1 hids
    obtain ⟨id, hid⟩ := List.forall_mem_singleton.1 hlast
    obtain ⟨answer, ha, htold⟩ := ih hbefore
    rw [firstAnswer_concat_reverse]
    rcases tells_eq (o := o) hid with ⟨hnamed, ht⟩ | ⟨htakes, ht⟩ | ⟨hnamed, hin, ht⟩ <;> rw [ht]
    · refine ⟨some true, rfl, ?_, ?_, ?_⟩
      · simp [prevails_concat, hnamed]
      · simp [prevails_concat, hnamed, Takes]
      · simp [hnamed]
    · refine ⟨some false, rfl, ?_, ?_, ?_⟩
      · simp [prevails_concat, htakes.1, htakes.2]
      · simp [prevails_concat, htakes]
      · simp [htakes.1]
    · refine ⟨answer, ha, ?_, ?_, ?_⟩
      · simp [prevails_concat, hnamed, hin, htold.unspent]
      · simp [prevails_concat, hnamed, hin, htold.spent, Takes]
      · rw [htold.unknown, List.forall_mem_append]
        simp [hnamed, hin]

/-- What the walk from a place answers. -/
structure LooksBack (store : ChainStore) (position : Position) (txs : List Transaction)
    (o : Outpoint) : Prop where
  /-- A transaction with the outpoint's identifier is there, and none behind it consumes the outpoint. -/
  unspent : store.unspentAt position o = .ok true ↔ Prevails (Named o) (o ∈ ·.inpoints) txs
  /-- A transaction consumes the outpoint, and neither it nor one behind it has its identifier. -/
  spent : store.unspentAt position o = .ok false ↔ Prevails (Takes o) (Named o) txs
  /-- None has its identifier, and none consumes it. -/
  unknown : store.unspentAt position o = .error (.utxoNotFound o) ↔
    ∀ tx ∈ txs, ¬tx.Named o ∧ o ∉ tx.inpoints
  /-- There is no other error. -/
  error : ∀ e, store.unspentAt position o = .error e → e = .utxoNotFound o

theorem Sees.looksBack {store : ChainStore} {position : Position}
    {history : List (Position × Transaction)} (hs : store.Sees position history)
    (hids : ∀ tx ∈ history.map Prod.snd, ∃ id, tx.txid = .ok id) (o : Outpoint) :
    store.LooksBack position (history.map Prod.snd) o := by
  obtain ⟨answer, ha, htold⟩ := exists_told hids (o := o)
  have hanswer : store.unspentAt position o =
      match answer with
      | none => .error (.utxoNotFound o)
      | some unspent => .ok unspent := by
    rw [← hs.search_eq] at ha
    unfold Transaction.tells at ha
    unfold unspentAt
    rw [ha]
    cases answer <;> rfl
  refine ⟨?_, ?_, ?_, ?_⟩
  · rw [← htold.unspent, hanswer]
    cases answer <;> simp
  · rw [← htold.spent, hanswer]
    cases answer <;> simp
  · rw [← htold.unknown, hanswer]
    cases answer <;> simp
  · rw [hanswer]
    cases answer <;> simp [eq_comm]

/-! ### The truth -/

/-- What is told of an outpoint is so: it is unspent if it has been created and not consumed, spent if
it has been created and consumed, and there is an error if nobody has created it. -/
structure Truthful (store : ChainStore) (position : Position) (txs : List Transaction)
    (o : Outpoint) : Prop where
  unspent : store.unspentAt position o = .ok true ↔
    (∃ creator ∈ txs, ∃ output, creator.Creates o output) ∧ ¬∃ tx ∈ txs, o ∈ tx.inpoints
  spent : store.unspentAt position o = .ok false ↔
    (∃ creator ∈ txs, ∃ output, creator.Creates o output) ∧ ∃ tx ∈ txs, o ∈ tx.inpoints
  unknown : (¬∃ creator ∈ txs, ∃ output, creator.Creates o output) →
    ∃ e, store.unspentAt position o = .error e

/-- The outpoint is addressed within the range of its creator's outputs, and if it is consumed, that is
behind its creator. -/
structure InOrder (txs : List Transaction) (o : Outpoint) : Prop where
  addressed : ∀ tx ∈ txs, tx.Named o → o.index.toNat < tx.outputs.length
  consumed : (∃ tx ∈ txs, o ∈ tx.inpoints) →
    (∃ tx ∈ txs, tx.Named o) ∧ Prevails (Takes o) (Named o) txs

theorem creates_iff : (∃ output, tx.Creates o output) ↔
    tx.Named o ∧ o.index.toNat < tx.outputs.length := by
  constructor
  · rintro ⟨output, hid, hget⟩
    exact ⟨hid, (List.getElem?_eq_some_iff.1 hget).1⟩
  · rintro ⟨hid, hlt⟩
    exact ⟨_, hid, List.getElem?_eq_getElem hlt⟩

namespace LooksBack

variable {store : ChainStore} {position : Position}

/-- Where outpoints are in order, the walk tells the truth. -/
theorem truthful (h : store.LooksBack position txs o) (ho : InOrder txs o) :
    store.Truthful position txs o := by
  have hcreated : (∃ creator ∈ txs, ∃ output, creator.Creates o output) ↔ ∃ tx ∈ txs, tx.Named o := by
    simp only [creates_iff]
    constructor
    · rintro ⟨tx, hmem, hnamed, -⟩
      exact ⟨tx, hmem, hnamed⟩
    · rintro ⟨tx, hmem, hnamed⟩
      exact ⟨tx, hmem, hnamed, ho.addressed tx hmem hnamed⟩
  refine ⟨?_, ?_, ?_⟩
  · rw [hcreated]
    constructor
    · intro htrue
      refine ⟨(h.unspent.1 htrue).exists_mem, fun hconsumed => ?_⟩
      rw [h.spent.2 (ho.consumed hconsumed).2] at htrue
      cases htrue
    · rintro ⟨⟨tx, hmem, hnamed⟩, hfree⟩
      refine h.unspent.2 (prevails_of_mem hmem hnamed fun other hother hin => ?_)
      exact hfree ⟨other, hother, hin⟩
  · rw [hcreated]
    constructor
    · intro hfalse
      obtain ⟨tx, hmem, hin, -⟩ := (h.spent.1 hfalse).exists_mem
      exact ⟨(ho.consumed ⟨tx, hmem, hin⟩).1, tx, hmem, hin⟩
    · rintro ⟨-, hconsumed⟩
      exact h.spent.2 (ho.consumed hconsumed).2
  · rw [hcreated]
    intro hnone
    refine ⟨_, h.unknown.2 fun tx hmem => ⟨fun hnamed => hnone ⟨tx, hmem, hnamed⟩, fun hin => ?_⟩⟩
    exact hnone (ho.consumed ⟨tx, hmem, hin⟩).1

/-- Where the walk tells the truth, outpoints are in order. -/
theorem inOrder (h : store.LooksBack position txs o) (hd : DistinctIds txs)
    (ht : store.Truthful position txs o) : InOrder txs o := by
  have hknown : ∀ tx ∈ txs, tx.Named o ∨ o ∈ tx.inpoints →
      ∃ creator ∈ txs, ∃ output, creator.Creates o output := by
    intro tx hmem hsome
    by_contra hnone
    obtain ⟨e, he⟩ := ht.unknown hnone
    obtain rfl := h.error e he
    obtain ⟨hnamed, hin⟩ := h.unknown.1 he tx hmem
    exact hsome.elim hnamed hin
  constructor
  · intro tx hmem hnamed
    obtain ⟨creator, hcreator, hcreates⟩ := hknown tx hmem (.inl hnamed)
    obtain ⟨hnamed', hlt⟩ := creates_iff.1 hcreates
    rwa [hd tx hmem creator hcreator o.txid hnamed hnamed']
  · rintro ⟨tx, hmem, hin⟩
    have hcreated := hknown tx hmem (.inr hin)
    obtain ⟨creator, hcreator, hcreates⟩ := id hcreated
    exact ⟨⟨creator, hcreator, (creates_iff.1 hcreates).1⟩,
      h.spent.1 (ht.spent.2 ⟨hcreated, tx, hmem, hin⟩)⟩

end LooksBack

/-- **Looking for an unspent outpoint, exactly.** Whatever blocks a tree has been given, from every place
in a stored block the newest visible transaction that has the outpoint's identifier or consumes it
decides; what is told is so exactly if the outpoint is addressed within its creator's outputs and, if it
is consumed at all, this is so behind its creator. -/
theorem looksBack_grown {blocks : List Block} (hd : DistinctIds (blocks.flatMap (·.transactions)))
    {position : Position} {stored : StoredBlock}
    (hb : (grown blocks).block? position.block = some stored)
    (hi : position.index ≤ stored.block.transactions.length) :
    ∃ history, (grown blocks).Sees position history ∧ ∀ o,
      (grown blocks).LooksBack position (history.map Prod.snd) o ∧
        ((grown blocks).Truthful position (history.map Prod.snd) o ↔
          InOrder (history.map Prod.snd) o) := by
  have hg := grownBy_grown blocks
  obtain ⟨history, hs⟩ := hg.exists_sees hb hi
  have hgiven : history.map Prod.snd ⊆ blocks.flatMap (·.transactions) :=
    fun _ hmem => (hg.mem_given hs hmem).1
  refine ⟨history, hs, fun o => ?_⟩
  have hlooks := hs.looksBack (fun _ hmem => (hg.mem_given hs hmem).2) o
  exact ⟨hlooks, hlooks.inOrder (hd.subset hgiven), hlooks.truthful⟩

end ChainStore

end

/-! ### The coins, in order and out of order -/

namespace Payment

theorem block?_fork : (ChainStore.grown fork).block? rootId = some ⟨root, 0⟩ := by
  rw [ChainStore.block?, Table.get?, blocks_fork]
  rfl

theorem distinctIds_fork : DistinctIds (fork.flatMap (·.transactions)) := by
  have hbrought : ∀ tx ∈ fork.flatMap (·.transactions), tx ∈ broughtBy events := by
    simp [fork, root, left, right, blockOf, broughtBy, events, opening, Event.brings, minting]
  exact distinctIds.subset hbrought

/-- `spend` consumes an output of `minting`. -/
theorem txid_minting : minting.txid = .ok mintingId := by
  obtain ⟨utxos, hlawful, t, previous, hspends⟩ := exists_spends
  have hin : (⟨mintingId, 0⟩ : Outpoint) ∈ spend.inpoints := List.mem_singleton_self _
  obtain ⟨creator, hmem, hid⟩ :=
    hlawful.exists_txid_of_mem_keys (hspends.mem_keys_of_mem_inpoints hin)
  rwa [List.mem_singleton.1 hmem] at hid

theorem txid_spend_ne : spend.txid ≠ .ok mintingId := by
  intro hid
  have hsame : minting = spend :=
    distinctIds minting List.mem_cons_self spend (List.mem_cons_of_mem _ List.mem_cons_self)
      mintingId txid_minting hid
  cases hsame

/-- A first block in which the coins are spent before they are minted. -/
def backwards : Block :=
  ⟨root.header, [spend, minting]⟩

/-- It is stored: all that is asked of its transactions is that they have identifiers. -/
theorem block?_backwards : (ChainStore.grown [backwards]).block? rootId = some ⟨backwards, 0⟩ := by
  have hnamed : ∀ tx ∈ backwards.transactions, ∃ named, ChainStore.identified tx = .ok named := by
    intro tx htx
    have hlawful := (Ledger.sound_run distinctIds).lawful
    rw [transactions_run] at hlawful
    obtain ⟨id, hid⟩ := hlawful.txid_eq_ok (List.mem_pair.2 (List.mem_pair.1 htx).symm)
    exact ⟨(id, tx), by rw [ChainStore.identified, hid]; rfl⟩
  obtain ⟨named, hmap⟩ := exists_mapM_eq_ok hnamed
  have hadd := ChainStore.add_eq_ok_iff.2
    ⟨(rfl : ChainStore.empty.heightOf backwards = .ok 0), List.not_mem_nil, named, hmap, rfl⟩
  have hgrown : ChainStore.grown [backwards] = ChainStore.empty.grow backwards := rfl
  have hid : root.id = rootId :=
    (ChainStore.grownBy_grown fork).keyed rootId ⟨root, 0⟩ block?_fork
  rw [hgrown, ChainStore.grow, hadd]
  exact (ChainStore.block?_of_add hadd).2 (.inr ⟨hid.symm, rfl⟩)

end Payment

open Payment ChainStore in
/-- Behind the block that mints the coins, the truth is told of the first output, and it is not of a
second one, which is not there. -/
theorem ChainStore.looksBack_fork : ∃ history, (grown fork).Sees ⟨rootId, 1⟩ history ∧
    (grown fork).Truthful ⟨rootId, 1⟩ (history.map Prod.snd) ⟨mintingId, 0⟩ ∧
    ¬(grown fork).Truthful ⟨rootId, 1⟩ (history.map Prod.snd) ⟨mintingId, 1⟩ := by
  have hin : (1 : Nat) ≤ root.transactions.length := by decide
  obtain ⟨history, hs, hall⟩ :=
    @looksBack_grown _ _ distinctIds_fork ⟨rootId, 1⟩ _ block?_fork hin
  have hsees : (grown fork).Sees ⟨rootId, 1⟩ [(⟨rootId, 0⟩, minting)] :=
    .inside (by decide) block?_fork (by decide) (.nil (by decide))
  obtain rfl := hs.unique hsees
  refine ⟨_, hs, (hall ⟨mintingId, 0⟩).2.2 ⟨?_, ?_⟩, ?_⟩
  · intro tx htx _
    rw [List.mem_singleton.1 htx]
    decide
  · rintro ⟨tx, htx, hin⟩
    rw [List.mem_singleton.1 htx] at hin
    cases hin
  · intro ht
    have hlt := ((hall ⟨mintingId, 1⟩).2.1 ht).addressed minting (List.mem_singleton_self _)
      txid_minting
    exact absurd hlt (by decide)

open Payment ChainStore in
/-- A first block may spend coins before it mints them. Then they are told to be unspent behind it, and
to be spent where only the spend can be seen; and a second output, which is not there, is told to be
unspent. Nothing of this is so. -/
theorem ChainStore.not_truthful_backwards :
    (grown [backwards]).Sees ⟨rootId, 2⟩ [(⟨rootId, 0⟩, spend), (⟨rootId, 1⟩, minting)] ∧
    (grown [backwards]).Sees ⟨rootId, 1⟩ [(⟨rootId, 0⟩, spend)] ∧
    ((grown [backwards]).unspentAt ⟨rootId, 2⟩ ⟨mintingId, 0⟩ = .ok true ∧
      ¬(grown [backwards]).Truthful ⟨rootId, 2⟩ [spend, minting] ⟨mintingId, 0⟩) ∧
    ((grown [backwards]).unspentAt ⟨rootId, 1⟩ ⟨mintingId, 0⟩ = .ok false ∧
      ¬(grown [backwards]).Truthful ⟨rootId, 1⟩ [spend] ⟨mintingId, 0⟩) ∧
    ((grown [backwards]).unspentAt ⟨rootId, 2⟩ ⟨mintingId, 1⟩ = .ok true ∧
      ¬(grown [backwards]).Truthful ⟨rootId, 2⟩ [spend, minting] ⟨mintingId, 1⟩) := by
  have hblock := block?_backwards
  have hboth : (grown [backwards]).Sees ⟨rootId, 2⟩ [(⟨rootId, 0⟩, spend), (⟨rootId, 1⟩, minting)] :=
    .inside (by decide) hblock (by decide) (.nil (by decide))
  have hone : (grown [backwards]).Sees ⟨rootId, 1⟩ [(⟨rootId, 0⟩, spend)] :=
    .inside (by decide) hblock (by decide) (.nil (by decide))
  have hgrown := grownBy_grown [backwards]
  have hlooks := fun o => hboth.looksBack (fun _ hmem => (hgrown.mem_given hboth hmem).2) o
  have hlooks' := fun o => hone.looksBack (fun _ hmem => (hgrown.mem_given hone hmem).2) o
  -- `minting` is the newest of both, with nothing behind it
  have hminted : ∀ index, (grown [backwards]).unspentAt ⟨rootId, 2⟩ ⟨mintingId, index⟩ = .ok true :=
    fun index => (hlooks ⟨mintingId, index⟩).unspent.2
      ⟨[spend], minting, [], rfl, txid_minting, fun _ hlater => by cases hlater⟩
  have htakes : spend.Takes ⟨mintingId, 0⟩ := ⟨List.mem_singleton_self _, txid_spend_ne⟩
  have hspent : (grown [backwards]).unspentAt ⟨rootId, 1⟩ ⟨mintingId, 0⟩ = .ok false :=
    (hlooks' ⟨mintingId, 0⟩).spent.2 ⟨[], spend, [], rfl, htakes, fun _ hlater => by cases hlater⟩
  refine ⟨hboth, hone, ⟨hminted 0, ?_⟩, ⟨hspent, ?_⟩, hminted 1, ?_⟩
  · intro ht
    exact (ht.unspent.1 (hminted 0)).2 ⟨spend, List.mem_cons_self, htakes.1⟩
  · intro ht
    obtain ⟨creator, hmem, hcreates⟩ := (ht.spent.1 hspent).1
    rw [List.mem_singleton.1 hmem, creates_iff] at hcreates
    exact txid_spend_ne hcreates.1
  · intro ht
    obtain ⟨creator, hmem, hcreates⟩ := (ht.unspent.1 (hminted 1)).1
    have hlt := (creates_iff.1 hcreates).2
    rcases List.mem_pair.1 hmem with rfl | rfl <;> exact absurd hlt (by decide)

end UtxoLedger
