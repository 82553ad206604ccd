import UtxoLedger.Proofs.Growth
import UtxoLedger.Proofs.Run
import UtxoLedger.Proofs.Visible
import Mathlib.Data.List.Induction

/-!
Every fork of a tree of blocks is sound by itself. Storing a block checks only how it hangs together
with the tree, and a transaction is checked at its place by walks that start at the newest
transaction. Where all that can be seen from a place has passed these checks, each transaction at its
own place, it is a lawful chain, and the walks give what replay of it leaves.
-/

namespace UtxoLedger

namespace ChainStore

section

variable {store : ChainStore} {given : List Block} {position : Position}
  {history : List (Position × Transaction)} {tx : Transaction}

/-! ### One transaction -/

/-- What stands before the place of a genesis transaction: nothing. -/
theorem Sees.eq_nil_of_checkGenesisPosition (hs : store.Sees position history)
    (hg : store.checkGenesisPosition position = .ok ()) : history = [] := by
  obtain ⟨stored, hb, hfirst, -, hindex, -⟩ := checkGenesisPosition_eq_ok_iff.1 hg
  cases hs with
  | nothing => rfl
  | inside hz hb' hle hbelow =>
    obtain rfl := Option.some.inj (hb.symm.trans hb')
    obtain rfl := hindex
    cases hbelow with
    | nil => simp
    | snoc hz' => exact absurd (hfirst.symm.trans hz') (by simp)

variable [CryptoSuite]

/-- **A transaction that passes at its place continues the lawful chain before it.** -/
theorem Sees.exists_admits (hs : store.Sees position history) {utxos : Utxos}
    (h : Lawful (history.map Prod.snd) utxos) (hv : store.checkTransaction position tx = .ok ())
    {id : TxId} (hid : tx.txid = .ok id)
    (hknown : ∀ other ∈ history.map Prod.snd, other.txid = .ok id → other = tx) :
    ∃ after, Admits (history.map Prod.snd) utxos tx after := by
  have hkind := (checkTransaction_eq_ok_iff hs h).1 hv
  have hrules : tx.checkRules = .ok () := by
    rcases hkind with ⟨-, hr, -⟩ | ⟨t, previous, hsp⟩
    · exact hr
    · exact hsp.rules
  have hlen := (Transaction.checkStructure_eq_ok_iff.1
    (Transaction.checkRules_eq_ok_iff.1 hrules).1).2.2.2
  have hout := Transaction.outpoints_eq_ok_iff.2 ⟨hlen, id, hid, rfl⟩
  rcases hkind with ⟨hg, -, hplace⟩ | ⟨t, previous, hsp⟩
  · obtain rfl := hs.eq_nil_of_checkGenesisPosition hplace
    exact h.exists_admits hout (by simp) (.inl ⟨rfl, hg⟩)
  · refine h.exists_admits hout (fun other hmem he => ?_) (.inr ⟨t, previous, hsp⟩)
    -- whatever has its identifier would be the transaction itself
    obtain rfl := hknown other hmem (he.trans hid)
    exact h.notMem_of_spends hsp hmem

/-! ### A whole history -/

namespace GrownBy

theorem mem_given_of_branch (h : store.GrownBy given) {id : BlockId}
    {branch : List (BlockId × StoredBlock)} (hb : store.Branch id branch)
    (hmem : tx ∈ transactionsOf branch) :
    tx ∈ given.flatMap (·.transactions) ∧ ∃ txid, tx.txid = .ok txid := by
  obtain ⟨e, he, htx⟩ := List.mem_flatMap.1 hmem
  obtain ⟨below, above, rfl⟩ := List.append_of_mem he
  obtain ⟨-, hstored, -⟩ := hb.split
  exact ⟨List.mem_flatMap.2 ⟨e.2.block, h.given _ _ hstored, htx⟩, h.named _ _ hstored tx htx⟩

/-- What can be seen has been given, and it has identifiers. -/
theorem mem_given (h : store.GrownBy given) (hs : store.Sees position history)
    (hmem : tx ∈ history.map Prod.snd) :
    tx ∈ given.flatMap (·.transactions) ∧ ∃ txid, tx.txid = .ok txid := by
  cases hs with
  | nothing => cases hmem
  | @inside id stored below index hz hb hle hbelow =>
    rw [map_snd_inside] at hmem
    refine h.mem_given_of_branch (.snoc hz hb hbelow) ?_
    rw [transactionsOf, List.flatMap_append, List.flatMap_singleton]
    rcases List.mem_append.1 hmem with hmem | hmem
    · exact List.mem_append_left _ hmem
    · exact List.mem_append_right _ (List.mem_of_mem_take hmem)

/-- **A history whose transactions pass at their places is lawful.** -/
theorem exists_lawful (h : store.GrownBy given) (hd : DistinctIds (given.flatMap (·.transactions)))
    (hs : store.Sees position history)
    (hv : ∀ e ∈ history, store.checkTransaction e.1 e.2 = .ok ()) :
    ∃ utxos, Lawful (history.map Prod.snd) utxos := by
  induction history using List.reverseRecOn generalizing position with
  | nil => exact ⟨.empty, .nil⟩
  | append_singleton history e ih =>
    have hbefore : store.Sees e.1 history := hs.split
    obtain ⟨utxos, hl⟩ := ih hbefore fun e' he' => hv e' (List.mem_append_left _ he')
    have hlast : e.2 ∈ (history ++ [e]).map Prod.snd := by simp
    obtain ⟨hgiven, id, hid⟩ := h.mem_given hs hlast
    have hknown : ∀ other ∈ history.map Prod.snd, other.txid = .ok id → other = e.2 := fun other ho he =>
      hd other (h.mem_given hbefore ho).1 e.2 hgiven id he hid
    obtain ⟨after, step⟩ := hbefore.exists_admits hl (hv e (by simp)) hid hknown
    exact ⟨after, by simpa using hl.snoc step⟩

end GrownBy

/-- What a history that can be seen from a place settles, with `utxos` left. -/
structure Settles (store : ChainStore) (position : Position)
    (history : List (Position × Transaction)) (utxos : Utxos) : Prop where
  /-- Every input finds its outpoint, every output finds its outpoint free, and this is left. -/
  replay : replay? (history.map Prod.snd) = some utxos
  /-- No outpoint is consumed twice. -/
  inpoints : ((history.map Prod.snd).flatMap Transaction.inpoints).Nodup
  /-- No transaction comes twice. -/
  transactions : (history.map Prod.snd).Nodup
  /-- The coins are those that the one genesis transaction minted. -/
  supply : (history = [] ∧ utxos = .empty) ∨ ∃ first rest,
    history.map Prod.snd = first :: rest ∧ first.isGenesis = true ∧
      (∀ tx ∈ rest, tx.kind = .transfer) ∧ totalValue utxos.values = first.outputValue
  /-- An outpoint that has been created is unspent exactly if it is left. -/
  unspent : ∀ creator ∈ history.map Prod.snd, ∀ o output, creator.Creates o output →
    store.unspentAt position o = .ok (utxos.contains o)

/-- **Every fork is sound.** Whatever blocks a tree has been given, and however they fork: where each
transaction that can be seen from a place passes at its own place, replay of them succeeds, and what
it leaves is what is unspent there. -/
theorem settles_grown {blocks : List Block} (hd : DistinctIds (blocks.flatMap (·.transactions)))
    (hs : (grown blocks).Sees position history)
    (hv : ∀ e ∈ history, (grown blocks).checkTransaction e.1 e.2 = .ok ()) :
    ∃ utxos, (grown blocks).Settles position history utxos := by
  obtain ⟨utxos, h⟩ := (grownBy_grown blocks).exists_lawful hd hs hv
  refine ⟨utxos, h.replay?_eq, h.nodup_inpoints, h.nodup, ?_, fun creator hmem o output hc =>
    unspentAt_of_creates hs h hmem hc⟩
  rcases h.eq_nil_or_genesis_cons with hnil | ⟨first, rest, hcons, hg, hrest⟩
  · rw [hnil] at h
    exact .inl ⟨List.map_eq_nil_iff.1 hnil, h.eq_empty⟩
  · exact .inr ⟨first, rest, hcons, hg, hrest, h.totalValue_eq (by rw [hcons]; rfl)⟩

end

end ChainStore

/-! ### A fork -/

namespace Payment

/-- A block with one transaction, without a seal. -/
def blockOf (previous : BlockId) (tx : Transaction) (random : UInt64) : Block :=
  ⟨⟨Block.currentVersion, previous, .zero, 0, .zero, random⟩, [tx]⟩

def rootId : BlockId :=
  ⟨⟨bigEndian 32 0x9f54dbfe94217c473e9acd5f52303d85ce1ef5e563a7e55b378ad555089fdd4d, by simp⟩⟩

def leftId : BlockId :=
  ⟨⟨bigEndian 32 0xbdce2039b576c13393fee47e4bf399a871cb6fdc5631bc449d69917302404186, by simp⟩⟩

def rightId : BlockId :=
  ⟨⟨bigEndian 32 0x6cce609d569c21b90875b006d3194e581d1d720e6236b32435d7e84567e162b8, by simp⟩⟩

/-- A block that mints the coins. -/
def root : Block :=
  blockOf .zero minting 0

/-- A block over `root` that spends the coins. -/
def left : Block :=
  blockOf rootId spend 0

/-- Another block over `root` that spends them. -/
def right : Block :=
  blockOf rootId spend 1

/-- The three blocks, the first of them twice. -/
def fork : List Block :=
  [root, left, root, right]

theorem blocks_fork : (ChainStore.grown fork).blocks.entries =
    [(rootId, ⟨root, 0⟩), (leftId, ⟨left, 1⟩), (rightId, ⟨right, 1⟩)] := by
  decide +kernel

/-- The history behind `right`. -/
def rightHistory : List (Position × Transaction) :=
  [(⟨rootId, 0⟩, minting), (⟨rightId, 0⟩, spend)]

end Payment

open Payment ChainStore in
/-- Both blocks of a fork spend the same coins; behind one of them they are spent once. -/
theorem ChainStore.settles_fork : (grown fork).blocks.size = 3 ∧
    ∃ utxos, (grown fork).Settles ⟨rightId, 1⟩ rightHistory utxos := by
  have hblock : ∀ id, (grown fork).block? id =
      (([(rootId, ⟨root, 0⟩), (leftId, ⟨left, 1⟩), (rightId, ⟨right, 1⟩)] :
        List (BlockId × StoredBlock)).find? fun e => e.1 = id).map Prod.snd := fun id => by
    rw [block?, Table.get?, blocks_fork]
  have hroot : (grown fork).block? rootId = some ⟨root, 0⟩ := by
    rw [hblock]
    decide +kernel
  have hright : (grown fork).block? rightId = some ⟨right, 1⟩ := by
    rw [hblock]
    decide +kernel
  have hbelow : (grown fork).Branch rootId ([] ++ [(rootId, ⟨root, 0⟩)]) :=
    .snoc (by decide) hroot (.nil (by decide))
  have hs : (grown fork).Sees ⟨rightId, 1⟩ rightHistory :=
    .inside (by decide) hright (by decide) hbelow
  have hd : DistinctIds (fork.flatMap (·.transactions)) := by
    intro a ha b hb
    have hm : ∀ tx ∈ fork.flatMap (·.transactions), tx ∈ broughtBy events := by
      simp [fork, root, left, right, blockOf, broughtBy, events, opening, Event.brings, minting]
    exact distinctIds a (hm a ha) b (hm b hb)
  refine ⟨by rw [Table.size, blocks_fork]; rfl, settles_grown hd hs fun e he => ?_⟩
  have hnone : (grown fork).Sees ⟨rootId, 0⟩ [] :=
    .inside (by decide) hroot (by decide) (.nil (by decide))
  have hfirst : (grown fork).Sees ⟨rightId, 0⟩ [(⟨rootId, 0⟩, minting)] :=
    .inside (by decide) hright (by decide) hbelow
  rcases List.mem_pair.1 he with rfl | rfl
  · rw [checkTransaction_eq_ok_iff hnone .nil]
    refine .inl ⟨rfl, by decide +kernel, checkGenesisPosition_eq_ok_iff.2 ?_⟩
    exact ⟨⟨root, 0⟩, hroot, by decide, rfl, rfl, rfl⟩
  · -- the ledger has checked the spend already
    obtain ⟨utxos, hbefore, hspends⟩ := exists_spends
    exact (checkTransaction_eq_ok_iff hfirst hbefore).2 (.inr hspends)

end UtxoLedger
