import UtxoLedger.Crypto.Standard
import UtxoLedger.Proofs.Mining

/-!
Runs of a ledger: any series of queueing, dropping, minting and mining from the empty ledger on,
where an event that fails changes nothing. Every run of transactions that their identifiers tell
apart keeps a lawful chain whose unspent outputs are the confirmed ones.
-/

namespace UtxoLedger

section

variable [CryptoSuite]

/-! ### Events -/

/-- What may happen to a ledger. -/
inductive Event where
  /-- A transaction is queued. -/
  | queue (tx : Transaction)
  /-- A pending transaction is dropped. -/
  | drop (id : TxId)
  /-- The first block is asked for. -/
  | mint (key : SecretKey) (stamp : Stamp) (coins : UInt32) (owner : PublicKey)
  /-- A mining cycle. -/
  | generate (key : SecretKey) (stamp : Stamp)

namespace Event

/-- The transactions that an event brings up. -/
def brings : Event → List Transaction
  | queue tx => [tx]
  | drop _ => []
  | mint _ _ coins owner => [Ledger.mintingTx coins owner]
  | generate _ _ => []

end Event

/-- The transactions that a series of events brings up. -/
def broughtBy (events : List Event) : List Transaction :=
  events.flatMap Event.brings

/-- Identifiers tell transactions apart. -/
def DistinctIds (txs : List Transaction) : Prop :=
  ∀ a ∈ txs, ∀ b ∈ txs, ∀ id, a.txid = .ok id → b.txid = .ok id → a = b

theorem distinctIds_of_nodup {txs : List Transaction}
    (h : (txs.map fun tx => tx.txid.toOption).Nodup) : DistinctIds txs := by
  intro a ha b hb id hida hidb
  exact List.inj_on_of_nodup_map h ha hb (by rw [hida, hidb])

theorem DistinctIds.subset {txs sub : List Transaction} (h : DistinctIds txs) (hs : sub ⊆ txs) :
    DistinctIds sub :=
  fun a ha b hb => h a (hs ha) b (hs hb)

namespace Ledger

/-- The ledger that an operation leaves: the one before it if it fails. -/
def settled {α : Type} (ledger : Ledger) : Except Error (α × Ledger) → Ledger
  | .ok (_, after) => after
  | .error _ => ledger

/-- The ledger after an event. -/
def next (ledger : Ledger) : Event → Ledger
  | .queue tx => ledger.settled (ledger.queue tx)
  | .drop id => ledger.drop id
  | .mint key stamp coins owner => ledger.settled (ledger.mintGenesis key stamp coins owner)
  | .generate key stamp => ledger.settled (ledger.generate key stamp)

/-- The ledger after a series of events, from the empty one on. -/
def run (events : List Event) : Ledger :=
  events.foldl next .empty

/-! ### What a run keeps -/

/-- What holds throughout a run that brings up `brought`. -/
structure Sound (brought : List Transaction) (ledger : Ledger) : Prop where
  /-- The confirmed outputs are what the stored chain leaves. -/
  lawful : Lawful ledger.transactions ledger.utxos
  /-- The heights count the blocks. -/
  heights : ledger.blocks.map (·.height) = List.range ledger.blocks.length
  /-- No block is empty. -/
  nonempty : ∀ record ∈ ledger.blocks, record.block.transactions ≠ []
  /-- The first block holds one transaction. -/
  alone : ∀ record ∈ ledger.blocks.head?, record.block.transactions.length = 1
  /-- What is stored has been brought up. -/
  mined : ∀ tx ∈ ledger.transactions, tx ∈ brought
  /-- What waits has been brought up. -/
  waiting : ∀ tx ∈ ledger.pending, tx ∈ brought

theorem sound_empty (brought : List Transaction) : Ledger.empty.Sound brought where
  lawful := .nil
  heights := rfl
  nonempty _ h := by cases h
  alone _ h := by cases h
  mined _ h := by cases h
  waiting _ h := by cases h

namespace Sound

variable {brought : List Transaction} {ledger after : Ledger} {p : Pending} {key : SecretKey}
  {stamp : Stamp} {block : Block} {tx : Transaction}

/-- Stored and waiting transactions are told apart. -/
theorem known (h : ledger.Sound brought) (hd : DistinctIds brought) (htx : tx ∈ ledger.pending)
    {other : Transaction} (ho : other ∈ ledger.transactions) (he : other.txid = tx.txid) :
    other = tx := by
  obtain ⟨id, hid⟩ := h.lawful.txid_eq_ok ho
  exact hd other (h.mined other ho) tx (h.waiting tx htx) id hid (he ▸ hid)

theorem height_tip (h : ledger.Sound brought) :
    (ledger.tip?.map (·.height + 1)).getD 0 = ledger.blocks.length := by
  have hg := congrArg List.getLast? h.heights
  rw [List.getLast?_map] at hg
  rw [tip?]
  rcases hb : ledger.blocks.getLast? with _ | tip
  · rw [List.getLast?_eq_none_iff.1 hb]
    rfl
  · rw [hb, List.getLast?_range] at hg
    split at hg
    · cases hg
    · simp at hg
      simp
      omega

/-- A committed block. -/
theorem commitPending (h : ledger.Sound brought) (hp : ledger.Continues p) (hne : p.accepted ≠ [])
    (hb : ∀ tx ∈ p.accepted, tx ∈ brought)
    (hc : ledger.commitPending key stamp ledger.tip? p = .ok (block, after)) :
    after.Sound brought := by
  obtain ⟨hblock, rfl⟩ := commitPending_eq_ok hc
  set c := p.commit ledger.tip? block with hcdef
  have hrecord : c.record.block.transactions = p.accepted := hblock
  have htxs : (ledger.apply c).transactions = ledger.transactions ++ p.accepted := by
    rw [transactions_apply, hrecord]
  have hblocks : (ledger.apply c).blocks = ledger.blocks ++ [c.record] := rfl
  refine ⟨?_, ?_, ?_, ?_, ?_, ?_⟩
  · rw [htxs, hp.utxos_apply]
    exact hp.lawful
  · have hheight : c.record.height = ledger.blocks.length := h.height_tip
    rw [hblocks, List.map_append, h.heights]
    simp [hheight, List.range_succ]
  · intro record hr
    rw [hblocks] at hr
    rcases List.mem_append.1 hr with hr | hr
    · exact h.nonempty record hr
    · rw [List.mem_singleton.1 hr, hrecord]
      exact hne
  · intro record hr
    rw [hblocks] at hr
    -- the new block is the first one only where there was none
    cases hl : ledger.blocks with
    | nil =>
      obtain rfl : c.record = record := by simpa [hl] using hr
      rw [hrecord]
      have := List.length_pos_iff.2 hne
      have := hp.alone hl
      omega
    | cons first rest => exact h.alone record (by simpa [hl] using hr)
  · intro tx htx
    rw [htxs] at htx
    rcases List.mem_append.1 htx with htx | htx
    · exact h.mined tx htx
    · exact hb tx htx
  · intro tx htx
    refine h.waiting tx ?_
    change tx ∈ (ledger.mempool.eraseMany c.mined).values at htx
    rw [Table.eraseMany_eq_without] at htx
    exact (List.filter_sublist.map Prod.snd).subset htx

theorem queue (h : ledger.Sound brought) (ht : tx ∈ brought) :
    (ledger.settled (ledger.queue tx)).Sound brought := by
  unfold Ledger.queue
  cases tx.txid with
  | error e => exact h
  | ok id =>
    cases hc : ledger.mempool.contains id with
    | true => simpa [hc, settled] using h
    | false =>
      simp only [hc, settled]
      refine ⟨h.lawful, h.heights, h.nonempty, h.alone, h.mined, fun tx' htx' => ?_⟩
      change tx' ∈ (ledger.mempool.insert id tx).values at htx'
      rw [Table.insert_eq_extend (Table.contains_eq_false_iff.1 hc)] at htx'
      rcases by simpa [Table.extend, Table.values] using htx' with ⟨id', hm⟩ | rfl
      · exact h.waiting tx' (List.mem_map_of_mem hm)
      · exact ht

theorem drop (h : ledger.Sound brought) (id : TxId) : (ledger.drop id).Sound brought := by
  refine ⟨h.lawful, h.heights, h.nonempty, h.alone, h.mined, fun tx htx => h.waiting tx ?_⟩
  exact (List.filter_sublist.map Prod.snd).subset htx

theorem mint (h : ledger.Sound brought) {coins : UInt32} {owner : PublicKey}
    (ht : mintingTx coins owner ∈ brought) :
    (ledger.settled (ledger.mintGenesis key stamp coins owner)).Sound brought := by
  unfold mintGenesis
  cases htip : ledger.tip? with
  | some tip => exact h
  | none =>
    cases ha : Pending.new.add (mintingTx coins owner) with
    | error e => exact h
    | ok result =>
      obtain ⟨id, p⟩ := result
      have hp := continues_minting h.lawful (tip?_eq_none_iff.1 htip) ha
      obtain ⟨-, -, -, -, created, -, rfl⟩ := Pending.add_eq_ok_iff.1 ha
      cases hc : ledger.commitPending key stamp none
          (Pending.new.accept (mintingTx coins owner) id created) with
      | error e => simpa [hc, settled] using h
      | ok result =>
        simp only [hc, settled]
        refine h.commitPending hp (by simp [Pending.accept]) (fun tx htx => ?_) (htip ▸ hc)
        have he : tx = mintingTx coins owner := by
          simpa [Pending.accept, Pending.new, Pending.withLimit] using htx
        rwa [he]

theorem generate (h : ledger.Sound brought) (hd : DistinctIds brought) :
    (ledger.settled (ledger.generate key stamp)).Sound brought := by
  unfold Ledger.generate
  simp only
  split
  · exact h
  · next hne =>
    have hp := continues_assembled h.lawful fun tx htx other ho he => h.known hd htx ho he
    cases hc : ledger.commitPending key stamp ledger.tip? ledger.assembled with
    | error e => exact h
    | ok result =>
      refine h.commitPending hp (by simpa [Pending.isEmpty] using hne) (fun tx htx => ?_) hc
      exact h.waiting tx (mem_pending_of_mem_assembled htx)

/-- One event. -/
theorem next (h : ledger.Sound brought) (hd : DistinctIds brought) (e : Event)
    (he : ∀ tx ∈ e.brings, tx ∈ brought) : (ledger.next e).Sound brought := by
  cases e with
  | queue tx => exact h.queue (he tx (List.mem_singleton_self _))
  | drop id => exact h.drop id
  | mint key stamp coins owner => exact h.mint (he _ (List.mem_singleton_self _))
  | generate key stamp => exact h.generate hd

end Sound

/-- **Every run is sound.** -/
theorem sound_run {events : List Event} (hd : DistinctIds (broughtBy events)) :
    (run events).Sound (broughtBy events) := by
  refine List.foldlRecOn events next (sound_empty _) fun ledger h e he => ?_
  exact h.next hd e fun tx htx => List.mem_flatMap.2 ⟨e, he, htx⟩

theorem run_concat (events : List Event) (e : Event) :
    run (events ++ [e]) = (run events).next e := by
  simp [run]

/-- A cycle whose first pass leaves nothing needs no other pass. -/
theorem generate_of_sweep {ledger : Ledger} {p : Pending} (key : SecretKey) (stamp : Stamp)
    (hs : ledger.sweep ledger.tip? .new ledger.pending = (p, [])) (hp : p.accepted ≠ []) :
    ledger.generate key stamp =
      (ledger.commitPending key stamp ledger.tip? p).map
        fun (block, after) => (some block, after) := by
  have ha : ledger.assembled = p := by rw [assembled, assemble_of_sweep (by rw [hs]), hs]
  simp [generate, ha, Pending.isEmpty, hp]

end Ledger

end

/-! ### A payment -/

namespace Payment

open Crypto

/-- The key of all coins here. -/
def key : SecretKey :=
  ⟨1, by decide, by decide⟩

/-- Its public key. -/
def owner : PublicKey where
  x := 0x79be667ef9dcbbac55a06295ce870b07029bfcdb2dce28d959f2815b16f81798
  y := 0x483ada7726a3c4655da4fbfc0e1108a8fd17b448a68554199c47d08ffb10d4b8

/-- The transaction that mints fifty coins to the owner. -/
def minting : Transaction :=
  Ledger.mintingTx 50 owner

/-- The identifier of `minting`. -/
def mintingId : TxId :=
  ⟨⟨bigEndian 32 0x0c915cc3d132ac70219d4e12cd5111782bf9eec48fbdaf5553310e08ca1c9cf5, by simp⟩⟩

/-- The owner's signature of `transfer`. -/
def signature : Signature where
  r := 0xb283b1b08a749910f1ad3e2fa0b7a4192cc69cced4df7561cd79d40f944b75bb
  s := 0x2fcba21d308513d65c47c8740e2a9996676e9198c11821bca3274356f6e79d9f

/-- The coins of `minting`, signed back to their owner. -/
def transfer : Transfer where
  inputs := [⟨⟨mintingId, 0⟩, [], finalSequence⟩]
  outputs := minting.outputs
  witnesses := [⟨[CryptoSuite.derBytes signature, CryptoSuite.publicKeyBytes owner]⟩]
  lockTime := 0

/-- The transaction over `transfer`. -/
def spend : Transaction :=
  .ofBody (.transfer transfer)

/-- Events that mint coins and queue `spend`. -/
def opening : List Event :=
  [.mint key ⟨0, 0⟩ 50 owner, .queue spend]

/-- A run that mints coins and spends them. -/
def events : List Event :=
  opening ++ [.generate key ⟨1, 0⟩]

/-- The ledger that has minted and waits for a block with `spend`. -/
def start : Ledger :=
  Ledger.run opening

theorem distinctIds : DistinctIds (broughtBy events) := by
  have hne : minting.txid.toOption ≠ spend.txid.toOption := by decide +kernel
  have hm : ∀ tx ∈ broughtBy events, tx = minting ∨ tx = spend := by
    simp [broughtBy, events, opening, Event.brings, minting]
  intro a ha b hb id hida hidb
  have he : a.txid.toOption = b.txid.toOption := by rw [hida, hidb]
  rcases hm a ha with rfl | rfl <;> rcases hm b hb with rfl | rfl
  · rfl
  · exact absurd he hne
  · exact absurd he.symm hne
  · rfl

/-- The identifier of the block with `minting`. -/
def mintedId : BlockId :=
  ⟨⟨bigEndian 32 0xe3c7311850a4a95d2faadcee11b5781f08a3826a80271a8828b19e2b25a9c6db, by simp⟩⟩

/-- The identifier of the block with `spend`. -/
def spentId : BlockId :=
  ⟨⟨bigEndian 32 0x29234c9572cd3d8653fbfd6b103987d89ac67518d22c4696b001612df174e2f1, by simp⟩⟩

/-- What the two parts of the run store. -/
theorem stored : (start.transactions = [minting] ∧ start.blocks.map (·.id) = [mintedId]) ∧
    (Ledger.run events).transactions = [minting, spend] ∧
      (Ledger.run events).blocks.map (·.id) = [mintedId, spentId] := by
  have hd : (start.transactions = [minting] ∧ start.blocks.map (·.id) = [mintedId]) ∧
      (start.sweep start.tip? .new start.pending).2 = [] ∧
      (start.sweep start.tip? .new start.pending).1.accepted ≠ [] ∧
      (start.commitPending key ⟨1, 0⟩ start.tip?
        (start.sweep start.tip? .new start.pending).1).toOption.map
          (fun made => (made.2.transactions, made.2.blocks.map (·.id))) =
            some ([minting, spend], [mintedId, spentId]) := by
    decide +kernel
  generalize hs : start.sweep start.tip? .new start.pending = swept at hd
  obtain ⟨p, left⟩ := swept
  obtain ⟨hstart, rfl, hp, hc⟩ := hd
  refine ⟨hstart, ?_⟩
  rw [events, Ledger.run_concat, ← start, Ledger.next, Ledger.generate_of_sweep key ⟨1, 0⟩ hs hp]
  cases h : start.commitPending key ⟨1, 0⟩ start.tip? p with
  | error e => simp [h, Except.toOption] at hc
  | ok result => simpa [h, Except.toOption, Except.map, Ledger.settled] using hc

/-- The run stores both transactions. -/
theorem transactions_run : (Ledger.run events).transactions = [minting, spend] :=
  stored.2.1

/-- `spend` takes what `minting` leaves. -/
theorem exists_spends :
    ∃ utxos, Lawful [minting] utxos ∧ ∃ t previous, spend.Spends t previous utxos := by
  have hl := (Ledger.sound_run distinctIds).lawful
  rw [transactions_run] at hl
  have hsplit : Lawful ([minting] ++ spend :: []) (Ledger.run events).utxos := hl
  obtain ⟨utxos, after, hbefore, step⟩ := hsplit.split
  exact ⟨utxos, hbefore, step.kind.resolve_left (by simp)⟩

end Payment

end UtxoLedger
