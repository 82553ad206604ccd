import UtxoLedger.Proofs.Arrival
import UtxoLedger.Proofs.InPlace
import UtxoLedger.Proofs.Lookups
import UtxoLedger.Proofs.Settlement

/-!
What holds of a shared ledger, in whatever order the calls on it come. A miner reads the tip before it
looks up the first output, and its commit checks that the tip is still the one that it has read.
Between these two no block can have come in, and nothing but a block changes confirmed outputs: so
whoever may still store a block has seen one ledger all along. A miner that another one has
overtaken may have seen parts of several, but its block is turned away.
-/

namespace UtxoLedger

section

variable [CryptoSuite]

namespace Ledger

variable {ledger after : Ledger} {brought : List Transaction} {tip : Option BlockRecord} {p : Pending}
  {key : SecretKey} {stamp : Stamp} {block : Block} {c : Commit} {tx : Transaction} {id : TxId}

/-! ### Tips that have been read -/

/-- The tip has been read at some time: there was none, or it is stored. -/
def Knows (ledger : Ledger) (tip : Option BlockRecord) : Prop :=
  ∀ record ∈ tip, record ∈ ledger.blocks

namespace Knows

omit [CryptoSuite] in
theorem apply (h : ledger.Knows tip) (c : Commit) : (ledger.apply c).Knows tip :=
  fun record hr => List.mem_append_left _ (h record hr)

omit [CryptoSuite] in
/-- Behind a new block no tip is the tip that has been read before. -/
theorem ne_tip?_apply (h : ledger.Knows tip) (hnew : c.record ∉ ledger.blocks) :
    tip ≠ (ledger.apply c).tip? := by
  rintro rfl
  have htip : (ledger.apply c).tip? = some c.record := List.getLast?_concat
  exact hnew (h c.record htip)

/-- A block that passes the check is a child of the tip. By its height it is the first block or it is
not, and identifiers tell the stored ones apart. -/
theorem eq_tip?_of_checkLinkage (h : ledger.Knows tip) (hlinked : Linked ledger.blocks)
    (hseal : p.seal key stamp tip = .ok block)
    (hc : ledger.checkLinkage (p.commit tip block).record = .ok ()) : tip = ledger.tip? := by
  have hprevious : block.header.previous = (tip.map (·.id)).getD .zero := (seal_eq_ok hseal).2.1
  obtain ⟨-, ⟨hnone, -, -⟩ | ⟨last, hlast, hparent, hheight⟩⟩ := checkLinkage_eq_ok_iff.1 hc
  · rw [hnone]
    refine Option.eq_none_iff_forall_not_mem.2 fun record hr => ?_
    have hmem := h record hr
    rw [tip?_eq_none_iff.1 hnone] at hmem
    cases hmem
  · cases tip with
    | none =>
      have hzero : (0 : Nat) = last.height + 1 := hheight
      omega
    | some read =>
      have hid : read.id = last.id := hprevious.symm.trans hparent
      have hread : read ∈ ledger.blocks := h read rfl
      rw [hlast, List.inj_on_of_nodup_map hlinked.nodup_ids hread (List.mem_of_getLast? hlast) hid]

/-- **A block over an old tip is turned away.** -/
theorem exists_commit_eq_error (h : ledger.Knows tip) (hlinked : Linked ledger.blocks)
    (hseal : p.seal key stamp tip = .ok block) (hstale : tip ≠ ledger.tip?) :
    ∃ e, ledger.commit (p.commit tip block) = .error e := by
  refine exists_error_of_ne_ok fun after hcommit => hstale ?_
  exact h.eq_tip?_of_checkLinkage hlinked hseal (commit_eq_ok hcommit).1

end Knows

/-! ### Between two calls -/

/-- What holds of the ledger between any two calls. -/
structure Steady (brought : List Transaction) (ledger : Ledger) : Prop where
  sound : ledger.Sound brought
  linked : Linked ledger.blocks
  keyed : ledger.Keyed

/-- The transaction has not been lost. -/
def Keeps (ledger : Ledger) (tx : Transaction) : Prop :=
  tx ∈ ledger.pending ∨ tx ∈ ledger.transactions

/-- A block over what is accepted may be stored. -/
structure Storable (brought : List Transaction) (ledger : Ledger) (p : Pending) : Prop where
  continues : ledger.Continues p
  accepted_ne : p.accepted ≠ []
  accepted : p.accepted ⊆ brought

theorem steady_empty (brought : List Transaction) : Ledger.empty.Steady brought where
  sound := sound_empty brought
  linked := .nil
  keyed _ he := by cases he

namespace Steady

/-- A queued transaction. -/
theorem queue (h : ledger.Steady brought) (ht : tx ∈ brought)
    (hq : ledger.queue tx = .ok (id, after)) : after.Steady brought := by
  have hsound := h.sound.queue ht
  rw [hq] at hsound
  obtain ⟨hid, -, rfl⟩ := queue_eq_ok_iff.1 hq
  refine ⟨hsound, h.linked, ?_⟩
  exact List.forall_mem_append.2 ⟨h.keyed, by simpa using hid⟩

/-- Asking to queue a transaction that has an identifier leaves it waiting: if the identifier is taken,
it is taken by this transaction. -/
theorem mem_pending_settled_queue (h : ledger.Steady brought) (hd : DistinctIds brought)
    (ht : tx ∈ brought) (hid : tx.txid = .ok id) :
    tx ∈ (ledger.settled (ledger.queue tx)).pending := by
  by_cases hk : id ∈ ledger.mempool.keys
  · have hc : ledger.mempool.contains id = true := Table.contains_iff.2 hk
    have hq : ledger.queue tx = .error (.duplicateTransaction id) := by
      simp only [Ledger.queue, hid, hc, if_true]
    rw [hq]
    obtain ⟨other, hmem⟩ := Table.mem_keys.1 hk
    have hother : other ∈ ledger.pending := List.mem_map_of_mem hmem
    have hotherid : other.txid = .ok id := h.keyed (id, other) hmem
    rwa [hd tx ht other (h.sound.waiting other hother) id hid hotherid]
  · have hq := queue_eq_ok_iff.2 ⟨hid, hk, rfl⟩
    rw [hq, settled, pending_of_queue hq]
    exact List.mem_append_right _ (List.mem_singleton_self _)

/-- A block that is stored. -/
theorem commit (h : ledger.Steady brought) (hp : ledger.Storable brought p)
    (hseal : p.seal key stamp ledger.tip? = .ok block)
    (hcommit : ledger.commit (p.commit ledger.tip? block) = .ok after) : after.Steady brought := by
  have hdone := commitPending_eq_ok_iff.2 ⟨hseal, hcommit⟩
  obtain ⟨hlinkage, rfl⟩ := commit_eq_ok hcommit
  refine ⟨?_, ?_, h.keyed.apply _⟩
  · exact h.sound.commitPending hp.continues hp.accepted_ne hp.accepted hdone
  · exact h.linked.snoc_of_checkLinkage hlinkage

/-- A transaction that waits for a block goes on waiting, or it is in the block. -/
theorem keeps_commit (h : ledger.Steady brought) (hd : DistinctIds brought)
    (hp : ledger.Storable brought p) (hseal : p.seal key stamp ledger.tip? = .ok block)
    (hk : ledger.Keeps tx) : (ledger.apply (p.commit ledger.tip? block)).Keeps tx := by
  have hmined : (ledger.apply (p.commit ledger.tip? block)).transactions =
      ledger.transactions ++ p.accepted := by
    rw [transactions_apply, ← (seal_eq_ok hseal).1]
    rfl
  have hpending := pending_apply h.keyed hd h.sound.waiting hp.continues.consistent hp.accepted
    ledger.tip? block
  unfold Keeps
  rw [hmined, hpending]
  rcases hk with hwait | hstored
  · by_cases hacc : tx ∈ p.accepted
    · exact .inr (List.mem_append_right _ hacc)
    · exact .inl (List.mem_filter.2 ⟨hwait, by simpa using hacc⟩)
  · exact .inr (List.mem_append_left _ hstored)

/-- What assembly gives may be stored, unless it is empty. -/
theorem storable_assemble (h : ledger.Steady brought) (hd : DistinctIds brought)
    {txs : List Transaction} (hsub : txs ⊆ brought)
    (hne : (ledger.assemble ledger.tip? .new txs).accepted ≠ []) :
    ledger.Storable brought (ledger.assemble ledger.tip? .new txs) := by
  have hreach : ledger.Reaches brought (ledger.assemble ledger.tip? .new txs) := by
    refine reaches_assemble h.sound.lawful (fun tx htx other ho he => ?_) hsub
    obtain ⟨id, hid⟩ := h.sound.lawful.txid_eq_ok ho
    exact hd other (h.sound.mined other ho) tx htx id hid (he ▸ hid)
  exact ⟨hreach.continues, hne, hreach.accepted⟩

end Steady

end Ledger

/-! ### Miners at work -/

namespace Miner

variable {ledger after : Ledger} {brought : List Transaction} {miner : Miner} {key : SecretKey}
  {stamp : Stamp} {tip : Option BlockRecord} {p : Pending} {c : Commit}

/-- What a miner relies on. As long as the tip is the one that it has read, its lookups come to what
they would have come to in one go. -/
def Relies (brought : List Transaction) (ledger : Ledger) : Miner → Prop
  | collecting _ _ => True
  | aiming _ _ txs => txs ⊆ brought
  | assembling _ _ tip lookups => ledger.Knows tip ∧ (tip = ledger.tip? → ∃ txs ⊆ brought,
      lookups.under ledger.utxo? = (Lookups.assemble tip txs).under ledger.utxo?)
  | opening _ _ coins owner => Ledger.mintingTx coins owner ∈ brought
  | committing tip p block => ledger.Knows tip ∧ (∃ key stamp, p.seal key stamp tip = .ok block) ∧
      (tip = ledger.tip? → ledger.Storable brought p)
  | ended _ => True

namespace Relies

/-- Queueing does not disturb a miner. -/
theorem queue (h : miner.Relies brought ledger) {tx : Transaction} {id : TxId}
    (hq : ledger.queue tx = .ok (id, after)) : miner.Relies brought after := by
  obtain ⟨-, -, rfl⟩ := Ledger.queue_eq_ok_iff.1 hq
  cases miner with
  | committing tip p block =>
    obtain ⟨hknows, hseal, hp⟩ := h
    refine ⟨hknows, hseal, fun htip => ?_⟩
    obtain ⟨⟨stored, consistent, lawful, alone⟩, hne, hsub⟩ := hp htip
    exact ⟨⟨stored, consistent, lawful, alone⟩, hne, hsub⟩
  | _ => exact h

/-- A new block overtakes all that have read a tip. -/
theorem apply (h : miner.Relies brought ledger) (hnew : c.record ∉ ledger.blocks) :
    miner.Relies brought (ledger.apply c) := by
  cases miner with
  | assembling key stamp tip lookups =>
    exact ⟨h.1.apply c, fun htip => absurd htip (h.1.ne_tip?_apply hnew)⟩
  | committing tip p block =>
    exact ⟨h.1.apply c, h.2.1, fun htip => absurd htip (h.1.ne_tip?_apply hnew)⟩
  | _ => exact h

theorem sealing (hknows : ledger.Knows tip) (hp : tip = ledger.tip? → ledger.Storable brought p) :
    (sealing key stamp tip p).Relies brought ledger := by
  unfold Miner.sealing
  cases hseal : p.seal key stamp tip with
  | error e => exact trivial
  | ok block => exact ⟨hknows, ⟨key, stamp, hseal⟩, hp⟩

end Relies

/-- **What a turn does to the ledger**: nothing, or it stores the block of the miner. -/
theorem turn_cases (ledger : Ledger) (miner : Miner) : (turn ledger miner).2 = ledger ∨
    ∃ tip p block, miner = .committing tip p block ∧
      ledger.commit (p.commit tip block) = .ok (turn ledger miner).2 := by
  cases miner with
  | collecting key stamp =>
    left
    dsimp only [turn]
    split <;> rfl
  | aiming key stamp txs => exact .inl rfl
  | assembling key stamp tip lookups =>
    left
    cases lookups with
    | done p =>
      dsimp only [turn]
      split <;> rfl
    | look o next => rfl
  | opening key stamp coins owner =>
    left
    dsimp only [turn]
    split
    · rfl
    · split <;> rfl
  | committing tip p block =>
    dsimp only [turn]
    cases hcommit : ledger.commit (p.commit tip block) with
    | error e => exact .inl rfl
    | ok after => exact .inr ⟨tip, p, block, rfl, hcommit⟩
  | ended answer => exact .inl rfl

/-- **The miner itself goes on as it should.** -/
theorem Relies.turn (h : miner.Relies brought ledger) (hs : ledger.Steady brought)
    (hd : DistinctIds brought) : (turn ledger miner).1.Relies brought (turn ledger miner).2 := by
  cases miner with
  | collecting key stamp =>
    dsimp only [Miner.turn]
    split
    · exact trivial
    · exact hs.sound.waiting
  | aiming key stamp txs =>
    have hknows : ledger.Knows ledger.tip? := fun _ hr => List.mem_of_getLast? hr
    exact ⟨hknows, fun _ => ⟨txs, h, rfl⟩⟩
  | assembling key stamp tip lookups =>
    obtain ⟨hknows, hlookups⟩ := h
    cases lookups with
    | look o next => exact ⟨hknows, hlookups⟩
    | done p =>
      dsimp only [Miner.turn]
      split
      · exact trivial
      · next hne =>
        refine .sealing hknows fun htip => ?_
        obtain ⟨txs, hsub, hp⟩ := hlookups htip
        have hassembled : p = ledger.assemble ledger.tip? .new txs := by
          rw [← Lookups.under_assemble, ← htip]
          exact hp
        rw [hassembled] at hne ⊢
        exact hs.storable_assemble hd hsub (by simpa [Pending.isEmpty] using hne)
  | opening key stamp coins owner =>
    dsimp only [Miner.turn]
    cases htip : ledger.tip? with
    | some tip => exact trivial
    | none =>
      cases ha : Pending.new.add (Ledger.mintingTx coins owner) with
      | error e => exact trivial
      | ok result =>
        obtain ⟨id, p⟩ := result
        have hp := Ledger.continues_minting hs.sound.lawful (Ledger.tip?_eq_none_iff.1 htip) ha
        obtain ⟨-, -, -, -, created, -, rfl⟩ := Pending.add_eq_ok_iff.1 ha
        refine .sealing (fun _ hr => by cases hr) fun _ => ⟨hp, List.cons_ne_nil _ _, ?_⟩
        exact List.cons_subset.2 ⟨h, List.nil_subset _⟩
  | committing tip p block =>
    dsimp only [Miner.turn]
    cases ledger.commit (p.commit tip block) <;> exact trivial
  | ended answer => exact trivial

end Miner

/-! ### Moves -/

/-- The transactions that a job brings up. -/
def Job.brings : Job → List Transaction
  | generate _ _ => []
  | mint _ _ coins owner => [Ledger.mintingTx coins owner]

/-- The transactions that a move brings up. -/
def Move.brings : Move → List Transaction
  | queue tx => [tx]
  | start job => job.brings
  | turn _ => []

namespace Shared

variable {shared : Shared} {brought : List Transaction} {moves : List Move} {move : Move}

theorem next_turn {number : Nat} {miner : Miner} (h : shared.miners[number]? = some miner) :
    shared.next (.turn number) =
      ⟨(miner.turn shared.ledger).2, shared.miners.set number (miner.turn shared.ledger).1⟩ := by
  simp only [next, h]

theorem ledger_next_queue (tx : Transaction) : (shared.next (.queue tx)).ledger =
    shared.ledger.settled (shared.ledger.queue tx) := by
  dsimp only [next]
  cases shared.ledger.queue tx <;> rfl

/-- What holds between any two moves. -/
structure Safe (brought : List Transaction) (shared : Shared) : Prop where
  steady : shared.ledger.Steady brought
  miners : ∀ miner ∈ shared.miners, miner.Relies brought shared.ledger

theorem safe_empty (brought : List Transaction) : Shared.empty.Safe brought :=
  ⟨Ledger.steady_empty brought, fun _ h => by cases h⟩

namespace Safe

theorem queue (h : shared.Safe brought) {tx : Transaction} (ht : tx ∈ brought) :
    (shared.next (.queue tx)).Safe brought ∧
      ∀ other, shared.ledger.Keeps other → (shared.next (.queue tx)).ledger.Keeps other := by
  dsimp only [Shared.next]
  cases hq : shared.ledger.queue tx with
  | error e => exact ⟨h, fun _ hk => hk⟩
  | ok result =>
    obtain ⟨id, after⟩ := result
    refine ⟨⟨h.steady.queue ht hq, fun miner hm => (h.miners miner hm).queue hq⟩, fun other hk => ?_⟩
    refine hk.imp (fun hwait => ?_) fun hstored => ?_
    · rw [Ledger.pending_of_queue hq]
      exact List.mem_append_left _ hwait
    · obtain ⟨-, -, rfl⟩ := Ledger.queue_eq_ok_iff.1 hq
      exact hstored

theorem start (h : shared.Safe brought) {job : Job} (hb : job.brings ⊆ brought) :
    (shared.next (.start job)).Safe brought := by
  refine ⟨h.steady, fun miner hm => ?_⟩
  rcases List.mem_append.1 hm with hm | hm
  · exact h.miners miner hm
  · rw [List.mem_singleton.1 hm]
    cases job with
    | generate key stamp => exact trivial
    | mint key stamp coins owner => exact hb (List.mem_singleton_self _)

/-- A miner that may store a block is not overtaken. -/
theorem storable (h : shared.Safe brought) {tip : Option BlockRecord} {p : Pending} {block : Block}
    {after : Ledger} (hm : .committing tip p block ∈ shared.miners)
    (hcommit : shared.ledger.commit (p.commit tip block) = .ok after) :
    tip = shared.ledger.tip? ∧ (∃ key stamp, p.seal key stamp tip = .ok block) ∧
      shared.ledger.Storable brought p := by
  obtain ⟨hknows, ⟨key, stamp, hseal⟩, hp⟩ := h.miners _ hm
  have htip := hknows.eq_tip?_of_checkLinkage h.steady.linked hseal (Ledger.commit_eq_ok hcommit).1
  exact ⟨htip, ⟨key, stamp, hseal⟩, hp htip⟩

/-- The turn of a miner. The others rely on the new ledger as they have relied on the old one. -/
theorem turn (h : shared.Safe brought) (hd : DistinctIds brought) (number : Nat) :
    (shared.next (.turn number)).Safe brought ∧
      ∀ tx, shared.ledger.Keeps tx → (shared.next (.turn number)).ledger.Keeps tx := by
  cases hnumber : shared.miners[number]? with
  | none =>
    have hsame : shared.next (.turn number) = shared := by simp only [Shared.next, hnumber]
    rw [hsame]
    exact ⟨h, fun _ hk => hk⟩
  | some miner =>
    have hmem : miner ∈ shared.miners := List.mem_of_getElem? hnumber
    have hself := (h.miners miner hmem).turn h.steady hd
    have hminers (hothers : ∀ other : Miner, other.Relies brought shared.ledger →
        other.Relies brought (miner.turn shared.ledger).2) :
        ∀ other ∈ shared.miners.set number (miner.turn shared.ledger).1,
          other.Relies brought (miner.turn shared.ledger).2 := by
      intro other ho
      rcases List.mem_or_eq_of_mem_set ho with ho | rfl
      · exact hothers other (h.miners other ho)
      · exact hself
    rw [next_turn hnumber]
    rcases miner.turn_cases shared.ledger with hsame | ⟨tip, p, block, rfl, hcommit⟩
    · rw [hsame] at hminers ⊢
      exact ⟨⟨h.steady, hminers fun _ ho => ho⟩, fun _ hk => hk⟩
    · obtain ⟨rfl, ⟨key, stamp, hseal⟩, hp⟩ := h.storable hmem hcommit
      have hsteady := h.steady.commit hp hseal hcommit
      obtain ⟨hlinkage, hafter⟩ := Ledger.commit_eq_ok hcommit
      have hnew : (p.commit shared.ledger.tip? block).record ∉ shared.ledger.blocks := fun hr =>
        (Ledger.checkLinkage_eq_ok_iff.1 hlinkage).1 _ hr rfl
      rw [hafter] at hminers hsteady ⊢
      exact ⟨⟨hsteady, hminers fun _ ho => ho.apply hnew⟩,
        fun _ hk => h.steady.keeps_commit hd hp hseal hk⟩

/-- One move. -/
theorem next (h : shared.Safe brought) (hd : DistinctIds brought) (hb : move.brings ⊆ brought) :
    (shared.next move).Safe brought ∧
      ∀ tx, shared.ledger.Keeps tx → (shared.next move).ledger.Keeps tx := by
  cases move with
  | queue tx => exact h.queue (hb (List.mem_singleton_self _))
  | start job => exact ⟨h.start hb, fun _ hk => hk⟩
  | turn number => exact h.turn hd number

/-- All moves. -/
theorem foldl (h : shared.Safe brought) (hd : DistinctIds brought)
    (hb : ∀ move ∈ moves, move.brings ⊆ brought) :
    (moves.foldl Shared.next shared).Safe brought ∧
      ∀ tx, shared.ledger.Keeps tx → (moves.foldl Shared.next shared).ledger.Keeps tx := by
  induction moves generalizing shared with
  | nil => exact ⟨h, fun _ hk => hk⟩
  | cons move moves ih =>
    obtain ⟨hnext, hkeeps⟩ := h.next hd (hb move List.mem_cons_self)
    obtain ⟨hall, hkept⟩ := ih hnext fun other ho => hb other (List.mem_cons_of_mem _ ho)
    exact ⟨hall, fun tx hk => hkept tx (hkeeps tx hk)⟩

end Safe

/-! ### All moves -/

theorem safe_run (hd : DistinctIds (moves.flatMap Move.brings)) :
    (run moves).Safe (moves.flatMap Move.brings) :=
  ((safe_empty _).foldl hd fun move hm _ htx => List.mem_flatMap.2 ⟨move, hm, htx⟩).1

/-- What is queued stays, whatever comes behind it. -/
theorem keeps_run (hd : DistinctIds (moves.flatMap Move.brings)) {tx : Transaction} {id : TxId}
    (hm : .queue tx ∈ moves) (hid : tx.txid = .ok id) : (run moves).ledger.Keeps tx := by
  obtain ⟨before, behind, hmoves⟩ := List.append_of_mem hm
  have hb : ∀ move ∈ before ++ .queue tx :: behind, move.brings ⊆ moves.flatMap Move.brings := by
    intro move hmove other ho
    exact List.mem_flatMap.2 ⟨move, hmoves ▸ hmove, ho⟩
  have ht : tx ∈ moves.flatMap Move.brings := hb (.queue tx) (by simp) (List.mem_singleton_self tx)
  have hbefore : (run before).Safe (moves.flatMap Move.brings) :=
    ((safe_empty _).foldl hd fun move hmove => hb move (List.mem_append_left _ hmove)).1
  have hqueued : ((run before).next (.queue tx)).ledger.Keeps tx := by
    rw [ledger_next_queue]
    exact .inl (hbefore.steady.mem_pending_settled_queue hd ht hid)
  have hbehind : ∀ move ∈ behind, move.brings ⊆ moves.flatMap Move.brings := fun move hmove =>
    hb move (List.mem_append_right _ (List.mem_cons_of_mem _ hmove))
  have hrun : run moves = behind.foldl next ((run before).next (.queue tx)) := by
    rw [hmoves, run, List.foldl_append, List.foldl_cons, run]
  rw [hrun]
  exact ((hbefore.queue ht).1.foldl hd hbehind).2 tx hqueued

/-- **The shared ledger is intact** after these moves. -/
structure Intact (moves : List Move) (shared : Shared) : Prop where
  /-- The confirmed outputs are the strict replay of the stored blocks. -/
  replay : replay? shared.ledger.transactions = some shared.ledger.utxos
  /-- No confirmed outpoint comes twice. -/
  keys : shared.ledger.utxos.keys.Nodup
  linear : Linear shared.ledger.blocks
  /-- Once a block is stored, the coins are those of its one genesis transaction. -/
  supply : (shared.ledger.blocks = [] ∧ shared.ledger.utxos = .empty) ∨
    ∃ first rest tx, shared.ledger.blocks = first :: rest ∧ first.block.transactions = [tx] ∧
      tx.isGenesis = true ∧ totalValue shared.ledger.utxos.values = tx.outputValue
  /-- What has been queued waits, or it is stored. -/
  queued : ∀ tx id, .queue tx ∈ moves → tx.txid = .ok id →
    tx ∈ shared.ledger.pending ∨ tx ∈ shared.ledger.transactions
  /-- A miner that commits behind an old tip gets an error, and nothing else changes. -/
  stale : ∀ number tip p block, shared.miners[number]? = some (.committing tip p block) →
    tip ≠ shared.ledger.tip? → ∃ e, shared.next (.turn number) =
      { shared with miners := shared.miners.set number (.ended (.error e)) }

theorem Safe.supply (h : shared.Safe brought) :
    (shared.ledger.blocks = [] ∧ shared.ledger.utxos = .empty) ∨
      ∃ first rest tx, shared.ledger.blocks = first :: rest ∧ first.block.transactions = [tx] ∧
        tx.isGenesis = true ∧ totalValue shared.ledger.utxos.values = tx.outputValue := by
  have hlawful := h.steady.sound.lawful
  rcases h.steady.sound.blocks_eq with hnil | ⟨first, rest, tx, hblocks, htx, hgenesis, -⟩
  · refine .inl ⟨hnil, ?_⟩
    rw [Ledger.transactions_eq_nil hnil] at hlawful
    exact hlawful.eq_empty
  · refine .inr ⟨first, rest, tx, hblocks, htx, hgenesis, hlawful.totalValue_eq ?_⟩
    rw [Ledger.transactions, hblocks, List.flatMap_cons, htx]
    rfl

theorem Safe.stale (h : shared.Safe brought) {number : Nat} {tip : Option BlockRecord} {p : Pending}
    {block : Block} (hnumber : shared.miners[number]? = some (.committing tip p block))
    (hstale : tip ≠ shared.ledger.tip?) : ∃ e, shared.next (.turn number) =
      { shared with miners := shared.miners.set number (.ended (.error e)) } := by
  obtain ⟨hknows, ⟨key, stamp, hseal⟩, -⟩ := h.miners _ (List.mem_of_getElem? hnumber)
  obtain ⟨e, he⟩ := hknows.exists_commit_eq_error h.steady.linked hseal hstale
  refine ⟨e, ?_⟩
  rw [next_turn hnumber]
  simp only [Miner.turn, he]

/-- **Whatever miners and clients do, in whatever order**: the ledger that they share stays intact. -/
theorem intact_run (hd : DistinctIds (moves.flatMap Move.brings)) : (run moves).Intact moves := by
  have h := safe_run hd
  have hlawful := h.steady.sound.lawful
  refine ⟨hlawful.replay?_eq, hlawful.keys_nodup, h.steady.linked.linear, h.supply, ?_, ?_⟩
  · intro tx id hm hid
    exact keeps_run hd hm hid
  · intro number tip p block hnumber hstale
    exact h.stale hnumber hstale

end Shared

end

/-! ### A race -/

namespace Payment

/-- The tip that a miner commits behind. -/
def behind? : Miner → Option (Option BlockId)
  | .committing tip _ _ => some (tip.map (·.id))
  | _ => none

/-- Coins are minted, `spend` is queued, and two miners take turns with it until one has stored it. -/
def race : List Move :=
  [.start (.mint key ⟨0, 0⟩ 50 owner), .turn 0, .turn 0, .queue spend,
    .start (.generate key ⟨1, 0⟩), .start (.generate key ⟨1, 1⟩), .turn 1, .turn 2, .turn 1, .turn 2,
    .turn 1, .turn 2, .turn 1, .turn 2, .turn 1]

theorem raced : (Shared.run race).ledger.transactions = [minting, spend] ∧
    (Shared.run race).miners[2]?.bind behind? = some (some mintedId) ∧
      (Shared.run race).ledger.tip?.map (·.id) ≠ some mintedId := by
  decide +kernel

end Payment

open Payment in
/-- One of the two miners stores `spend`, and the other one is turned away. -/
theorem Shared.intact_race : (Shared.run race).ledger.transactions = [minting, spend] ∧
    (Shared.run race).Intact race ∧ ∃ e, (Shared.run race).next (.turn 2) =
      { Shared.run race with miners := (Shared.run race).miners.set 2 (.ended (.error e)) } := by
  obtain ⟨htransactions, hbehind, hmoved⟩ := raced
  have hd : DistinctIds (race.flatMap Move.brings) := by
    refine distinctIds.subset fun tx htx => ?_
    simpa [race, Move.brings, Job.brings, broughtBy, events, opening, Event.brings] using htx
  have hintact : (Shared.run race).Intact race := Shared.intact_run hd
  refine ⟨htransactions, hintact, ?_⟩
  obtain ⟨miner, hminer, hread⟩ := Option.bind_eq_some_iff.1 hbehind
  cases miner with
  | committing tip p block =>
    have htip : tip.map (·.id) = some mintedId := Option.some.inj hread
    refine hintact.stale 2 tip p block hminer fun hsame => hmoved ?_
    rw [← hsame, htip]
  | _ => cases hread

end UtxoLedger
