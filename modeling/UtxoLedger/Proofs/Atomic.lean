import UtxoLedger.Proofs.InPlace
import UtxoLedger.Proofs.Replay

/-!
A commit against its single steps: to store the block, to delete what is spent, to insert what is
created and to drop what is mined. Each step sees what those before it have left, and may fail behind
them; a commit looks at everything before it changes anything, and either does all of it or leaves the
ledger. Where both succeed they leave the same. They part over outpoints that come twice: the steps let
an outpoint be created that has just been spent, and refuse one that is named twice on the same side.
-/

namespace UtxoLedger

/-! ### Outpoints that come twice -/

namespace Commit

/-- No outpoint is spent twice, and none is created twice. -/
structure Distinct (c : Commit) : Prop where
  spent : c.spent.Nodup
  created : (c.created.map Prod.fst).Nodup

/-- No outpoint is both spent and created. -/
def Separate (c : Commit) : Prop :=
  ∀ e ∈ c.created, e.1 ∉ c.spent

/-- A commit against its single steps, each given by the states in which it succeeds. -/
structure AsSteps {σ : Type} (c : Commit) (commits steps : σ → Prop) : Prop where
  /-- A commit creates nothing that it spends. -/
  separate : ∀ after, commits after → c.Separate
  /-- Apart from this, it succeeds wherever its steps do, and leaves what they leave. -/
  of_steps : ∀ after, steps after → c.Separate → commits after
  /-- Where it names no outpoint twice on one side, it succeeds nowhere else. -/
  to_steps : c.Distinct → ∀ after, commits after → steps after

/-- What a commit asks of the confirmed outputs. -/
structure Applies (c : Commit) (utxos : Utxos) : Prop where
  spent : ∀ o ∈ c.spent, o ∈ utxos.keys
  created : ∀ e ∈ c.created, e.1 ∉ utxos.keys

/-- What its steps ask of them, one after the other. -/
structure AppliesInSteps (c : Commit) (utxos : Utxos) : Prop where
  distinct : c.Distinct
  spent : ∀ o ∈ c.spent, o ∈ utxos.keys
  created : ∀ e ∈ c.created, e.1 ∈ utxos.keys → e.1 ∈ c.spent

variable {c : Commit} {utxos after : Utxos}

theorem Applies.separate (h : c.Applies utxos) : c.Separate :=
  fun e he hs => h.created e he (h.spent e.1 hs)

theorem Applies.inSteps (h : c.Applies utxos) (hd : c.Distinct) : c.AppliesInSteps utxos :=
  ⟨hd, h.spent, fun e he hk => absurd hk (h.created e he)⟩

theorem AppliesInSteps.applies (h : c.AppliesInSteps utxos) (hs : c.Separate) : c.Applies utxos :=
  ⟨h.spent, fun e he hk => hs e he (h.created e he hk)⟩

/-- What it takes to delete the spent outputs and then to insert the created ones, and what this
leaves. -/
theorem foldlM_eq_some_iff :
    (∃ rest, c.spent.foldlM Table.take? utxos = some rest ∧
      c.created.foldlM Table.put? rest = some after) ↔
    c.AppliesInSteps utxos ∧ after = (utxos.eraseMany c.spent).insertMany c.created := by
  have hfree : (∀ e ∈ c.created, e.1 ∉ (utxos.without c.spent).keys) ↔
      ∀ e ∈ c.created, e.1 ∈ utxos.keys → e.1 ∈ c.spent := by
    simp only [Table.mem_keys_without, not_and, Decidable.not_not]
  simp only [Table.foldlM_take?, Table.foldlM_put?, Table.eraseMany_eq_without]
  constructor
  · rintro ⟨_, ⟨hspent, hthere, rfl⟩, hcreated, hnew, rfl⟩
    exact ⟨⟨⟨hspent, hcreated⟩, hthere, hfree.1 hnew⟩, (Table.insertMany_eq_extend hcreated hnew).symm⟩
  · rintro ⟨⟨⟨hspent, hcreated⟩, hthere, hnew⟩, rfl⟩
    exact ⟨_, ⟨hspent, hthere, rfl⟩, hcreated, hfree.2 hnew,
      Table.insertMany_eq_extend hcreated (hfree.2 hnew)⟩

/-- A commit and its steps that ask this of the outputs, the same of the blocks, and come to the same
result. -/
theorem asSteps_of_iff {σ : Type} {commits steps : σ → Prop} {linked : Prop} {result : σ}
    (hcommits : ∀ after, commits after ↔ linked ∧ c.Applies utxos ∧ after = result)
    (hsteps : ∀ after, steps after ↔ linked ∧ c.AppliesInSteps utxos ∧ after = result) :
    c.AsSteps commits steps := by
  refine ⟨fun after h => ?_, fun after h hs => ?_, fun hd after h => ?_⟩
  · exact ((hcommits after).1 h).2.1.separate
  · obtain ⟨hlinked, happlies, hafter⟩ := (hsteps after).1 h
    exact (hcommits after).2 ⟨hlinked, happlies.applies hs, hafter⟩
  · obtain ⟨hlinked, happlies, hafter⟩ := (hcommits after).1 h
    exact (hsteps after).2 ⟨hlinked, happlies.inSteps hd, hafter⟩

/-- The two searches of a commit find nothing. -/
theorem applies_iff_find? : c.Applies utxos ↔
    c.spent.find? (fun o => !utxos.contains o) = none ∧
      c.created.find? (fun e => utxos.contains e.1) = none := by
  simp only [List.find?_eq_none, Bool.not_eq_true', Table.contains_iff, Table.contains_eq_false_iff,
    Decidable.not_not]
  exact ⟨fun h => ⟨h.spent, h.created⟩, fun h => ⟨h.1, h.2⟩⟩

end Commit

/-! ### The ledger as a value -/

namespace Ledger

variable {ledger after : Ledger} {c : Commit}

/-- The single steps of a commit, one after the other. -/
def steps (ledger : Ledger) (c : Commit) : Except Error Ledger := do
  let ledger ← ledger.insertBlock c.record
  let ledger ← c.spent.foldlM deleteUtxo ledger
  let ledger ← c.created.foldlM (fun ledger e => ledger.insertUtxo e.1 e.2) ledger
  return c.mined.foldl drop ledger

theorem deleteUtxo_eq_ok_iff {o : Outpoint} : ledger.deleteUtxo o = .ok after ↔
    ∃ utxos, ledger.utxos.take? o = some utxos ∧ { ledger with utxos := utxos } = after := by
  unfold deleteUtxo Table.take?
  split <;> simp

theorem insertUtxo_eq_ok_iff {e : Outpoint × Output} : ledger.insertUtxo e.1 e.2 = .ok after ↔
    ∃ utxos, ledger.utxos.put? e = some utxos ∧ { ledger with utxos := utxos } = after := by
  unfold insertUtxo Table.put?
  split <;> simp

/-- Steps that change the outputs only, in a row. -/
theorem foldlM_utxos_eq_ok_iff {α : Type} {step : Ledger → α → Except Error Ledger}
    {change : Utxos → α → Option Utxos} (h : ∀ (ledger : Ledger) x after,
      step ledger x = .ok after ↔
        ∃ utxos, change ledger.utxos x = some utxos ∧ { ledger with utxos := utxos } = after)
    {xs : List α} : xs.foldlM step ledger = .ok after ↔
      ∃ utxos, xs.foldlM change ledger.utxos = some utxos ∧
        { ledger with utxos := utxos } = after := by
  induction xs generalizing ledger with
  | nil => simp [pure, Except.pure]
  | cons x xs ih =>
    rw [List.foldlM_cons, List.foldlM_cons]
    cases hx : step ledger x with
    | error e =>
      have hnone : change ledger.utxos x = none := by
        refine Option.eq_none_iff_forall_ne_some.2 fun utxos hu => ?_
        rw [(h ledger x _).2 ⟨utxos, hu, rfl⟩] at hx
        cases hx
      simp [hnone, bind, Except.bind]
    | ok between =>
      obtain ⟨utxos, hu, rfl⟩ := (h ledger x between).1 hx
      rw [hu]
      exact ih

theorem insertBlock_eq_ok_iff {record : BlockRecord} : ledger.insertBlock record = .ok after ↔
    ledger.checkLinkage record = .ok () ∧ { ledger with blocks := ledger.blocks ++ [record] } = after := by
  unfold insertBlock
  cases ledger.checkLinkage record <;> simp

/-- What it takes for the steps to succeed, and what they leave. -/
theorem steps_eq_ok_iff : ledger.steps c = .ok after ↔
    ledger.checkLinkage c.record = .ok () ∧ c.AppliesInSteps ledger.utxos ∧
      after = ledger.apply c := by
  have hdrop : ∀ ledger : Ledger, c.mined.foldl drop ledger =
      { ledger with mempool := ledger.mempool.eraseMany c.mined } := fun ledger =>
    List.foldl_hom (fun mempool => { ledger with mempool := mempool }) fun _ _ => rfl
  simp only [steps, except_bind_eq_ok_iff, insertBlock_eq_ok_iff,
    foldlM_utxos_eq_ok_iff fun _ _ _ => deleteUtxo_eq_ok_iff,
    foldlM_utxos_eq_ok_iff fun _ _ _ => insertUtxo_eq_ok_iff, hdrop, pure, Except.pure,
    Except.ok.injEq]
  constructor
  · rintro ⟨_, ⟨hlinked, rfl⟩, _, ⟨rest, hspent, rfl⟩, _, ⟨utxos, hcreated, rfl⟩, rfl⟩
    obtain ⟨happlies, rfl⟩ := Commit.foldlM_eq_some_iff.1 ⟨rest, hspent, hcreated⟩
    exact ⟨hlinked, happlies, rfl⟩
  · rintro ⟨hlinked, happlies, rfl⟩
    obtain ⟨rest, hspent, hcreated⟩ := Commit.foldlM_eq_some_iff.2 ⟨happlies, rfl⟩
    exact ⟨_, ⟨hlinked, rfl⟩, _, ⟨rest, hspent, rfl⟩, _, ⟨_, hcreated, rfl⟩, rfl⟩

theorem commit_eq_ok_iff : ledger.commit c = .ok after ↔
    ledger.checkLinkage c.record = .ok () ∧ c.Applies ledger.utxos ∧ after = ledger.apply c := by
  rw [Commit.applies_iff_find?, commit]
  cases ledger.checkLinkage c.record with
  | error e => simp
  | ok _ =>
    cases c.spent.find? fun o => !ledger.utxos.contains o with
    | some missing => simp
    | none => cases c.created.find? fun e => ledger.utxos.contains e.1 <;> simp [eq_comm]

theorem commit_asSteps (ledger : Ledger) (c : Commit) :
    c.AsSteps (ledger.commit c = .ok ·) (ledger.steps c = .ok ·) :=
  Commit.asSteps_of_iff (fun _ => commit_eq_ok_iff) fun _ => steps_eq_ok_iff

end Ledger

/-! ### The ledger in place -/

namespace LedgerState

variable {state after : LedgerState} {c : Commit}

/-- The single steps of a commit in place. One that fails leaves what those before it have done. -/
def steps (c : Commit) : LedgerProgram Unit := do
  insertBlock c.record
  c.spent.forM deleteUtxo
  c.created.forM fun e => insertUtxo e.1 e.2
  c.mined.forM drop

/-- The fields behind a commit that succeeds. -/
def committed (state : LedgerState) (c : Commit) : LedgerState where
  mempool := state.mempool.eraseMany c.mined
  utxos := (state.utxos.eraseMany c.spent).insertMany c.created
  blocks := state.blocks.insert c.record.id c.record
  tip := some c.record.id

theorem run_checkLinkage_cases (state : LedgerState) (record : BlockRecord) :
    (checkLinkage record).run state = .ok () state ∨
      ∃ e, (checkLinkage record).run state = .error e state := by
  unfold checkLinkage
  rw [EStateM.run_bind, EStateM.run_get]
  dsimp only
  by_cases hknown : state.blocks.contains record.id = true
  · rw [if_pos hknown]
    exact .inr ⟨_, rfl⟩
  · rw [if_neg hknown]
    cases state.tip? with
    | none =>
      by_cases hfirst : record.parent.isZero = true ∧ record.height = 0
      · simp only [hfirst]
        exact .inl rfl
      · simp only [hfirst]
        exact .inr ⟨_, rfl⟩
    | some tip =>
      by_cases hnext : record.parent = tip.id ∧ record.height = tip.height + 1
      · simp only [hnext]
        exact .inl rfl
      · simp only [hnext]
        exact .inr ⟨_, rfl⟩

/-- A block may come behind those that are stored. -/
def Admits (state : LedgerState) (record : BlockRecord) : Prop :=
  (checkLinkage record).run state = .ok () state

theorem run_checkLinkage_eq_ok_iff {record : BlockRecord} :
    (checkLinkage record).run state = .ok () after ↔ state.Admits record ∧ state = after := by
  unfold Admits
  rcases run_checkLinkage_cases state record with h | ⟨e, h⟩ <;> simp [h]

theorem run_insertBlock_eq_ok_iff {record : BlockRecord} :
    (insertBlock record).run state = .ok () after ↔ state.Admits record ∧
      { state with tip := some record.id, blocks := state.blocks.insert record.id record } =
        after := by
  unfold insertBlock putBlock
  rw [run_bind_eq_ok_iff]
  constructor
  · rintro ⟨_, _, hlinked, hput⟩
    obtain ⟨hlinked, rfl⟩ := run_checkLinkage_eq_ok_iff.1 hlinked
    cases hput
    exact ⟨hlinked, rfl⟩
  · rintro ⟨hlinked, rfl⟩
    exact ⟨(), state, hlinked, rfl⟩

theorem run_deleteUtxo_eq_ok_iff {o : Outpoint} : (deleteUtxo o).run state = .ok () after ↔
    ∃ utxos, state.utxos.take? o = some utxos ∧ { state with utxos := utxos } = after := by
  unfold deleteUtxo Table.take?
  simp only [EStateM.run_bind, EStateM.run_get, EStateM.run_modify]
  by_cases hthere : state.utxos.contains o = true
  · simp [hthere]
  · simp [hthere]

theorem run_insertUtxo_eq_ok_iff {e : Outpoint × Output} :
    (insertUtxo e.1 e.2).run state = .ok () after ↔
      ∃ utxos, state.utxos.put? e = some utxos ∧ { state with utxos := utxos } = after := by
  unfold insertUtxo Table.put?
  simp only [EStateM.run_bind, EStateM.run_get]
  by_cases hthere : state.utxos.contains e.1 = true
  · simp [hthere]
  · simp [hthere]

/-- Steps that change the outputs only, in a row. -/
theorem run_forM_utxos_eq_ok_iff {α : Type} {step : α → LedgerProgram Unit}
    {change : Utxos → α → Option Utxos} (h : ∀ x (state after : LedgerState),
      (step x).run state = .ok () after ↔
        ∃ utxos, change state.utxos x = some utxos ∧ { state with utxos := utxos } = after)
    {xs : List α} : (xs.forM step).run state = .ok () after ↔
      ∃ utxos, xs.foldlM change state.utxos = some utxos ∧
        { state with utxos := utxos } = after := by
  induction xs generalizing state with
  | nil => simp
  | cons x xs ih =>
    simp only [List.forM_eq_forM, List.forM_cons, run_bind_eq_ok_iff, h, List.foldlM_cons, Option.bind_eq_bind,
      Option.bind_eq_some_iff]
    simp only [List.forM_eq_forM] at ih
    constructor
    · rintro ⟨_, _, ⟨between, hx, rfl⟩, hxs⟩
      obtain ⟨utxos, hu, rfl⟩ := ih.1 hxs
      exact ⟨utxos, ⟨between, hx, hu⟩, rfl⟩
    · rintro ⟨utxos, ⟨between, hx, hxs⟩, rfl⟩
      exact ⟨(), _, ⟨between, hx, rfl⟩, ih.2 ⟨utxos, hxs, rfl⟩⟩

theorem run_forM_deleteUtxo_eq_ok_iff {spent : List Outpoint} :
    (spent.forM deleteUtxo).run state = .ok () after ↔
      ∃ rest, spent.foldlM Table.take? state.utxos = some rest ∧
        { state with utxos := rest } = after :=
  run_forM_utxos_eq_ok_iff fun _ _ _ => run_deleteUtxo_eq_ok_iff

theorem run_forM_insertUtxo_eq_ok_iff {created : List (Outpoint × Output)} :
    (created.forM fun e => insertUtxo e.1 e.2).run state = .ok () after ↔
      ∃ utxos, created.foldlM Table.put? state.utxos = some utxos ∧
        { state with utxos := utxos } = after :=
  run_forM_utxos_eq_ok_iff fun _ _ _ => run_insertUtxo_eq_ok_iff

theorem run_forM_drop_eq_ok_iff {mined : List TxId} :
    (mined.forM drop).run state = .ok () after ↔
      { state with mempool := state.mempool.eraseMany mined } = after := by
  have hrun : (mined.forM drop).run state = _ := run_forM_modify _ mined state
  rw [hrun, foldl_drop]
  simp

/-- What it takes for the steps to succeed, and what they leave. -/
theorem run_steps_eq_ok_iff : (steps c).run state = .ok () after ↔
    state.Admits c.record ∧ c.AppliesInSteps state.utxos ∧ after = state.committed c := by
  unfold steps
  rw [run_bind_eq_ok_iff]
  constructor
  · rintro ⟨_, _, hblock, hrest⟩
    obtain ⟨_, _, hspent, hrest⟩ := run_bind_eq_ok_iff.1 hrest
    obtain ⟨_, _, hcreated, hmined⟩ := run_bind_eq_ok_iff.1 hrest
    obtain ⟨hlinked, rfl⟩ := run_insertBlock_eq_ok_iff.1 hblock
    obtain ⟨rest, htaken, rfl⟩ := run_forM_deleteUtxo_eq_ok_iff.1 hspent
    obtain ⟨utxos, hput, rfl⟩ := run_forM_insertUtxo_eq_ok_iff.1 hcreated
    obtain ⟨happlies, rfl⟩ := Commit.foldlM_eq_some_iff.1 ⟨rest, htaken, hput⟩
    exact ⟨hlinked, happlies, (run_forM_drop_eq_ok_iff.1 hmined).symm⟩
  · rintro ⟨hlinked, happlies, rfl⟩
    obtain ⟨rest, htaken, hput⟩ := Commit.foldlM_eq_some_iff.2 ⟨happlies, rfl⟩
    refine ⟨(), _, run_insertBlock_eq_ok_iff.2 ⟨hlinked, rfl⟩, run_bind_eq_ok_iff.2 ⟨(), _,
      run_forM_deleteUtxo_eq_ok_iff.2 ⟨rest, htaken, rfl⟩, run_bind_eq_ok_iff.2 ⟨(), _,
        run_forM_insertUtxo_eq_ok_iff.2 ⟨_, hput, rfl⟩, ?_⟩⟩⟩
    exact run_forM_drop_eq_ok_iff.2 rfl

/-- **A commit in place does all of it or nothing.** -/
theorem run_commit_cases (state : LedgerState) (c : Commit) :
    ((state.Admits c.record ∧ c.Applies state.utxos) ∧
      (commit c).run state = .ok () (state.committed c)) ∨
    ¬(state.Admits c.record ∧ c.Applies state.utxos) ∧
      ∃ e, (commit c).run state = .error e state := by
  rw [Commit.applies_iff_find?]
  unfold commit Admits
  rw [EStateM.run_bind]
  rcases run_checkLinkage_cases state c.record with hlinked | ⟨e, herror⟩
  · rw [hlinked]
    simp only [EStateM.run_bind, EStateM.run_get]
    cases c.spent.find? fun o => !state.utxos.contains o with
    | some missing => exact .inr ⟨by simp, _, rfl⟩
    | none =>
      cases c.created.find? fun e => state.utxos.contains e.1 with
      | some existing => exact .inr ⟨by simp, _, rfl⟩
      | none =>
        simp only [EStateM.run_bind, run_forM_modify, foldl_erase, foldl_insert, foldl_drop]
        exact .inl ⟨by simp, rfl⟩
  · rw [herror]
    exact .inr ⟨by simp, e, rfl⟩

theorem run_commit_eq_ok_iff : (commit c).run state = .ok () after ↔
    state.Admits c.record ∧ c.Applies state.utxos ∧ after = state.committed c := by
  rcases run_commit_cases state c with ⟨⟨hlinked, happlies⟩, hrun⟩ | ⟨hnot, e, hrun⟩ <;> rw [hrun]
  · simp [hlinked, happlies, eq_comm]
  · simp only [reduceCtorEq, false_iff]
    exact fun h => hnot ⟨h.1, h.2.1⟩

theorem run_commit_asSteps (state : LedgerState) (c : Commit) :
    c.AsSteps ((commit c).run state = .ok () ·) ((steps c).run state = .ok () ·) :=
  Commit.asSteps_of_iff (fun _ => run_commit_eq_ok_iff) fun _ => run_steps_eq_ok_iff

end LedgerState

/-- **A commit is the atomic form of its steps.** Whatever the ledger and whatever the commit, it succeeds
where its steps succeed one after the other, and leaves what they leave, unless it creates what it spends,
which it refuses; with no outpoint named twice on one side it succeeds nowhere else. If it fails it leaves
all fields. -/
theorem Commit.atomic (c : Commit) :
    (∀ ledger : Ledger, c.AsSteps (ledger.commit c = .ok ·) (ledger.steps c = .ok ·)) ∧
    ∀ state : LedgerState,
      c.AsSteps ((LedgerState.commit c).run state = .ok () ·)
        ((LedgerState.steps c).run state = .ok () ·) ∧
      ((∃ after, (LedgerState.commit c).run state = .ok () after) ∨
        ∃ e, (LedgerState.commit c).run state = .error e state) := by
  refine ⟨fun ledger => ledger.commit_asSteps c, fun state => ⟨state.run_commit_asSteps c, ?_⟩⟩
  rcases state.run_commit_cases c with ⟨-, hrun⟩ | ⟨-, hrun⟩
  · exact .inl ⟨_, hrun⟩
  · exact .inr hrun

/-! ### One coin, twice -/

namespace Coin

/-- The outpoint of a coin. -/
def outpoint : Outpoint :=
  ⟨⟨⟨List.replicate 32 2, List.length_replicate⟩⟩, 0⟩

/-- An outpoint that is free. -/
def free : Outpoint :=
  ⟨⟨⟨List.replicate 32 3, List.length_replicate⟩⟩, 0⟩

/-- A ledger with the coin and without blocks. -/
def ledger : Ledger :=
  ⟨.empty, ⟨[(outpoint, ⟨5, [0x51]⟩)]⟩, []⟩

/-- A first block. -/
def record : BlockRecord :=
  ⟨⟨⟨bigEndian 32 0xefa7beffc1b31171d360329299e52ad5a87930ad4abfab774da4bfada7512886, by simp⟩⟩, 0,
    .zero, ⟨default, [.ofBody .escrowOpen]⟩⟩

/-- The coin is spent twice. -/
def spendTwice : Commit :=
  ⟨record, [outpoint, outpoint], [], []⟩

/-- Two outputs are created at one outpoint. -/
def createTwice : Commit :=
  ⟨record, [], [(free, ⟨6, [0x51]⟩), (free, ⟨7, [0x51]⟩)], []⟩

/-- The coin is spent, and another one is created in its place. -/
def replace : Commit :=
  ⟨record, [outpoint], [(outpoint, ⟨6, [0x51]⟩)], []⟩

/-- **A commit does not always succeed where its steps do, nor they where it does.** It spends a coin
twice, and creates two coins at one outpoint, where the second step of its kind fails; and it does not
replace a coin, though its steps would. -/
theorem not_asSteps :
    (∃ after, ledger.commit spendTwice = .ok after ∧ ∀ after, ledger.steps spendTwice ≠ .ok after) ∧
    (∃ after, ledger.commit createTwice = .ok after ∧ ∀ after, ledger.steps createTwice ≠ .ok after) ∧
    (∃ after, ledger.steps replace = .ok after ∧ ∀ after, ledger.commit replace ≠ .ok after) := by
  have hspent : ¬spendTwice.spent.Nodup := by decide
  have hcreated : ¬(createTwice.created.map Prod.fst).Nodup := by decide
  have hthere : outpoint ∈ ledger.utxos.keys := List.mem_singleton_self outpoint
  refine ⟨⟨_, rfl, fun after h => ?_⟩, ⟨_, rfl, fun after h => ?_⟩, ⟨_, rfl, fun after h => ?_⟩⟩
  · exact hspent (Ledger.steps_eq_ok_iff.1 h).2.1.distinct.spent
  · exact hcreated (Ledger.steps_eq_ok_iff.1 h).2.1.distinct.created
  · exact (Ledger.commit_eq_ok_iff.1 h).2.1.created _ (List.mem_singleton_self _) hthere

end Coin

end UtxoLedger
