import UtxoLedger.Proofs.Machine
import UtxoLedger.Transaction.Rules
import UtxoLedger.Transaction.Signing

/-!
What a spending can fail with: a script that cannot be read, a step that cannot be taken, a signature
that is not valid, or whatever the digest to be signed fails with. Nothing in it tells of blocks.
-/

namespace UtxoLedger

namespace Machine

namespace Run

variable {α β : Type} {P : Error → Prop} {run : Run α} {next : α → Run β}

/-- The step fails with such errors only, whatever the machine. -/
def Raises (P : Error → Prop) (run : Run α) : Prop :=
  ∀ m e, (run.apply m).1 = .error e → P e

theorem raises_pure {x : α} : Raises P (pure x) := by
  intro m e h
  cases h

theorem raises_throw {e : Error} (h : P e) : Raises P (throw e : Run α) := by
  intro m e' he
  cases he
  exact h

theorem raises_get : Raises P (get : Run Machine) := by
  intro m e h
  cases h

theorem raises_modify {f : Machine → Machine} : Raises P (modify f : Run PUnit) := by
  intro m e h
  cases h

theorem Raises.bind (h : run.Raises P) (hnext : ∀ x, (next x).Raises P) :
    Raises P (run >>= next) := by
  intro m e he
  have hfails : (run >>= next).apply m = (.error e, ((run >>= next).apply m).2) := Prod.ext he rfl
  rcases bind_eq_error_iff.1 hfails with hfirst | ⟨x, between, -, hsecond⟩
  · exact h m e (congrArg Prod.fst hfirst)
  · exact hnext x between e (congrArg Prod.fst hsecond)

theorem raises_forM {xs : List α} {body : α → Run PUnit} (h : ∀ x, (body x).Raises P) :
    Raises P (xs.forM body) := by
  induction xs with
  | nil => exact raises_pure
  | cons x xs ih => exact (h x).bind fun _ => ih

theorem raises_onStack {step : Stack.Step α} (h : ∀ cause, P (.scriptExecution cause)) :
    Raises P (onStack step) := by
  intro m e he
  have hstep : (onStack step).apply m =
      match step.apply m.stack with
      | (.ok x, stack) => (.ok x, { m with stack })
      | (.error cause, stack) => (.error (.scriptExecution cause), { m with stack }) := rfl
  rw [hstep] at he
  cases hs : step.apply m.stack with
  | mk outcome stack =>
    rw [hs] at he
    cases outcome with
    | error cause =>
      cases he
      exact h cause
    | ok x => cases he

end Run

end Machine

/-! ### Spendings -/

/-- What the check of a spending can fail with. -/
inductive SpendContext.Fails (context : SpendContext) : Error → Prop
  | parse {cause : ScriptError} : Fails context (.scriptParse cause)
  | execution {cause : ExecutionError} : Fails context (.scriptExecution cause)
  | signature : Fails context (.invalidSignature (.input context.index))
  | digest {code : Bytes} {e : Error} :
      context.digest code context.index context.amount = .error e → Fails context e

/-- Whether an error tells of blocks and how they are stored. -/
def Error.isBlock : Error → Bool
  | blockValidation _ => true
  | _ => false

theorem SpendContext.Fails.isBlock_eq_false {context : SpendContext} {e : Error}
    (h : context.Fails e) (hd : ∀ code e,
      context.digest code context.index context.amount = .error e → e.isBlock = false) :
    e.isBlock = false := by
  cases h with
  | parse => rfl
  | execution => rfl
  | signature => rfl
  | digest hdigest => exact hd _ _ hdigest

theorem Transaction.isBlock_of_checkRules {tx : Transaction} {e : Error}
    (h : tx.checkRules = .error e) : e.isBlock = false := by
  unfold checkRules at h
  split at h
  · cases h
    rfl
  · split at h
    · cases h
      rfl
    · cases h

namespace Machine

open Run

variable {context : SpendContext}

theorem raises_verify : Raises context.Fails verify := by
  refine (raises_onStack fun _ => .execution).bind fun valid => ?_
  cases valid with
  | true => exact raises_pure
  | false => exact raises_throw .execution

theorem raises_equal : Raises context.Fails equal :=
  (raises_onStack fun _ => .execution).bind fun _ =>
    (raises_onStack fun _ => .execution).bind fun _ => raises_onStack fun _ => .execution

theorem raises_popProgram : Raises context.Fails popProgram := by
  refine (raises_onStack fun _ => .execution).bind fun program => ?_
  refine (raises_onStack fun _ => .execution).bind fun version => ?_
  split
  · exact raises_throw .execution
  · split
    · exact raises_throw .execution
    · exact raises_pure

theorem raises_conclude : Raises context.Fails (conclude context) := by
  refine raises_get.bind fun m => ?_
  dsimp only
  split
  · exact raises_throw .execution
  · refine (raises_onStack fun _ => .execution).bind fun valid => ?_
    cases valid with
    | true => exact raises_pure
    | false => exact raises_throw .signature

variable [CryptoSuite]

theorem fails_checkSignature {code signature key : Bytes} {e : Error}
    (h : checkSignature (some context) code signature key = .error e) : context.Fails e := by
  unfold checkSignature at h
  dsimp only at h
  split at h
  · cases hd : context.digest code context.index context.amount with
    | error found =>
      rw [hd] at h
      cases h
      exact .digest hd
    | ok digest =>
      rw [hd] at h
      cases h
  · cases h

theorem raises_step (instruction : Instruction) :
    Raises context.Fails (step (some context) instruction) := by
  have hstack : ∀ {α : Type} (act : Stack.Step α), Raises context.Fails (onStack act) :=
    fun _ => raises_onStack fun _ => .execution
  unfold step
  split
  case h_1 => exact hstack _
  case h_2 =>
    split
    · exact raises_throw .execution
    · exact hstack _
  case h_3 => exact raises_verify
  case h_4 => exact hstack _
  case h_5 => exact raises_equal
  case h_6 => exact raises_equal.bind fun _ => raises_verify
  case h_7 => exact hstack _
  case h_8 =>
    refine (hstack _).bind fun key => (hstack _).bind fun signature => raises_get.bind fun m => ?_
    have hcheck : Raises context.Fails (ExceptT.mk
        (pure (checkSignature (some context) m.scriptCode signature key)) : Run Bool) :=
      fun _ _ he => fails_checkSignature he
    exact hcheck.bind fun valid => hstack _

theorem raises_execute (script : Script) :
    Raises context.Fails (execute (some context) script) :=
  raises_modify.bind fun _ => raises_forM raises_step

theorem raises_spend (locking unlocking : Script) (witness : Witness) :
    Raises context.Fails (spend context locking unlocking witness) := by
  have hpush : Raises context.Fails (pushWitness witness) :=
    raises_forM fun _ => raises_onStack fun _ => .execution
  refine hpush.bind fun _ => (raises_execute _).bind fun _ => (raises_execute _).bind fun _ => ?_
  exact raises_popProgram.bind fun _ => (raises_execute _).bind fun _ => raises_conclude

end Machine

variable [CryptoSuite]

/-- **What a spending fails with**, whatever its scripts and its witness. -/
theorem fails_of_authorize {locking unlocking : Script} {witness : Witness}
    {context : SpendContext} {e : Error}
    (h : authorize locking unlocking witness context = .error e) : context.Fails e := by
  unfold authorize at h
  split at h
  · cases h
    exact .parse
  · split at h
    · cases h
      exact .execution
    · exact Machine.raises_spend _ _ _ _ _ h

namespace Transaction

theorem fails_of_authorizeInput {source : DigestSource} {index : Nat} {input : Input}
    {witness : Witness} {previous : Output} {e : Error}
    (h : authorizeInput source index input witness previous = .error e) :
    SpendContext.Fails ⟨source, index, previous.value.toUInt64⟩ e := by
  unfold authorizeInput at h
  split at h
  · cases h
    exact .parse
  · cases h
    exact .parse
  · exact fails_of_authorize h

theorem fails_of_authorizeInputs {source : DigestSource} {index : Nat} {inputs : List Input}
    {witnesses : List Witness} {previous : List Output} {e : Error}
    (h : authorizeInputs source index inputs witnesses previous = .error e) :
    ∃ i amount, SpendContext.Fails ⟨source, i, amount⟩ e := by
  induction inputs generalizing index witnesses previous with
  | nil => cases h
  | cons input inputs ih =>
    cases witnesses with
    | nil => cases h
    | cons witness witnesses =>
      cases previous with
      | nil => cases h
      | cons output previous =>
        simp only [authorizeInputs] at h
        cases hone : authorizeInput source index input witness output with
        | error found =>
          rw [hone] at h
          cases h
          exact ⟨index, _, fails_of_authorizeInput hone⟩
        | ok _ =>
          rw [hone] at h
          exact ih h

theorem isBlock_of_digest {hasher : Hasher} {code : Bytes} {index : Nat} {amount : UInt64}
    {e : Error} (h : hasher.digest code index amount = .error e) : e.isBlock = false := by
  unfold Hasher.digest at h
  split at h
  · cases h
    rfl
  · cases h

/-- **The authorisation of a transfer does not fail with an error about blocks.** -/
theorem isBlock_of_authorizeInputs {hasher : Hasher} {index : Nat} {inputs : List Input}
    {witnesses : List Witness} {previous : List Output} {e : Error}
    (h : authorizeInputs hasher.digest index inputs witnesses previous = .error e) :
    e.isBlock = false := by
  obtain ⟨i, amount, hfails⟩ := fails_of_authorizeInputs h
  exact hfails.isBlock_eq_false fun _ _ hd => isBlock_of_digest hd

end Transaction

end UtxoLedger
