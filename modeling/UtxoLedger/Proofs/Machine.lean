import UtxoLedger.Proofs.Lists
import UtxoLedger.Script.Machine

/-!
The script machine, step by step: on which stacks a step succeeds and what it then leaves. From this
follows what the standard output script and the script code that it selects do.
-/

namespace UtxoLedger

theorem FixedBytes.ofList?_eq_some_iff {n : Nat} {bytes : Bytes} {fixed : FixedBytes n} :
    FixedBytes.ofList? bytes = some fixed ↔ bytes = fixed.toList := by
  unfold ofList?
  split
  · rw [Option.some.injEq, FixedBytes.ext_iff]
  · next h =>
    simp only [reduceCtorEq, false_iff]
    rintro rfl
    exact h fixed.length_toList

namespace Stack

/-- Runs a step on a stack. -/
def Step.apply {α : Type} (step : Step α) (stack : Stack) : Except ExecutionError α × Stack :=
  step stack

variable {α β : Type} {stack after : Stack} {bytes : Bytes} {x : α} {y : β}

@[simp]
theorem size_mk (items : List Bytes) : size ⟨items⟩ = items.length := rfl

/-! ### Steps on the stack -/

@[simp]
theorem apply_pure : (pure x : Step α).apply stack = (.ok x, stack) := rfl

theorem apply_bind_eq_ok_iff {step : Step α} {next : α → Step β} :
    (step >>= next).apply stack = (.ok y, after) ↔
      ∃ x between, step.apply stack = (.ok x, between) ∧
        (next x).apply between = (.ok y, after) :=
  bind_eq_ok_iff

theorem apply_push (bytes : Bytes) (stack : Stack) : (push bytes).apply stack =
    if maxSize ≤ stack.size then (.error (.stackOverflow (stack.size + 1)), stack)
    else (.ok (), ⟨bytes :: stack.items⟩) := by
  rw [Step.apply, push]
  change (ite (maxSize ≤ stack.size) _ _ : Step Unit) stack = _
  split <;> rfl

theorem push_eq_ok_iff : (push bytes).apply stack = (.ok (), after) ↔
    stack.size < maxSize ∧ after = ⟨bytes :: stack.items⟩ := by
  rw [apply_push]
  split
  · next hs => simp [Nat.not_lt.2 hs]
  · next hs => simp [Nat.not_le.1 hs, eq_comm]

theorem pop_eq_ok_iff :
    pop.apply stack = (.ok bytes, after) ↔ stack.items = bytes :: after.items := by
  obtain ⟨items⟩ := stack
  obtain ⟨rest⟩ := after
  cases items with
  | nil =>
    have h : pop.apply ⟨[]⟩ = (.error .stackUnderflow, ⟨[]⟩) := rfl
    simp [h]
  | cons top below =>
    have h : pop.apply ⟨top :: below⟩ = (.ok top, ⟨below⟩) := rfl
    simp [h]

theorem apply_peek (depth : Nat) (stack : Stack) : (peek depth).apply stack =
    (match stack.items[depth]? with
      | some bytes => .ok bytes
      | none => .error (.stackDepth depth stack.size), stack) := by
  change Step.apply (match stack.items[depth]? with
    | some bytes => pure bytes
    | none => throw (.stackDepth depth stack.size)) stack = _
  cases stack.items[depth]? <;> rfl

theorem peek_zero_eq_ok_iff :
    (peek 0).apply stack = (.ok bytes, after) ↔ stack.items.head? = some bytes ∧ after = stack := by
  rw [apply_peek, List.head?_eq_getElem?]
  cases stack.items[0]? <;> simp [eq_comm]

end Stack

namespace Machine

namespace Run

variable {α β : Type} {m m' : Machine} {x : α} {y : β} {run : Run α} {next : α → Run β}

/-! ### Composition -/

@[simp]
theorem apply_pure : (pure x : Run α).apply m = (.ok x, m) := rfl

@[simp]
theorem apply_throw {e : Error} : (throw e : Run α).apply m = (.error e, m) := rfl

@[simp]
theorem apply_get : (get : Run Machine).apply m = (.ok m, m) := rfl

theorem apply_bind_eq_ok_iff : (run >>= next).apply m = (.ok y, m') ↔
    ∃ x between, run.apply m = (.ok x, between) ∧ (next x).apply between = (.ok y, m') :=
  bind_eq_ok_iff

/-- A step whose outcome is known, and one behind it. -/
theorem apply_bind_of_eq_ok {between : Machine} (h : run.apply m = (.ok x, between)) :
    (run >>= next).apply m = (next x).apply between := by
  change (ExceptT.bindCont next (run m).1) (run m).2 = _
  have hrun : (run m) = (.ok x, between) := h
  rw [hrun]
  rfl

/-- A step that only acts, and one behind it. -/
theorem apply_seq_eq_ok_iff {act : Run Unit} {next : Unit → Run β} :
    (act >>= next).apply m = (.ok y, m') ↔
      ∃ between, act.apply m = (.ok (), between) ∧ (next ()).apply between = (.ok y, m') := by
  rw [apply_bind_eq_ok_iff]
  constructor
  · rintro ⟨_, between, h⟩
    exact ⟨between, h⟩
  · rintro ⟨between, h⟩
    exact ⟨(), between, h⟩

end Run

open Run

variable {α : Type} {m m' : Machine} {x : α} {bytes : Bytes}

/-! ### Steps of the machine on its stack -/

theorem onStack_eq_ok_iff {step : Stack.Step α} : (onStack step).apply m = (.ok x, m') ↔
    ∃ stack, step.apply m.stack = (.ok x, stack) ∧ m' = { m with stack } := by
  have h : (onStack step).apply m = match step.apply m.stack with
      | (.ok x, stack) => (.ok x, { m with stack })
      | (.error e, stack) => (.error (.scriptExecution e), { m with stack }) := rfl
  rw [h]
  rcases step.apply m.stack with ⟨e | y, stack⟩
  · simp
  · simp only [Prod.mk.injEq, Except.ok.injEq]
    constructor
    · rintro ⟨rfl, rfl⟩
      exact ⟨stack, ⟨rfl, rfl⟩, rfl⟩
    · rintro ⟨_, ⟨rfl, rfl⟩, rfl⟩
      exact ⟨rfl, rfl⟩

theorem push_eq_ok_iff : (onStack (Stack.push bytes)).apply m = (.ok (), m') ↔
    m.stack.size < Stack.maxSize ∧ m' = { m with stack := ⟨bytes :: m.stack.items⟩ } := by
  simp only [onStack_eq_ok_iff, Stack.push_eq_ok_iff]
  constructor
  · rintro ⟨_, ⟨hs, rfl⟩, rfl⟩
    exact ⟨hs, rfl⟩
  · rintro ⟨hs, rfl⟩
    exact ⟨_, ⟨hs, rfl⟩, rfl⟩

theorem pop_eq_ok_iff : (onStack Stack.pop).apply m = (.ok bytes, m') ↔
    m.stack.items = bytes :: m'.stack.items ∧ m'.scriptCode = m.scriptCode := by
  simp only [onStack_eq_ok_iff, Stack.pop_eq_ok_iff]
  constructor
  · rintro ⟨_, hs, rfl⟩
    exact ⟨hs, rfl⟩
  · rintro ⟨hs, hc⟩
    exact ⟨m'.stack, hs, by rw [← hc]⟩

theorem popBool_eq_ok_iff {b : Bool} : (onStack Stack.popBool).apply m = (.ok b, m') ↔
    ∃ bytes, m.stack.items = bytes :: m'.stack.items ∧ ScriptBool.decode bytes = b ∧
      m'.scriptCode = m.scriptCode := by
  have h : ∀ {stack after : Stack}, Stack.popBool.apply stack = (.ok b, after) ↔
      ∃ bytes, stack.items = bytes :: after.items ∧ ScriptBool.decode bytes = b := by
    intro stack after
    rw [Stack.popBool, Stack.apply_bind_eq_ok_iff]
    constructor
    · rintro ⟨bytes, between, hp, hd⟩
      obtain ⟨rfl, rfl⟩ : ScriptBool.decode bytes = b ∧ between = after := by simpa using hd
      exact ⟨bytes, Stack.pop_eq_ok_iff.1 hp, rfl⟩
    · rintro ⟨bytes, hp, rfl⟩
      exact ⟨bytes, after, Stack.pop_eq_ok_iff.2 hp, rfl⟩
  simp only [onStack_eq_ok_iff, h]
  constructor
  · rintro ⟨_, ⟨bytes, hs, hd⟩, rfl⟩
    exact ⟨bytes, hs, hd, rfl⟩
  · rintro ⟨bytes, hs, hd, hc⟩
    exact ⟨m'.stack, ⟨bytes, hs, hd⟩, by rw [← hc]⟩

@[simp]
theorem decode_encode (b : Bool) : ScriptBool.decode (ScriptBool.encode b) = b := by
  cases b <;> rfl

/-- What a standard output script leaves is taken off. -/
theorem popProgram_eq_ok {hash : KeyHash} {rest : List Bytes} {code : Bytes} :
    popProgram.apply ⟨⟨hash.toList :: [] :: rest⟩, code⟩ = (.ok hash, ⟨⟨rest⟩, code⟩) := by
  have hprogram : (onStack Stack.pop).apply ⟨⟨hash.toList :: [] :: rest⟩, code⟩ =
      (.ok hash.toList, ⟨⟨[] :: rest⟩, code⟩) := rfl
  have hversion : (onStack Stack.popNumber).apply ⟨⟨[] :: rest⟩, code⟩ =
      (.ok 0, ⟨⟨rest⟩, code⟩) := rfl
  rw [popProgram, apply_bind_of_eq_ok hprogram, apply_bind_of_eq_ok hversion,
    if_neg (not_not_intro rfl), FixedBytes.ofList?_eq_some_iff.2 rfl, apply_pure]

theorem conclude_eq_ok_iff {context : SpendContext} :
    (conclude context).apply m = (.ok (), m') ↔
      ∃ bytes, m.stack.items = [bytes] ∧ ScriptBool.decode bytes = true ∧
        m' = { m with stack := .empty } := by
  rw [conclude, apply_bind_of_eq_ok apply_get]
  by_cases hs : m.stack.size = 1
  · obtain ⟨bytes, hi⟩ := List.length_eq_one_iff.1 hs
    have hpop : (onStack Stack.popBool).apply m =
        (.ok (ScriptBool.decode bytes), { m with stack := .empty }) :=
      popBool_eq_ok_iff.2 ⟨bytes, hi, rfl, rfl⟩
    rw [if_neg (not_not_intro hs), apply_bind_of_eq_ok hpop]
    rw [hi]
    cases hd : ScriptBool.decode bytes with
    | false =>
      simp [hd]
    | true =>
      simp only [List.cons.injEq, and_true, exists_eq_left', hd, true_and]
      simp [eq_comm]
  · rw [if_pos hs, apply_throw]
    simp only [Prod.mk.injEq, reduceCtorEq, false_and, false_iff]
    rintro ⟨bytes, hi, -⟩
    exact hs (List.length_eq_one_iff.2 ⟨bytes, hi⟩)

theorem verify_eq_ok_iff : verify.apply m = (.ok (), m') ↔
    ∃ bytes, m.stack.items = bytes :: m'.stack.items ∧ ScriptBool.decode bytes = true ∧
      m'.scriptCode = m.scriptCode := by
  rw [verify, apply_bind_eq_ok_iff]
  constructor
  · rintro ⟨b, between, hp, hb⟩
    cases b with
    | false => simp at hb
    | true =>
      obtain rfl : between = m' := by simpa using hb
      exact popBool_eq_ok_iff.1 hp
  · intro h
    exact ⟨true, m', popBool_eq_ok_iff.2 h, rfl⟩

theorem equal_eq_ok_iff : equal.apply m = (.ok (), m') ↔
    ∃ a b rest, m.stack.items = a :: b :: rest ∧ rest.length < Stack.maxSize ∧
      m' = { m with stack := ⟨ScriptBool.encode (a == b) :: rest⟩ } := by
  simp only [equal, apply_bind_eq_ok_iff, pop_eq_ok_iff, Stack.pushBool, push_eq_ok_iff]
  constructor
  · rintro ⟨a, m₁, ⟨ha, hc₁⟩, b, m₂, ⟨hb, hc₂⟩, hs, rfl⟩
    exact ⟨a, b, m₂.stack.items, by rw [ha, hb], hs, by rw [hc₂, hc₁]⟩
  · rintro ⟨a, b, rest, hi, hs, rfl⟩
    exact ⟨a, { m with stack := ⟨b :: rest⟩ }, ⟨hi, rfl⟩, b, { m with stack := ⟨rest⟩ }, ⟨rfl, rfl⟩,
      hs, rfl⟩

variable [CryptoSuite] {context : Option SpendContext}

/-! ### Operations -/

theorem step_zero_eq_ok_iff : (step context (.plain .zero)).apply m = (.ok (), m') ↔
    m.stack.size < Stack.maxSize ∧ m' = { m with stack := ⟨[] :: m.stack.items⟩ } := by
  have h : ScriptNumber.encode 0 = [] := by
    simp [ScriptNumber.encode, ScriptNumber.magnitudeBytes, ScriptNumber.withSign]
  rw [step, Instruction.plain, Stack.pushNumber, h, push_eq_ok_iff]

theorem step_push_eq_ok_iff {hash : KeyHash} :
    (step context (.push hash)).apply m = (.ok (), m') ↔
      m.stack.size < Stack.maxSize ∧ m' = { m with stack := ⟨hash.toList :: m.stack.items⟩ } :=
  push_eq_ok_iff

theorem step_dup_eq_ok_iff : (step context (.plain .dup)).apply m = (.ok (), m') ↔
    m.stack.size < Stack.maxSize ∧ ∃ top, m.stack.items.head? = some top ∧
      m' = { m with stack := ⟨top :: m.stack.items⟩ } := by
  change (onStack (Stack.peek 0 >>= Stack.push)).apply m = _ ↔ _
  simp only [onStack_eq_ok_iff, Stack.apply_bind_eq_ok_iff, Stack.peek_zero_eq_ok_iff,
    Stack.push_eq_ok_iff]
  constructor
  · rintro ⟨_, ⟨top, _, ⟨ht, rfl⟩, hs, rfl⟩, rfl⟩
    exact ⟨hs, top, ht, rfl⟩
  · rintro ⟨hs, top, ht, rfl⟩
    exact ⟨_, ⟨top, _, ⟨ht, rfl⟩, hs, rfl⟩, rfl⟩

theorem step_hash160_eq_ok_iff : (step context (.plain .hash160)).apply m = (.ok (), m') ↔
    ∃ top rest, m.stack.items = top :: rest ∧ rest.length < Stack.maxSize ∧
      m' = { m with stack := ⟨(hash160 top).toList :: rest⟩ } := by
  change (onStack (Stack.pop >>= fun top => Stack.push (hash160 top).toList)).apply m = _ ↔ _
  simp only [onStack_eq_ok_iff, Stack.apply_bind_eq_ok_iff, Stack.pop_eq_ok_iff,
    Stack.push_eq_ok_iff]
  constructor
  · rintro ⟨_, ⟨top, between, ht, hs, rfl⟩, rfl⟩
    exact ⟨top, between.items, ht, hs, rfl⟩
  · rintro ⟨top, rest, ht, hs, rfl⟩
    exact ⟨_, ⟨top, ⟨rest⟩, ht, hs, rfl⟩, rfl⟩

theorem step_equalVerify_eq_ok_iff :
    (step context (.plain .equalVerify)).apply m = (.ok (), m') ↔
      ∃ a rest, m.stack.items = a :: a :: rest ∧ rest.length < Stack.maxSize ∧
        m' = { m with stack := ⟨rest⟩ } := by
  rw [step, Instruction.plain, apply_seq_eq_ok_iff]
  simp only [equal_eq_ok_iff, verify_eq_ok_iff]
  constructor
  · rintro ⟨_, ⟨a, b, rest, hi, hs, rfl⟩, bytes, hb, hd, hc⟩
    obtain ⟨rfl, hrest⟩ := List.cons.inj hb
    obtain rfl : a = b := by simpa using hd
    refine ⟨a, rest, hi, hs, ?_⟩
    obtain ⟨⟨items⟩, code⟩ := m'
    cases hrest
    cases hc
    rfl
  · rintro ⟨a, rest, hi, hs, rfl⟩
    exact ⟨_, ⟨a, a, rest, hi, hs, rfl⟩, _, rfl, by simp, rfl⟩

theorem step_checkSig_eq_ok_iff :
    (step context (.plain .checkSig)).apply m = (.ok (), m') ↔
      ∃ key signature rest valid, m.stack.items = key :: signature :: rest ∧
        checkSignature context m.scriptCode signature key = .ok valid ∧
        rest.length < Stack.maxSize ∧
        m' = { m with stack := ⟨ScriptBool.encode valid :: rest⟩ } := by
  have hcheck : ∀ {r : Except Error Bool} {between after : Machine} {valid : Bool},
      Run.apply (ExceptT.mk (pure r)) between = (.ok valid, after) ↔
        r = .ok valid ∧ between = after := by
    intro r between after valid
    have h : Run.apply (ExceptT.mk (pure r)) between = (r, between) := rfl
    rw [h, Prod.mk.injEq]
  rw [step, Instruction.plain]
  simp only [apply_bind_eq_ok_iff, pop_eq_ok_iff, hcheck, Stack.pushBool, push_eq_ok_iff, apply_get,
    Prod.mk.injEq, Except.ok.injEq]
  constructor
  · rintro ⟨key, m₁, ⟨hk, hc₁⟩, signature, m₂, ⟨hs, hc₂⟩, _, _, ⟨rfl, rfl⟩, valid, _, ⟨hv, rfl⟩,
      hlt, rfl⟩
    refine ⟨key, signature, m₂.stack.items, valid, by rw [hk, hs], ?_, hlt, by rw [hc₂, hc₁]⟩
    rwa [hc₂, hc₁] at hv
  · rintro ⟨key, signature, rest, valid, hi, hv, hlt, rfl⟩
    exact ⟨key, { m with stack := ⟨signature :: rest⟩ }, ⟨hi, rfl⟩, signature,
      { m with stack := ⟨rest⟩ }, ⟨rfl, rfl⟩, _, _, ⟨rfl, rfl⟩, valid, _, ⟨hv, rfl⟩, hlt, rfl⟩

/-! ### Scripts -/

theorem execute_eq_ok_iff {script : Script} : (execute context script).apply m = (.ok (), m') ↔
    (script.instructions.forM (step context)).apply { m with scriptCode := script.bytes } =
      (.ok (), m') := by
  have hmodify : ∀ {between : Machine}, (modify fun m => { m with scriptCode := script.bytes } :
      Run PUnit).apply m = (.ok (), between) ↔ { m with scriptCode := script.bytes } = between := by
    intro between
    have h : (modify fun m => { m with scriptCode := script.bytes } : Run PUnit).apply m =
      (.ok (), { m with scriptCode := script.bytes }) := rfl
    simp [h]
  rw [execute, apply_seq_eq_ok_iff]
  simp only [hmodify]
  constructor
  · rintro ⟨_, rfl, h⟩
    exact h
  · intro h
    exact ⟨_, rfl, h⟩

theorem forM_cons_eq_ok_iff {instruction : Instruction} {rest : List Instruction} :
    ((instruction :: rest).forM (step context)).apply m = (.ok (), m') ↔
      ∃ between, (step context instruction).apply m = (.ok (), between) ∧
        (rest.forM (step context)).apply between = (.ok (), m') := by
  rw [List.forM, apply_seq_eq_ok_iff]

theorem forM_nil_eq_ok_iff :
    (([] : List Instruction).forM (step context)).apply m = (.ok (), m') ↔ m = m' := by
  simp

/-- The standard output script leaves zero and the digest that it names. -/
theorem execute_payTo_eq_ok_iff {hash : KeyHash} :
    (execute context (Script.payTo hash)).apply m = (.ok (), m') ↔
      m.stack.size + 2 ≤ Stack.maxSize ∧
        m' = ⟨⟨hash.toList :: [] :: m.stack.items⟩, (Script.payTo hash).bytes⟩ := by
  rw [execute_eq_ok_iff]
  simp only [Script.payTo, forM_cons_eq_ok_iff, forM_nil_eq_ok_iff, step_zero_eq_ok_iff,
    step_push_eq_ok_iff]
  constructor
  · rintro ⟨_, ⟨-, rfl⟩, _, ⟨hs, rfl⟩, rfl⟩
    simp only [Stack.size_mk, List.length_cons] at hs
    exact ⟨hs, rfl⟩
  · rintro ⟨hs, rfl⟩
    refine ⟨_, ⟨?_, rfl⟩, _, ⟨?_, rfl⟩, rfl⟩
    · omega
    · simp only [Stack.size_mk, List.length_cons]
      exact hs

/-- The script code replaces a signature and a key, which has the digest, by the validity of the
signature for the key. -/
theorem execute_spendCode_eq_ok_iff {hash : KeyHash} :
    (execute context (Script.spendCode hash)).apply m = (.ok (), m') ↔
      ∃ key signature rest valid, m.stack.items = key :: signature :: rest ∧
        m.stack.size + 2 ≤ Stack.maxSize ∧ hash160 key = hash ∧
        checkSignature context (Script.spendCode hash).bytes signature key = .ok valid ∧
        m' = ⟨⟨ScriptBool.encode valid :: rest⟩, (Script.spendCode hash).bytes⟩ := by
  rw [execute_eq_ok_iff]
  simp only [Script.spendCode, forM_cons_eq_ok_iff, forM_nil_eq_ok_iff, step_dup_eq_ok_iff,
    step_hash160_eq_ok_iff, step_push_eq_ok_iff, step_equalVerify_eq_ok_iff,
    step_checkSig_eq_ok_iff]
  constructor
  · rintro ⟨_, ⟨-, key, hkey, rfl⟩, _, ⟨_, _, hdup, -, rfl⟩, _, ⟨hs, rfl⟩, _,
      ⟨a, rest, heq, -, rfl⟩, _, ⟨key', signature, rest', valid, hitems, hvalid, -, rfl⟩, rfl⟩
    -- the element that is hashed is the copy of the top one, so the key stays below the digest
    obtain ⟨⟨items⟩, code⟩ := m
    obtain ⟨below, rfl⟩ : ∃ below, items = key :: below := List.head?_eq_some_iff.1 hkey
    obtain ⟨rfl, rfl⟩ := List.cons.inj hdup
    simp only [List.cons.injEq] at heq
    obtain ⟨rfl, hhash, rfl⟩ := heq
    obtain ⟨rfl, rfl⟩ := List.cons.inj hitems
    refine ⟨key, signature, rest', valid, rfl, hs, FixedBytes.ext hhash, hvalid, rfl⟩
  · rintro ⟨key, signature, rest, valid, hitems, hs, rfl, hvalid, rfl⟩
    obtain ⟨⟨items⟩, code⟩ := m
    obtain rfl : items = key :: signature :: rest := hitems
    simp only [Stack.size_mk, List.length_cons] at hs
    refine ⟨_, ⟨?_, key, rfl, rfl⟩, _, ⟨_, _, rfl, ?_, rfl⟩, _, ⟨?_, rfl⟩, _,
      ⟨_, _, rfl, ?_, rfl⟩, _, ⟨_, _, _, valid, rfl, hvalid, ?_, rfl⟩, rfl⟩
    · simp only [Stack.size_mk, List.length_cons]
      omega
    · simp only [List.length_cons]
      omega
    · simp only [Stack.size_mk, List.length_cons]
      omega
    · simp only [List.length_cons]
      omega
    · omega

end Machine

end UtxoLedger
