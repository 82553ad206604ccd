import UtxoLedger.Proofs.Machine
import UtxoLedger.Proofs.Words
import UtxoLedger.Script.StackWords

/-!
Calls on the stack of the script machine. A call leaves the stack, puts an element on one that has room,
or takes off the top, so that there are never more elements than are allowed; and what is found at a
depth is what comes off when all that is above it is off.
-/

namespace UtxoLedger.Stack

variable {stack after : Stack} {bytes : Bytes} {depth : UInt64} {call : Call}
  {answer : Except ExecutionError Answer}

/-! ### Elements as answers -/

/-- A step, and what is made of what it gives with no more use of the stack. -/
theorem apply_bind_read {α β : Type} (step : Step α) (f : α → Except ExecutionError β) (stack : Stack) :
    (step >>= fun x => ExceptT.mk (pure (f x))).apply stack =
      ((step.apply stack).1 >>= f, (step.apply stack).2) := by
  refine (bind_apply step _ stack).trans ?_
  rw [Step.apply]
  rcases step stack with ⟨e | x, after⟩ <;> rfl

namespace Kind

/-- What an element is read as. -/
def read (kind : Kind) (bytes : Bytes) : Except ExecutionError Answer :=
  match kind with
  | .bytes => .ok (.bytes bytes)
  | .number => (ScriptNumber.decode bytes true maxNumberLength).map .number
  | .truth => .ok (.truth (ScriptBool.decode bytes))

theorem number_eq (source : Step Bytes) : (do return .number (← source >>= asNumber) : Step Answer) =
    source >>= fun bytes => ExceptT.mk (pure (read .number bytes)) := by
  rw [bind_assoc]
  refine congrArg (source >>= ·) (funext fun bytes => ?_)
  unfold asNumber read
  cases ScriptNumber.decode bytes true maxNumberLength <;> rfl

theorem truth_eq (source : Step Bytes) :
    (do return .truth (← source >>= fun bytes => pure (ScriptBool.decode bytes)) : Step Answer) =
      source >>= fun bytes => ExceptT.mk (pure (read .truth bytes)) := by
  rw [bind_assoc]
  exact congrArg (source >>= ·) (funext fun _ => pure_bind _ _)

theorem pop_eq (kind : Kind) :
    kind.pop = Stack.pop >>= fun bytes => ExceptT.mk (pure (kind.read bytes)) := by
  cases kind with
  | bytes => rfl
  | number => exact number_eq Stack.pop
  | truth => exact truth_eq Stack.pop

theorem peek_eq (kind : Kind) (depth : Nat) :
    kind.peek depth = Stack.peek depth >>= fun bytes => ExceptT.mk (pure (kind.read bytes)) := by
  cases kind with
  | bytes => rfl
  | number => exact number_eq (Stack.peek depth)
  | truth => exact truth_eq (Stack.peek depth)

end Kind

/-! ### One call -/

/-- The greatest depth. A look at it would need one element more than a word can count. -/
def greatestDepth : UInt64 := 0xffffffffffffffff

/-- The depth that a call looks at. -/
def Call.depth? : Call → Option UInt64
  | peek _ depth => some depth
  | _ => none

/-- The element that a call puts on the stack. -/
def Call.pushed? : Call → Option Bytes
  | push bytes => some bytes
  | pushNumber n => some (ScriptNumber.encode n.toInt)
  | pushBool value => some (ScriptBool.encode value)
  | _ => none

/-- A look at any other depth needs a number of elements that is a word. -/
theorem exists_needed (h : depth ≠ greatestDepth) :
    ∃ needed, Words.add? depth 1 = some needed ∧ needed.toNat = depth.toNat + 1 := by
  refine Words.exists_add?_eq_some ?_
  have hne : depth.toNat ≠ 2 ^ 64 - 1 := fun heq => h (UInt64.toNat_inj.1 heq)
  have hlt := depth.toNat_lt
  change depth.toNat + 1 < 2 ^ 64
  omega

theorem needed?_eq_add? (depth : UInt64) : needed? depth = Words.add? depth 1 := by
  have hlt := depth.toNat_lt
  have hzero : depth + 1 = 0 ↔ ¬depth.toNat + (1 : UInt64).toNat < UInt64.size := by
    rw [← UInt64.toNat_inj, UInt64.toNat_add]
    change (depth.toNat + 1) % 2 ^ 64 = 0 ↔ ¬depth.toNat + 1 < 2 ^ 64
    omega
  simp only [needed?, Words.add?, hzero, ite_not]

theorem perform_eq {step : Step Answer} (h : call.step? = some step) (stack : Stack) :
    perform call stack = some (step.apply stack) := by
  rw [perform, h]
  rfl

theorem perform_of_pushed (h : call.pushed? = some bytes) (stack : Stack) : perform call stack =
    some (if maxSize ≤ stack.size then (.error (.stackOverflow (stack.size + 1)), stack)
      else (.ok .done, ⟨bytes :: stack.items⟩)) := by
  have hstep : call.step? = some (push bytes >>= fun _ => ExceptT.mk (pure (.ok .done))) := by
    cases call <;> cases h <;> rfl
  rw [perform_eq hstep, apply_bind_read, apply_push]
  split <;> rfl

theorem perform_pop (kind : Kind) (stack : Stack) : perform (.pop kind) stack =
    some (match stack.items with
      | [] => (.error .stackUnderflow, stack)
      | top :: rest => (kind.read top, ⟨rest⟩)) := by
  have hstep : (Call.pop kind).step? = some kind.pop := rfl
  rw [perform_eq hstep, kind.pop_eq, apply_bind_read]
  obtain ⟨_ | ⟨top, rest⟩⟩ := stack <;> rfl

theorem step?_peek (kind : Kind) (h : depth ≠ greatestDepth) :
    (Call.peek kind depth).step? = some (kind.peek depth.toNat) := by
  obtain ⟨needed, hneeded, -⟩ := exists_needed h
  rw [Call.step?, lookAt?, needed?_eq_add?, hneeded]
  rfl

theorem perform_peek (kind : Kind) (h : depth ≠ greatestDepth) (stack : Stack) :
    perform (.peek kind depth) stack = some (match stack.items[depth.toNat]? with
      | some bytes => kind.read bytes
      | none => .error (.stackDepth depth.toNat stack.size), stack) := by
  rw [perform_eq (step?_peek kind h), kind.peek_eq, apply_bind_read, apply_peek]
  cases stack.items[depth.toNat]? <;> rfl

theorem perform_peek_greatestDepth (kind : Kind) (stack : Stack) :
    perform (.peek kind greatestDepth) stack = none := rfl

/-- A call breaks off exactly if it looks at the greatest depth. -/
theorem perform_eq_none_iff : perform call stack = none ↔ call.depth? = some greatestDepth := by
  cases call with
  | peek kind depth =>
    by_cases h : depth = greatestDepth
    · subst h
      exact iff_of_true (perform_peek_greatestDepth kind stack) rfl
    · rw [perform_peek kind h]
      simp [Call.depth?, h]
  | _ => exact iff_of_false nofun nofun

/-- **What a call may do**: it leaves the stack, puts an element on one that has room, or takes off the
top. -/
theorem perform_cases (h : perform call stack = some (answer, after)) : after = stack ∨
    (∃ bytes, stack.size < maxSize ∧ after = ⟨bytes :: stack.items⟩) ∨
      ∃ top, stack.items = top :: after.items := by
  have hpush : ∀ bytes, call.pushed? = some bytes → after = stack ∨
      ∃ bytes, stack.size < maxSize ∧ after = ⟨bytes :: stack.items⟩ := by
    intro bytes hpushed
    rw [perform_of_pushed hpushed] at h
    split at h
    · cases h
      exact .inl rfl
    · next hroom =>
      cases h
      exact .inr ⟨bytes, Nat.lt_of_not_le hroom, rfl⟩
  cases call with
  | size | isEmpty =>
    cases h
    exact .inl rfl
  | push _ | pushNumber _ | pushBool _ => exact (hpush _ rfl).imp_right .inl
  | pop kind =>
    rw [perform_pop] at h
    obtain ⟨_ | ⟨top, rest⟩⟩ := stack
    · cases h
      exact .inl rfl
    · cases h
      exact .inr (.inr ⟨top, rfl⟩)
  | peek kind depth =>
    by_cases hdepth : depth = greatestDepth
    · rw [hdepth, perform_peek_greatestDepth] at h
      cases h
    · rw [perform_peek kind hdepth] at h
      cases h
      exact .inl rfl

/-- One call leaves no more elements than are allowed. -/
theorem size_le_of_perform (h : perform call stack = some (answer, after))
    (hsize : stack.size ≤ maxSize) : after.size ≤ maxSize := by
  rcases perform_cases h with rfl | ⟨bytes, hroom, rfl⟩ | ⟨top, htop⟩
  · exact hsize
  · exact hroom
  · rw [size, htop, List.length_cons] at hsize
    exact Nat.le_of_succ_le hsize

/-! ### Calls one behind the other -/

section InTurn

variable {σ : Type} {perform : Call → σ → Option (Except ExecutionError Answer × σ)} {call : Call}
  {calls first second : List Call} {s between after : σ}
  {answers others : List (Except ExecutionError Answer)} {answer : Except ExecutionError Answer}

theorem inTurn_cons (hcall : perform call s = some (answer, between))
    (hcalls : inTurn perform calls between = some (answers, after)) :
    inTurn perform (call :: calls) s = some (answer :: answers, after) := by
  rw [inTurn, hcall]
  change (inTurn perform calls between).bind _ = _
  rw [hcalls]
  rfl

theorem inTurn_append (hfirst : inTurn perform first s = some (answers, between))
    (hsecond : inTurn perform second between = some (others, after)) :
    inTurn perform (first ++ second) s = some (answers ++ others, after) := by
  induction first generalizing s answers with
  | nil =>
    cases hfirst
    exact hsecond
  | cons call calls ih =>
    obtain ⟨⟨answer, next⟩, hcall, hrest⟩ := Option.bind_eq_some_iff.1 hfirst
    obtain ⟨⟨rest, last⟩, hcalls, heq⟩ := Option.bind_eq_some_iff.1 hrest
    cases heq
    exact inTurn_cons hcall (ih hcalls)

end InTurn

/-- Elements that are taken off, whatever they are taken as, leave those below them. -/
theorem exists_run_pops (kinds : List Kind) (stack : Stack) :
    ∃ answers, run (kinds.map .pop) stack = some (answers, ⟨stack.items.drop kinds.length⟩) := by
  induction kinds generalizing stack with
  | nil => exact ⟨[], rfl⟩
  | cons kind kinds ih =>
    obtain ⟨_ | ⟨top, rest⟩⟩ := stack
    · obtain ⟨answers, hrun⟩ := ih ⟨[]⟩
      rw [List.drop_nil] at hrun ⊢
      exact ⟨_, inTurn_cons (perform_pop kind ⟨[]⟩) hrun⟩
    · obtain ⟨answers, hrun⟩ := ih ⟨rest⟩
      exact ⟨_, inTurn_cons (perform_pop kind ⟨top :: rest⟩) hrun⟩

/-- The one that comes off behind others is the one that stands below them, if there are so many. -/
theorem exists_run_pop (kinds : List Kind) (kind : Kind) (stack : Stack) : ∃ answers after,
    run (kinds.map .pop ++ [.pop kind]) stack = some (answers ++
      [match stack.items[kinds.length]? with
        | some bytes => kind.read bytes
        | none => .error .stackUnderflow], after) := by
  obtain ⟨answers, hpops⟩ := exists_run_pops kinds stack
  -- What stands below the others is the head of what they leave.
  rw [← List.head?_drop]
  cases hdrop : stack.items.drop kinds.length with
  | nil =>
    rw [hdrop] at hpops
    exact ⟨answers, ⟨[]⟩, inTurn_append hpops (inTurn_cons (perform_pop kind ⟨[]⟩) rfl)⟩
  | cons top rest =>
    rw [hdrop] at hpops
    exact ⟨answers, ⟨rest⟩, inTurn_append hpops (inTurn_cons (perform_pop kind ⟨top :: rest⟩) rfl)⟩

end UtxoLedger.Stack
