import UtxoLedger.Proofs.Stack
import UtxoLedger.Proofs.Truth

/-!
The stack in words against the stack as a list. On the row of a stack a call comes to what it comes to on
the stack, and it breaks off in one case only, a look at the greatest depth: the number of elements that
it needs has no word. But for that the stack is total, and it is bounded.
-/

namespace UtxoLedger.Stack

variable {stack after : Stack} {depth : UInt64}

/-! ### The row of a stack -/

/-- The elements in a row, top last. -/
def row (stack : Stack) : Row :=
  ⟨stack.items.reverse.toArray⟩

namespace Row

variable {α β : Type} {step : Step α} {next : α → Step β} {row between : Row}

theorem apply_get_bind (next : Row → Step β) : ((get : Step Row) >>= next).apply row =
    (next row).apply row := rfl

theorem apply_demand_bind {x : Option α} {a : α} (h : x = some a) (next : α → Step β) :
    (demand x >>= next).apply row = (next a).apply row := by
  subst h
  rfl

theorem apply_bind_of_eq_ok {x : α} (h : step.apply row = some (.ok x, between)) :
    (step >>= next).apply row = (next x).apply between := by
  change Option.bind (step row) _ = _
  rw [show step row = _ from h]
  rfl

theorem apply_bind_of_eq_error {e : ExecutionError} (h : step.apply row = some (.error e, between)) :
    (step >>= next).apply row = some (.error e, between) := by
  change Option.bind (step row) _ = _
  rw [show step row = _ from h]
  rfl

theorem size_items_row (stack : Stack) : stack.row.items.size = stack.size := by
  simp [Stack.row, Stack.size]

theorem toNat_size_row (h : stack.size ≤ maxSize) : stack.row.size.toNat = stack.size := by
  have hlt : stack.size < UInt64.size := Nat.lt_of_le_of_lt h (by decide)
  rw [size, size_items_row, UInt64.toNat_ofNat_of_lt' hlt]

theorem items_push_row (bytes : Bytes) (stack : Stack) :
    (⟨stack.row.items.push bytes⟩ : Row) = Stack.row ⟨bytes :: stack.items⟩ := by
  simp [Stack.row]

theorem items_pop_row (top : Bytes) (rest : List Bytes) :
    (⟨(Stack.row ⟨top :: rest⟩).items.pop⟩ : Row) = Stack.row ⟨rest⟩ := by
  simp [Stack.row]

theorem back?_row (stack : Stack) : stack.row.items.back? = stack.items.head? := by
  simp [Stack.row]

/-- The element that is `i` below the top stands as many places before the end of the row. -/
theorem getElem?_row {i : Nat} (h : i < stack.size) :
    stack.row.items[stack.size - (i + 1)]? = stack.items[i]? := by
  have hlength : stack.items.length = stack.size := rfl
  have hplace : stack.items.length - 1 - (stack.size - (i + 1)) = i := by omega
  have hbound : stack.size - (i + 1) < stack.items.length := by omega
  rw [Stack.row, List.getElem?_toArray, List.getElem?_reverse hbound, hplace]

theorem apply_push (h : stack.size ≤ maxSize) (bytes : Bytes) : (push bytes).apply stack.row =
    some (Prod.map id Stack.row ((Stack.push bytes).apply stack)) := by
  have hsize := toNat_size_row h
  have hfull : UInt64.ofNat maxSize ≤ stack.row.size ↔ maxSize ≤ stack.size := by
    rw [UInt64.le_iff_toNat_le, hsize]
    exact Iff.rfl
  rw [push, apply_get_bind, Stack.apply_push]
  by_cases hroom : maxSize ≤ stack.size
  · -- The refusal tells a size that is not there. It is a word, as no row is longer than allowed.
    obtain ⟨sum, hsum, hvalue⟩ : ∃ sum, Words.add? stack.row.size 1 = some sum ∧
        sum.toNat = stack.row.size.toNat + 1 := by
      refine Words.exists_add?_eq_some ?_
      rw [hsize]
      exact Nat.lt_of_le_of_lt (Nat.succ_le_succ h) (by decide)
    rw [if_pos (hfull.2 hroom), if_pos hroom, apply_demand_bind hsum, hvalue, hsize]
    rfl
  · rw [if_neg (mt hfull.1 hroom), if_neg hroom]
    exact congrArg (fun row => some (Except.ok (), row)) (items_push_row bytes stack)

theorem apply_pop (stack : Stack) : pop.apply stack.row =
    some (Prod.map id Stack.row (Stack.pop.apply stack)) := by
  obtain ⟨_ | ⟨top, rest⟩⟩ := stack
  · rfl
  · rw [pop, apply_get_bind, back?_row]
    exact congrArg (fun row => some (Except.ok top, row)) (items_pop_row top rest)

/-- Where as many elements are needed as the depth and one make, it is the element at the depth that is
reached. -/
theorem apply_reach (h : stack.size ≤ maxSize) {needed : UInt64}
    (hneeded : needed.toNat = depth.toNat + 1) : (reach depth needed).apply stack.row =
      some (Prod.map id Stack.row ((Stack.peek depth.toNat).apply stack)) := by
  have hsize := toNat_size_row h
  rw [reach, apply_get_bind, Stack.apply_peek]
  by_cases hdepth : depth.toNat < stack.size
  · obtain ⟨place, hplace, hvalue⟩ : ∃ place, Words.sub? stack.row.size needed = some place ∧
        place.toNat = stack.row.size.toNat - needed.toNat :=
      Words.exists_sub?_eq_some (by omega)
    have hitem : stack.row.items[place.toNat]? = some stack.items[depth.toNat] := by
      rw [hvalue, hsize, hneeded, getElem?_row hdepth]
      exact List.getElem?_eq_getElem hdepth
    rw [hplace]
    change (demand stack.row.items[place.toNat]?).apply stack.row = _
    rw [hitem, List.getElem?_eq_getElem hdepth]
    rfl
  · have hnone : Words.sub? stack.row.size needed = none := Words.sub?_eq_none_iff.2 (by omega)
    rw [hnone, List.getElem?_eq_none (Nat.le_of_not_lt hdepth), hsize]
    rfl

theorem apply_peek (h : stack.size ≤ maxSize) (hdepth : depth ≠ greatestDepth) :
    (peek depth).apply stack.row =
      some (Prod.map id Stack.row ((Stack.peek depth.toNat).apply stack)) := by
  obtain ⟨needed, hneeded, hvalue⟩ := exists_needed hdepth
  rw [peek, apply_demand_bind hneeded]
  exact apply_reach h hvalue

/-- A sum that starts again from zero leads to the place behind the last element. -/
theorem apply_reach_zero (h : stack.size ≤ maxSize) : (reach depth 0).apply stack.row = none := by
  obtain ⟨place, hplace, hvalue⟩ : ∃ place, Words.sub? stack.row.size 0 = some place ∧
      place.toNat = stack.row.size.toNat - 0 :=
    Words.exists_sub?_eq_some (Nat.zero_le _)
  have hbeyond : stack.row.items[place.toNat]? = none := by
    rw [hvalue, Nat.sub_zero, toNat_size_row h, ← size_items_row]
    exact Array.getElem?_size
  rw [reach, apply_get_bind, hplace]
  change (demand stack.row.items[place.toNat]?).apply stack.row = none
  rw [hbeyond]
  rfl

theorem exists_apply_asNumber (bytes : Bytes) (row : Row) : ∃ result,
    (asNumber bytes).apply row = some (result, row) ∧
      result.map Int64.toInt = ScriptNumber.decode bytes true maxNumberLength := by
  obtain ⟨result, hresult, hvalue⟩ :=
    ScriptNumber.InWords.exists_decode_eq bytes true maxNumberLength
  refine ⟨result, ?_, hvalue⟩
  rw [asNumber, apply_demand_bind hresult]
  cases result <;> rfl

/-- Reading an element in words never breaks off. -/
theorem apply_read (kind : Kind) (bytes : Bytes) (row : Row) :
    (read kind bytes).apply row = some (kind.read bytes, row) := by
  cases kind with
  | bytes => rfl
  | number =>
    obtain ⟨result, hresult, hvalue⟩ := exists_apply_asNumber bytes row
    rw [read, Kind.read, ← hvalue]
    cases result with
    | error e => exact apply_bind_of_eq_error hresult
    | ok n => exact apply_bind_of_eq_ok hresult
  | truth =>
    have hscan := ScriptBool.scan_eq_decode bytes
    exact congrArg (fun value => some (Except.ok (Answer.truth value), row)) hscan

/-- What is made of what a step gives, with no more use of the elements, is the same on a row and on its
stack. -/
theorem apply_bind_read {plain : Stack.Step α} {f : α → Except ExecutionError β}
    (hstep : step.apply stack.row = some (Prod.map id Stack.row (plain.apply stack)))
    (hnext : ∀ x row, (next x).apply row = some (f x, row)) : (step >>= next).apply stack.row =
      some (Prod.map id Stack.row ((plain >>= fun x => ExceptT.mk (pure (f x))).apply stack)) := by
  rw [Stack.apply_bind_read]
  rcases hplain : plain.apply stack with ⟨e | x, after⟩
  · rw [hplain] at hstep
    exact apply_bind_of_eq_error hstep
  · rw [hplain] at hstep
    exact (apply_bind_of_eq_ok hstep).trans (hnext x _)

/-- **A call on a row comes to what it comes to on its stack**, also where it breaks off. -/
theorem perform_row (h : stack.size ≤ maxSize) (call : Call) :
    perform call stack.row = (Stack.perform call stack).map (Prod.map id Stack.row) := by
  have hpush : ∀ bytes, (do push bytes; return Answer.done : Step Answer).apply stack.row =
      (Stack.perform (.push bytes) stack).map (Prod.map id Stack.row) := fun bytes =>
    apply_bind_read (apply_push h bytes) fun _ _ => rfl
  cases call with
  | size =>
    have hsize : perform .size stack.row = some (.ok (.size stack.row.size.toNat), stack.row) := rfl
    rw [hsize, toNat_size_row h]
    rfl
  | isEmpty =>
    have hempty : stack.row.items.isEmpty = stack.isEmpty := by simp [Stack.row, Stack.isEmpty]
    exact congrArg (fun value => some (Except.ok (Answer.truth value), stack.row)) hempty
  | push bytes => exact hpush bytes
  | pushNumber n =>
    rw [perform, step, ScriptNumber.InWords.encode_eq]
    exact hpush (ScriptNumber.encode n.toInt)
  | pushBool value => exact hpush (ScriptBool.encode value)
  | pop kind =>
    have hstep : (Call.pop kind).step? = some kind.pop := rfl
    rw [perform_eq hstep, kind.pop_eq]
    exact apply_bind_read (apply_pop stack) (apply_read kind)
  | peek kind depth =>
    by_cases hdepth : depth = greatestDepth
    · -- The sum with one is no word, on either side.
      subst hdepth
      rfl
    · rw [perform_eq (step?_peek kind hdepth), kind.peek_eq]
      exact apply_bind_read (apply_peek h hdepth) (apply_read kind)

end Row

/-! ### What calls come to -/

/-- Through calls that do not look at the greatest depth nothing breaks off, neither on the stack nor on
its row, and no more elements are left than are allowed. -/
theorem exists_run_eq {calls : List Call} (hdepth : ∀ call ∈ calls, call.depth? ≠ some greatestDepth)
    (hsize : stack.size ≤ maxSize) : ∃ answers after, run calls stack = some (answers, after) ∧
      Row.run calls stack.row = some (answers, after.row) ∧ after.size ≤ maxSize := by
  -- The bound on the size is what carries the induction: without it the row does not tell its size.
  induction calls generalizing stack with
  | nil => exact ⟨[], stack, rfl, rfl, hsize⟩
  | cons call calls ih =>
    have hsome : perform call stack ≠ none :=
      mt perform_eq_none_iff.1 (hdepth call List.mem_cons_self)
    obtain ⟨⟨answer, between⟩, hcall⟩ := Option.ne_none_iff_exists'.1 hsome
    have hrow : Row.perform call stack.row = some (answer, between.row) := by
      rw [Row.perform_row hsize, hcall]
      rfl
    have hrest : ∀ call ∈ calls, call.depth? ≠ some greatestDepth := fun call hmem =>
      hdepth call (List.mem_cons_of_mem _ hmem)
    obtain ⟨answers, after, hrun, hrunRow, hafter⟩ := ih hrest (size_le_of_perform hcall hsize)
    exact ⟨answer :: answers, after, inTurn_cons hcall hrun, inTurn_cons hrow hrunRow, hafter⟩

/-- What calls on a row come to. -/
structure Row.Sound (row : Row) : Prop where
  /-- The size is told, and it is a thousand at most. -/
  bounded : perform .size row = some (.ok (.size row.items.size), row) ∧ row.items.size ≤ maxSize
  /-- Nothing breaks off but a look at the greatest depth. -/
  total : ∀ call, perform call row = none ↔ call.depth? = some greatestDepth
  /-- Such a look also breaks off if the number of elements that it needs starts again from zero. -/
  wrapped : (reach greatestDepth (greatestDepth + 1)).apply row = none
  /-- An element is put on top while there is room. A full row refuses it and is left. -/
  pushed : ∀ call bytes, call.pushed? = some bytes → perform call row =
    if row.items.size < maxSize then some (.ok .done, ⟨row.items.push bytes⟩)
    else some (.error (.stackOverflow (maxSize + 1)), row)
  /-- The top comes off, whatever it is taken as. An empty row has none and is left. -/
  popped : ∀ kind, perform (.pop kind) row = match row.items.back? with
    | some top => some (kind.read top, ⟨row.items.pop⟩)
    | none => some (.error .stackUnderflow, row)
  /-- A look finds the element at its depth. -/
  found : ∀ kind depth, depth.toNat < row.items.size →
    ∃ bytes, row.items[row.items.size - (depth.toNat + 1)]? = some bytes ∧
      perform (.peek kind depth) row = some (kind.read bytes, row)
  /-- It is refused where there is none. -/
  refused : ∀ kind depth, depth ≠ greatestDepth → row.items.size ≤ depth.toNat →
    perform (.peek kind depth) row = some (.error (.stackDepth depth.toNat row.items.size), row)
  /-- What is found there is what comes off behind all that is above it, whatever that is taken as; and
  where there is none, that is refused too. -/
  below : ∀ (above : List Kind) kind depth, above.length = depth.toNat → depth ≠ greatestDepth →
    ∃ answers answer after,
      run (above.map .pop ++ [.pop kind]) row = some (answers ++ [answer], after) ∧
      if depth.toNat < row.items.size then perform (.peek kind depth) row = some (answer, row)
      else answer = .error .stackUnderflow

/-- Every row of a stack that is not too large is sound. -/
theorem sound_row (h : stack.size ≤ maxSize) : Row.Sound stack.row where
  bounded := by
    rw [Row.perform_row h, Row.size_items_row]
    exact ⟨rfl, h⟩
  total call := by
    rw [Row.perform_row h, Option.map_eq_none_iff, perform_eq_none_iff]
  wrapped := Row.apply_reach_zero h
  pushed call bytes hpushed := by
    rw [Row.perform_row h, perform_of_pushed hpushed, Row.size_items_row, Row.items_push_row]
    by_cases hroom : stack.size < maxSize
    · rw [if_pos hroom, if_neg (Nat.not_le.2 hroom)]
      rfl
    · have hfull : stack.size = maxSize := by omega
      rw [if_neg hroom, if_pos hfull.ge, hfull]
      rfl
  popped kind := by
    rw [Row.perform_row h, perform_pop, Row.back?_row]
    obtain ⟨_ | ⟨top, rest⟩⟩ := stack
    · rfl
    · exact congrArg (fun row => some (kind.read top, row)) (Row.items_pop_row top rest).symm
  found kind depth hdepth := by
    have hsize := Row.size_items_row stack
    have hlt : depth.toNat < stack.size := hsize ▸ hdepth
    have hne : depth ≠ greatestDepth := by
      rintro rfl
      exact absurd (Nat.lt_of_lt_of_le hlt h) (by decide)
    have hitem : stack.items[depth.toNat]? = some stack.items[depth.toNat] :=
      List.getElem?_eq_getElem hlt
    refine ⟨stack.items[depth.toNat], ?_, ?_⟩
    · rw [hsize, Row.getElem?_row hlt, hitem]
    · rw [Row.perform_row h, perform_peek kind hne, hitem]
      rfl
  refused kind depth hne hdepth := by
    rw [Row.size_items_row] at hdepth ⊢
    rw [Row.perform_row h, perform_peek kind hne, List.getElem?_eq_none hdepth]
    rfl
  below above kind depth hlength hne := by
    obtain ⟨answers, last, hrun⟩ := exists_run_pop above kind stack
    have hpops : ∀ call ∈ above.map Call.pop ++ [.pop kind], call.depth? ≠ some greatestDepth := by
      intro call hcall
      rw [List.mem_append, List.mem_map, List.mem_singleton] at hcall
      rcases hcall with ⟨other, -, rfl⟩ | rfl <;> nofun
    obtain ⟨_, after, hsame, hrow, -⟩ := exists_run_eq hpops h
    cases hrun.symm.trans hsame
    refine ⟨_, _, _, hrow, ?_⟩
    rw [hlength, Row.size_items_row, Row.perform_row h, perform_peek kind hne]
    split
    · next hlt =>
      rw [List.getElem?_eq_getElem hlt]
      rfl
    · next hge =>
      rw [List.getElem?_eq_none (Nat.le_of_not_lt hge)]

/-- **The stack is total and bounded.** Calls on a new stack, whatever they are and in whatever order,
all have their answers, which are the same in words and on the list, as long as none of them looks at the
greatest depth; and every call that may follow is then answered as it should be. -/
theorem total_and_bounded (calls : List Call)
    (hdepth : ∀ call ∈ calls, call.depth? ≠ some greatestDepth) :
    ∃ answers row, Row.run calls .empty = some (answers, row) ∧ row.Sound ∧
      ∃ stack, run calls .empty = some (answers, stack) ∧ row = stack.row := by
  have hempty : Stack.empty.size ≤ maxSize := Nat.zero_le _
  obtain ⟨answers, after, hrun, hrow, hsize⟩ := exists_run_eq hdepth hempty
  exact ⟨answers, after.row, hrow, sound_row hsize, after, hrun, rfl⟩

/-- Two elements are put on the stack and looked at, and then one is looked for as deep as may be. -/
def looks : List Call :=
  [.push [7], .push [0x85], .peek .number 0, .peek .bytes 1, .peek .truth (greatestDepth - 1)]

theorem total_and_bounded_looks : (∀ call ∈ looks, call.depth? ≠ some greatestDepth) ∧
    Row.run looks .empty = some ([.ok .done, .ok .done, .ok (.number (-5)), .ok (.bytes [7]),
      .error (.stackDepth (2 ^ 64 - 2) 2)], ⟨#[[7], [0x85]]⟩) ∧
    Row.Sound ⟨#[[7], [0x85]]⟩ := by
  have hdepth : ∀ call ∈ looks, call.depth? ≠ some greatestDepth := by decide
  have hanswers : Row.run looks .empty = some ([.ok .done, .ok .done, .ok (.number (-5)),
      .ok (.bytes [7]), .error (.stackDepth (2 ^ 64 - 2) 2)], ⟨#[[7], [0x85]]⟩) := rfl
  obtain ⟨answers, row, hrun, hsound, -⟩ := total_and_bounded looks hdepth
  cases hrun.symm.trans hanswers
  exact ⟨hdepth, hanswers, hsound⟩

/-- **A look at the greatest depth is not refused, it breaks off**: the sum of the depth and one has no
word, and if it starts again from zero, there is no element where it leads. -/
theorem run_peek_greatestDepth_eq_none :
    Row.run [.push [7], .peek .bytes greatestDepth] .empty = none ∧
    run [.push [7], .peek .bytes greatestDepth] .empty = none ∧
    (Row.reach greatestDepth (greatestDepth + 1)).apply ⟨#[[7]]⟩ = none := by
  have hsize : size ⟨[[7]]⟩ ≤ maxSize := by decide
  have hwrapped : (Row.reach greatestDepth 0).apply (row ⟨[[7]]⟩) = none :=
    Row.apply_reach_zero hsize
  exact ⟨rfl, rfl, hwrapped⟩

end UtxoLedger.Stack
