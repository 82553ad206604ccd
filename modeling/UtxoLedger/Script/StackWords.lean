import UtxoLedger.Script.NumberWords
import UtxoLedger.Script.Stack

/-!
Calls on the stack of the script machine, and the stack in words. There the elements stand in a row that
grows at its end; how many there are, how many a look needs and which place it comes to are words. What
asks for a word or for an element that there is not is not refused, it breaks off.
-/

namespace UtxoLedger.Stack

/-! ### Calls -/

/-- What an element is taken as. -/
inductive Kind where
  | bytes
  | number
  | truth
  deriving DecidableEq, Repr

/-- A call on the stack. -/
inductive Call where
  | size
  | isEmpty
  | push (bytes : Bytes)
  | pushNumber (n : Int64)
  | pushBool (value : Bool)
  | pop (kind : Kind)
  | peek (kind : Kind) (depth : UInt64)
  deriving DecidableEq

/-- The answer to a call that succeeds. -/
inductive Answer where
  | done
  | size (n : Nat)
  | bytes (bytes : Bytes)
  | number (n : Int)
  | truth (value : Bool)
  deriving DecidableEq, Repr

/-- Takes the top element. -/
def Kind.pop : Kind → Step Answer
  | bytes => return .bytes (← Stack.pop)
  | number => return .number (← popNumber)
  | truth => return .truth (← popBool)

/-- Looks at the element `depth` below the top. -/
def Kind.peek (kind : Kind) (depth : Nat) : Step Answer :=
  match kind with
  | bytes => return .bytes (← Stack.peek depth)
  | number => return .number (← peekNumber depth)
  | truth => return .truth (← peekBool depth)

/-- The step that a call makes, unless it breaks off. -/
def Call.step? : Call → Option (Step Answer)
  | size => some do return .size (← get).size
  | isEmpty => some do return .truth (← get).isEmpty
  | push bytes => some do
    Stack.push bytes
    return .done
  | pushNumber n => some do
    Stack.pushNumber n.toInt
    return .done
  | pushBool value => some do
    Stack.pushBool value
    return .done
  | pop kind => some kind.pop
  | peek kind depth => lookAt? kind.peek depth

/-- The answer to a call or its refusal, and the stack behind it. -/
def perform (call : Call) (stack : Stack) : Option (Except ExecutionError Answer × Stack) :=
  call.step?.map fun step => step stack

/-- Performs calls one behind the other, those that are refused too, unless one of them breaks off. -/
def inTurn {σ : Type} (perform : Call → σ → Option (Except ExecutionError Answer × σ)) :
    List Call → σ → Option (List (Except ExecutionError Answer) × σ)
  | [], s => some ([], s)
  | call :: calls, s => do
    let (answer, s) ← perform call s
    let (answers, s) ← inTurn perform calls s
    return (answer :: answers, s)

/-- The answers to calls one behind the other, and the stack behind them. -/
def run : List Call → Stack → Option (List (Except ExecutionError Answer) × Stack) :=
  inTurn perform

/-! ### The stack in words -/

/-- The elements, top last. -/
structure Row where
  items : Array Bytes
  deriving DecidableEq, Repr

namespace Row

def empty : Row := ⟨#[]⟩

/-- How many elements there are. -/
def size (row : Row) : UInt64 :=
  UInt64.ofNat row.items.size

/-- A step on a row, which may break off. One that fails leaves what it did before. -/
abbrev Step := ExceptT ExecutionError (StateT Row Option)

def Step.apply {α : Type} (step : Step α) (row : Row) : Option (Except ExecutionError α × Row) :=
  step row

/-- What a step relies on. If it is not there, the step breaks off. -/
def demand {α : Type} (x : Option α) : Step α := fun row =>
  x.map fun x => (.ok x, row)

def push (bytes : Bytes) : Step Unit := do
  let row ← get
  if UInt64.ofNat maxSize ≤ row.size then
    let size ← demand (Words.add? row.size 1)
    throw (.stackOverflow size.toNat)
  else set (⟨row.items.push bytes⟩ : Row)

def pop : Step Bytes := do
  let row ← get
  match row.items.back? with
  | none => throw .stackUnderflow
  | some top =>
    set (⟨row.items.pop⟩ : Row)
    return top

/-- The element from which on there are `needed` up to the top, looked for at a depth. -/
def reach (depth needed : UInt64) : Step Bytes := do
  let row ← get
  match Words.sub? row.size needed with
  | some place => demand row.items[place.toNat]?
  | none => throw (.stackDepth depth.toNat row.size.toNat)

/-- The element `depth` below the top. -/
def peek (depth : UInt64) : Step Bytes := do
  reach depth (← demand (Words.add? depth 1))

def asNumber (bytes : Bytes) : Step Int64 := do
  MonadExcept.ofExcept (← demand (ScriptNumber.InWords.decode bytes true maxNumberLength))

/-- An element as an answer. -/
def read (kind : Kind) (bytes : Bytes) : Step Answer :=
  match kind with
  | .bytes => return .bytes bytes
  | .number => return .number (← asNumber bytes).toInt
  | .truth => return .truth (ScriptBool.scan bytes)

def step : Call → Step Answer
  | .size => return .size (← get).size.toNat
  | .isEmpty => return .truth (← get).items.isEmpty
  | .push bytes => do
    push bytes
    return .done
  | .pushNumber n => do
    push (ScriptNumber.InWords.encode n)
    return .done
  | .pushBool value => do
    push (ScriptBool.encode value)
    return .done
  | .pop kind => do read kind (← pop)
  | .peek kind depth => do read kind (← peek depth)

/-- The answer to a call or its refusal, and the row behind it. -/
def perform (call : Call) (row : Row) : Option (Except ExecutionError Answer × Row) :=
  (step call).apply row

/-- The answers to calls one behind the other, and the row behind them. -/
def run : List Call → Row → Option (List (Except ExecutionError Answer) × Row) :=
  inTurn perform

end Row

end UtxoLedger.Stack
