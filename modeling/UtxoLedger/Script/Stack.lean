import UtxoLedger.Script.Number

/-!
The stack of the script machine: byte strings, at most a thousand of them.
-/

namespace UtxoLedger

/-- The elements, top first. -/
structure Stack where
  items : List Bytes
  deriving DecidableEq, Repr

namespace Stack

def maxSize : Nat := 1000

/-- The longest number that operations take from the stack. -/
def maxNumberLength : Nat := 4

def empty : Stack := ⟨[]⟩

def size (stack : Stack) : Nat :=
  stack.items.length

def isEmpty (stack : Stack) : Bool :=
  stack.items.isEmpty

/-- A step on the stack. One that fails leaves what it did before. -/
abbrev Step := ExceptT ExecutionError (StateM Stack)

def push (bytes : Bytes) : Step Unit := do
  let stack ← get
  if maxSize ≤ stack.size then throw (.stackOverflow (stack.size + 1))
  else set (⟨bytes :: stack.items⟩ : Stack)

def pop : Step Bytes := do
  match (← get).items with
  | [] => throw .stackUnderflow
  | top :: rest =>
    set (⟨rest⟩ : Stack)
    return top

/-- The element `depth` below the top. -/
def peek (depth : Nat) : Step Bytes := do
  let stack ← get
  match stack.items[depth]? with
  | some bytes => return bytes
  | none => throw (.stackDepth depth stack.size)

/-- How many elements a stack needs to have one `depth` below the top. That number is a word, as the
depth is, and the greatest depth has none. -/
def needed? (depth : UInt64) : Option UInt64 :=
  if depth + 1 = 0 then none else some (depth + 1)

/-- A look at a depth that is given as a word. There is none where the number of elements that it
needs is no word: such a look is not refused, it breaks off whatever asked for it. -/
def lookAt? {α : Type} (look : Nat → Step α) (depth : UInt64) : Option (Step α) :=
  (needed? depth).map fun _ => look depth.toNat

def asNumber (bytes : Bytes) : Step Int :=
  ExceptT.mk (pure (ScriptNumber.decode bytes true maxNumberLength))

def pushNumber (n : Int) : Step Unit :=
  push (ScriptNumber.encode n)

/-- Takes the top element as a number. It is gone even if it is none. -/
def popNumber : Step Int := do
  asNumber (← pop)

def peekNumber (depth : Nat) : Step Int := do
  asNumber (← peek depth)

def pushBool (value : Bool) : Step Unit :=
  push (ScriptBool.encode value)

def popBool : Step Bool := do
  return ScriptBool.decode (← pop)

def peekBool (depth : Nat) : Step Bool := do
  return ScriptBool.decode (← peek depth)

end Stack

end UtxoLedger
